import Mathlib.Algebra.BigOperators.Fin
import OpenQasm.Proofs.Quantum.Exact
import OpenQasm.Proofs.Quantum.ModularPower
import OpenQasm.Proofs.Quantum.Simulation

/-!
# Where amplitudes go

What a gate and a modular power do to a state, amplitude by amplitude. A gate gives each
index whose controls hold the product of a row of its matrix with old amplitudes only. A
modular power that is granted moves every amplitude to a place of its own.
-/
namespace OpenQasm

namespace StateVector

/-- The bits of an index at a list of qubits as a number, the first qubit having the highest
weight. -/
def bigEndian (qs : List QubitId) (i : Nat) : Nat :=
  ∑ j : Fin qs.length, 2 ^ (qs.length - 1 - j) * (i.testBit qs[j]).toNat

theorem bigEndian_cons (q : QubitId) (qs : List QubitId) (i : Nat) :
    bigEndian (q :: qs) i = 2 ^ qs.length * (i.testBit q).toNat + bigEndian qs i := by
  have hweight : ∀ j : Fin qs.length, (q :: qs).length - 1 - (j.succ : Nat) =
      qs.length - 1 - j := by
    intro j
    rw [List.length_cons, Fin.val_succ]
    omega
  unfold bigEndian
  refine (Fin.sum_univ_succ (n := qs.length) _).trans (congrArg₂ (· + ·) rfl ?_)
  exact Finset.sum_congr rfl fun j _ => by rw [hweight]; rfl

/-- Reading a register doubles the number once for each later qubit. -/
theorem readRegister_eq_bigEndian (qs : List QubitId) (i : Nat) :
    readRegister qs i = bigEndian qs i := by
  induction qs with
  | nil => rfl
  | cons q qs ih => rw [readRegister_cons, bigEndian_cons, ih]

/-- What is written to a register is read back. -/
theorem bigEndian_writeRegister {qs : List QubitId} (hqs : qs.Nodup) {v : Nat}
    (hv : v < dimension qs.length) (i : Nat) : bigEndian qs (writeRegister v qs i) = v := by
  rw [← readRegister_eq_bigEndian, readRegister_writeRegister hqs hv]

theorem testBit_writeRegister_of_notMem {qs : List QubitId} (hqs : qs.Nodup) {q : QubitId}
    (hq : q ∉ qs) (v i : Nat) : (writeRegister v qs i).testBit q = i.testBit q := by
  rw [testBit_writeRegister hqs, if_neg hq]

section Gates

variable {A : Type} [Zero A] [Add A]

theorem fold_eq_foldl_range (f : Nat → A) (n : Nat) :
    Nat.fold n (fun c _ sum => sum + f c) 0 = (List.range n).foldl (fun sum c => sum + f c) 0 := by
  induction n with
  | zero => rfl
  | succ n ih => rw [Nat.fold_succ, ih, List.range_succ, List.foldl_append, List.foldl_cons,
      List.foldl_nil]

variable [Mul A]

/-- A gate keeps the amplitudes of the indices where a control differs from its polarity. At
any other index it adds up, column by column, the row of its matrix that the index names by
its target bits, times the old amplitudes of the indices that name the columns and agree with
it everywhere else. -/
theorem get_applyControlled_eq_foldl (m : Unitary A) {cs : List Control} {ts : List QubitId}
    (hnodup : (cs.map Control.qubit ++ ts).Nodup) (v : StateVector A)
    (hlt : ∀ t ∈ ts, t < v.qubits) :
    (v.applyControlled m cs ts).qubits = v.qubits ∧ ∀ i < 2 ^ v.qubits,
      ((v.applyControlled m cs ts).get i =
        if ∃ c ∈ cs, i.testBit c.qubit ≠ c.on then v.get i
        else (List.range (2 ^ ts.length)).foldl (fun sum col =>
          sum + m.get (bigEndian ts i) col * v.get (writeRegister col ts i)) 0) ∧
      ∀ col < 2 ^ ts.length, bigEndian ts (writeRegister col ts i) = col ∧
        ∀ q ∉ ts, (writeRegister col ts i).testBit q = i.testBit q := by
  have hts : ts.Nodup := (List.nodup_append'.1 hnodup).2.1
  refine ⟨rfl, fun i hi => ⟨?_, fun col hcol => ⟨bigEndian_writeRegister hts hcol i,
    fun q hq => testBit_writeRegister_of_notMem hts hq col i⟩⟩⟩
  have hsum : rowSum m ts v.get i = (List.range (2 ^ ts.length)).foldl (fun sum col =>
      sum + m.get (bigEndian ts i) col * v.get (writeRegister col ts i)) 0 := by
    rw [← readRegister_eq_bigEndian]
    exact fold_eq_foldl_range _ _
  have hholds : (∀ c ∈ cs, c.Holds i) ↔ ¬∃ c ∈ cs, i.testBit c.qubit ≠ c.on := by
    simp only [Control.Holds, ne_eq, not_exists, not_and, not_not]
  rw [get_applyControlled m hnodup v hlt hi, hsum]
  by_cases hdiffers : ∃ c ∈ cs, i.testBit c.qubit ≠ c.on
  · rw [if_pos hdiffers, if_neg fun h => hholds.1 h hdiffers]
  · rw [if_neg hdiffers, if_pos (hholds.2 hdiffers)]

/-- A gate under one control: where qubit 0 is one, the values of qubit 1 are exchanged. -/
theorem get_applyControlled_eq_foldl_exchange :
    let v : StateVector Int := ⟨2, #v[5, 6, 7, 8]⟩
    let m : Unitary Int := .ofFn 1 fun row col => if row = col then 0 else 1
    let w := v.applyControlled m [⟨0, true⟩] [1]
    ([0] ++ [1] : List QubitId).Nodup ∧ (∀ t ∈ [1], t < v.qubits) ∧
      w.get 0 = 5 ∧ w.get 1 = 8 ∧ w.get 2 = 7 ∧ w.get 3 = 6 := by
  intro v m w
  have hnodup : (([⟨0, true⟩] : List Control).map Control.qubit ++ [1]).Nodup := by decide
  have hlt : ∀ t ∈ [1], t < v.qubits := by decide
  have hget := (get_applyControlled_eq_foldl m hnodup v hlt).2
  exact ⟨hnodup, hlt, (hget 0 (by decide)).1, (hget 1 (by decide)).1, (hget 2 (by decide)).1,
    (hget 3 (by decide)).1⟩

end Gates

end StateVector

namespace ModularPower

open StateVector

/-- What becomes of a target value is the product with the power, if it is below the modulus. -/
theorem multiplied_eq (a n x y : Nat) :
    multiplied a n x y = if y < n then a ^ x * y % n else y := by
  unfold multiplied
  by_cases hy : y < n
  · rw [if_pos hy, if_neg (Nat.not_le.2 hy)]
    exact (powMod_modEq a x n).mul_right y
  · rw [if_neg hy, if_pos (Nat.not_lt.1 hy)]

end ModularPower

namespace Simulator

open StateVector ModularPower

variable {R : Type} [Scalar R]

theorem of_modularPower_ok {a n : Nat} {control target : List QubitId} {s s' : Simulator R}
    (h : modularPower a n control target s = (.ok (), s')) :
    (∀ q ∈ control ++ target, q < s.state.qubits) ∧ (control ++ target).Nodup ∧
      ModularPower.check a n target.length = .ok () ∧
      s' = { s with state := s.state.permute (basisMap a n control target) } := by
  rw [modularPower_eq] at h
  cases hqubits : s.checkAll [] (control ++ target) with
  | error e =>
      rw [hqubits] at h
      cases h
  | ok u =>
      cases hcheck : ModularPower.check a n target.length with
      | error e =>
          rw [hqubits, hcheck] at h
          cases h
      | ok u =>
          rw [hqubits, hcheck] at h
          obtain ⟨hknown, hnodup, -⟩ := checkAll_ok_iff.1 hqubits
          cases h
          exact ⟨hknown, hnodup, rfl, rfl⟩

/-- A modular power that is granted permutes the basis states. It multiplies the target value
by the power that the control value names, if the target value is below the modulus, and
changes no bit outside the target. Every amplitude is found where its basis state went, and
nothing but the state vector changes. -/
theorem modularPower_permutes (a n : UInt64) {control target : List QubitId} {s s' : Simulator R}
    (h : modularPower a.toNat n.toNat control target s = (.ok (), s')) :
    let move := basisMap a.toNat n.toNat control target
    Set.BijOn move (Set.Iio (2 ^ s.state.qubits)) (Set.Iio (2 ^ s.state.qubits)) ∧
      (∀ i, (∀ q ∉ target, (move i).testBit q = i.testBit q) ∧
        bigEndian target (move i) =
          if bigEndian target i < n.toNat then
            a.toNat ^ bigEndian control i * bigEndian target i % n.toNat
          else bigEndian target i) ∧
      s' = { s with state := s'.state } ∧ s'.state.qubits = s.state.qubits ∧
      ∀ i < 2 ^ s.state.qubits, s'.state.get (move i) = s.state.get i := by
  intro move
  obtain ⟨hknown, hnodup, hcheck, rfl⟩ := of_modularPower_ok h
  obtain ⟨hpos, hfits, hgcd⟩ := of_check_ok hcheck n.toNat_lt
  have htarget : target.Nodup := (List.nodup_append'.1 hnodup).2.1
  have hmaps : ∀ i < dimension s.state.qubits, move i < dimension s.state.qubits := fun i hi =>
    basisMap_lt htarget (fun t ht => hknown t (List.mem_append_right _ ht)) hi
  have hinj : ∀ i j, move i = move j → i = j := fun i j heq =>
    basisMap_injective hnodup hpos hfits hgcd heq
  have hmove : ∀ i, move i =
      writeRegister (multiplied a.toNat n.toNat (bigEndian control i) (bigEndian target i))
        target i := by
    intro i
    rw [← readRegister_eq_bigEndian, ← readRegister_eq_bigEndian]
    exact basisMap_eq htarget i
  have hvalue : ∀ i, multiplied a.toNat n.toNat (bigEndian control i) (bigEndian target i) <
      dimension target.length := by
    intro i
    rw [← readRegister_eq_bigEndian target]
    exact multiplied_lt hpos hfits _ _ (readRegister_lt target i)
  refine ⟨((Set.finite_Iio _).injOn_iff_bijOn_of_mapsTo hmaps).1 fun i _ j _ => hinj i j,
    fun i => ⟨fun q hq => ?_, ?_⟩, rfl, rfl, fun i hi => ?_⟩
  · rw [hmove, testBit_writeRegister_of_notMem htarget hq]
  · rw [hmove, bigEndian_writeRegister htarget (hvalue i), multiplied_eq]
  · exact get_permute hmaps (fun i _ j _ => hinj i j) hi

/-- Doubling modulo three: the control is qubit 2, and the target value is one. -/
theorem modularPower_permutes_doubling :
    let number (i : Nat) : Amplitude ℝ := ⟨i, 0⟩
    let s : Simulator ℝ := ⟨⟨3, Vector.ofFn fun i => number i⟩, 3, fun _ => 0, 0, 0⟩
    let s' := { s with state := s.state.permute (basisMap 2 3 [2] [1, 0]) }
    modularPower 2 3 [2] [1, 0] s = (.ok (), s') ∧ s'.state.get 6 = number 5 := by
  intro number s s'
  have hcheck : ModularPower.check 2 3 2 = .ok () := by simp [ModularPower.check, divisor_eq_gcd]
  have hgranted : modularPower 2 3 [2] [1, 0] s = (.ok (), s') := by
    have hqubits : s.checkAll [] ([2] ++ [1, 0]) = .ok () :=
      checkAll_ok_iff.2 ⟨by decide, by decide, by simp⟩
    rw [modularPower_eq, hqubits]
    change (liftM (ModularPower.check 2 3 2) >>= _ : Request (Simulator ℝ) Unit) s = _
    rw [hcheck]
    rfl
  have hmove : basisMap 2 3 [2] [1, 0] 5 = 6 := by
    rw [basisMap_eq (by decide), multiplied_eq]
    rfl
  have harrives := (modularPower_permutes 2 3 hgranted).2.2.2.2 5 (by decide)
  refine ⟨hgranted, ?_⟩
  rw [← hmove]
  exact harrives.trans (get_ofFn number (by decide))

end Simulator

end OpenQasm
