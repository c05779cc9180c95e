import OpenQasm.Proofs.Quantum.Simulation
import OpenQasm.Proofs.Quantum.Weight

/-!
# Measurements as projections

A measurement of a normalized state keeps the amplitudes at the indices with the bit that
was seen, times a common factor, and removes the others. In a state without the others the
same bit is seen again, and the factor is one. Hence measurements one after the other keep
the amplitudes at the indices that have all bits that were seen.
-/
namespace OpenQasm

namespace Amplitude

theorem divReal_eq (a : Amplitude ℝ) (x : ℝ) : a.divReal x = ofReal x⁻¹ * a := by
  have hre : (a.divReal x).re = a.re / x := rfl
  have him : (a.divReal x).im = a.im / x := rfl
  ext
  · simp [hre, ofReal, div_eq_inv_mul]
  · simp [him, ofReal, div_eq_inv_mul]

theorem ofReal_mul (x y : ℝ) : ofReal x * ofReal y = ofReal (x * y) := by
  ext <;> simp [ofReal]

theorem ofReal_one : ofReal (1 : ℝ) = 1 := rfl

end Amplitude

namespace StateVector

variable {q : QubitId} {b : Bool} {qs : List QubitId} {bs : List Bool} {draw : ℝ}
  {u v w : StateVector (Amplitude ℝ)}

/-- The bits of an index at qubits. -/
def bitsAt (qs : List QubitId) (i : Nat) : List Bool := qs.map i.testBit

/-- A normalized state with the amplitudes of another one, times a common factor, at the
indices that have given bits at some qubits, and with none elsewhere. -/
structure Projected (qs : List QubitId) (bs : List Bool) (v w : StateVector (Amplitude ℝ)) :
    Prop where
  qubits : w.qubits = v.qubits
  weight : w.weight = 1
  scaled : ∃ c : ℝ, 0 < c ∧
    ∀ i, w.get i = if bitsAt qs i = bs then .ofReal c * v.get i else 0

namespace Projected

theorem nil (h : v.weight = 1) : Projected [] [] v v :=
  ⟨rfl, h, 1, one_pos, fun i => by simp [bitsAt, Amplitude.ofReal_one]⟩

/-- A projection of a projection keeps what has the bits of both. -/
theorem cons (hfirst : Projected [q] [b] v u) (hrest : Projected qs bs u w) :
    Projected (q :: qs) (b :: bs) v w := by
  obtain ⟨c, hc, hu⟩ := hfirst.scaled
  obtain ⟨d, hd, hw⟩ := hrest.scaled
  refine ⟨hrest.qubits.trans hfirst.qubits, hrest.weight, d * c, mul_pos hd hc, fun i => ?_⟩
  have hbits : bitsAt (q :: qs) i = b :: bs ↔ bitsAt [q] i = [b] ∧ bitsAt qs i = bs := by
    simp [bitsAt]
  rw [hw, hu, ← Amplitude.ofReal_mul, mul_assoc]
  by_cases hb : bitsAt [q] i = [b] <;> by_cases hbs : bitsAt qs i = bs <;>
    simp [hbits, hb, hbs]

theorem get_eq_zero (h : Projected qs bs v w) {i : Nat} (hi : bitsAt qs i ≠ bs) : w.get i = 0 := by
  obtain ⟨c, -, hw⟩ := h.scaled
  rw [hw, if_neg hi]

/-- An index that has an amplitude has the bits. -/
theorem bitsAt_eq (h : Projected qs bs v w) {i : Nat} (hi : w.get i ≠ 0) : bitsAt qs i = bs :=
  not_not.1 fun hne => hi (h.get_eq_zero hne)

end Projected

theorem bitsAt_singleton {i : Nat} : bitsAt [q] i = [b] ↔ i.testBit q = b := by
  simp [bitsAt]

theorem get_collapse (h : 0 < v.probability q b) (i : Nat) :
    (v.collapse q b).get i = if i.testBit q = b then
      .ofReal (Scalar.sqrt (v.probability q b))⁻¹ * v.get i else 0 := by
  by_cases hi : i < dimension v.qubits
  · have hget : (v.collapse q b).get i = (if i.testBit q = b then v.get i else 0).divReal
        (Scalar.sqrt (v.probability q b)) := by
      unfold collapse
      simp only [lt_sqrt_probability h, if_true]
      exact get_ofFn (fun i => (if i.testBit q = b then v.get i else 0).divReal
        (Scalar.sqrt (v.probability q b))) hi
    rw [hget, Amplitude.divReal_eq]
    split
    · rfl
    · exact mul_zero _
  · have hnone : (v.collapse q b).get i = 0 :=
      Operation.get_of_le (v := v.collapse q b) (Nat.le_of_not_lt hi)
    rw [hnone, Operation.get_of_le (Nat.le_of_not_lt hi), mul_zero, ite_self]

/-- A measurement projects a normalized state to the bit that is seen. -/
theorem projected_measure (hv : v.weight = 1) (hdraw : 0 ≤ draw ∧ draw < 1) :
    Projected [q] [(v.measure q draw).1] v (v.measure q draw).2 := by
  have hpos := probability_measure_pos (q := q) hv hdraw
  refine ⟨rfl, weight_measure hv hdraw, _, inv_pos.2 (Real.sqrt_pos.2 hpos), fun i => ?_⟩
  simp only [bitsAt_singleton]
  exact get_collapse hpos i

/-- The bit that was seen has probability one. -/
theorem Projected.probability_eq (h : Projected [q] [b] v w) (b' : Bool) :
    w.probability q b' = if b' = b then 1 else 0 := by
  have hother : w.probability q (!b) = 0 := by
    rw [StateVector.probability_eq]
    refine Finset.sum_eq_zero fun i _ => ?_
    split
    · rename_i hi
      have hne : bitsAt [q] i ≠ [b] := fun heq => by simp [bitsAt_singleton.1 heq] at hi
      rw [h.get_eq_zero hne, Amplitude.normSq_zero]
    · rfl
  have hsum := probability_add q b w
  rw [hother, add_zero, h.weight] at hsum
  by_cases hb : b' = b
  · rw [if_pos hb, hb, hsum]
  · rw [if_neg hb, Bool.eq_not_of_ne hb, hother]

/-- Another measurement sees the same bit and changes nothing. -/
theorem Projected.measure_eq (h : Projected [q] [b] v w) (hdraw : 0 ≤ draw ∧ draw < 1) :
    w.measure q draw = (b, w) := by
  have hbit : (w.measure q draw).1 = b := by
    change decide (draw < w.probability q true) = b
    rw [h.probability_eq]
    cases b
    · simpa using hdraw.1
    · simpa using hdraw.2
  have hone : w.probability q b = 1 := by rw [h.probability_eq, if_pos rfl]
  have hkept : w.collapse q b = w := by
    refine ext_get rfl fun i _ => ?_
    have hsqrt : Scalar.sqrt (w.probability q b) = 1 := by
      rw [hone]
      exact Real.sqrt_one
    rw [get_collapse (hone ▸ one_pos), hsqrt, inv_one, Amplitude.ofReal_one, one_mul]
    split
    · rfl
    · rename_i hi
      exact (h.get_eq_zero fun heq => hi (bitsAt_singleton.1 heq)).symm
  have hstate : (w.measure q draw).2 = w.collapse q (w.measure q draw).1 := rfl
  rw [← Prod.eta (w.measure q draw), hstate, hbit, hkept]

theorem get_flip (hq : q < v.qubits) (i : Nat) : (v.flip q).get i = v.get (i ^^^ bitAt q) := by
  have hundo : (i ^^^ bitAt q) ^^^ bitAt q = i := by rw [Nat.xor_assoc, Nat.xor_self, Nat.xor_zero]
  have hbit : bitAt q < dimension v.qubits := Nat.pow_lt_pow_right Nat.one_lt_two hq
  by_cases hi : i < dimension v.qubits
  · exact get_ofFn (fun i => v.get (i ^^^ bitAt q)) hi
  · have hnone : (v.flip q).get i = 0 :=
      Operation.get_of_le (v := v.flip q) (Nat.le_of_not_lt hi)
    have hout : dimension v.qubits ≤ i ^^^ bitAt q := by
      by_contra hlt
      exact hi (hundo ▸ Nat.xor_lt_two_pow (Nat.not_le.1 hlt) hbit)
    rw [hnone, Operation.get_of_le hout]

/-- A reset moves the amplitudes that a measurement keeps to the indices without the bit. -/
theorem get_reset (hq : q < v.qubits) (hv : v.weight = 1) (hdraw : 0 ≤ draw ∧ draw < 1) :
    ∃ b, ∃ c : ℝ, 0 < c ∧ ∀ i, (v.reset q draw).get i =
      if i.testBit q = true then 0 else .ofReal c * v.get (writeBit q b i) := by
  have hprojected := projected_measure (q := q) hv hdraw
  obtain ⟨c, hc, hget⟩ := hprojected.scaled
  simp only [bitsAt_singleton] at hget
  refine ⟨(v.measure q draw).1, c, hc, fun i => ?_⟩
  have hreset : v.reset q draw = if (v.measure q draw).1 = true then
      (v.measure q draw).2.flip q else (v.measure q draw).2 := rfl
  have hflipped : (i ^^^ bitAt q).testBit q = !i.testBit q := by
    simp [Nat.testBit_xor, testBit_bitAt]
  rw [hreset, writeBit]
  cases hb : (v.measure q draw).1 with
  | true =>
      rw [if_pos rfl, get_flip (hprojected.qubits ▸ hq), hget, hb, hflipped]
      cases i.testBit q <;> simp
  | false =>
      rw [if_neg Bool.false_ne_true, hget, hb]
      cases i.testBit q <;> simp

end StateVector

namespace Simulator

variable {R : Type} [Scalar R]

theorem measure_ok_iff {q : QubitId} {b : Bool} {s s' : Simulator R} :
    measure q s = (.ok b, s') ↔ q < s.state.qubits ∧
      b = (s.state.measure q (s.draws s.position)).1 ∧
      s' = { s with
        state := (s.state.measure q (s.draws s.position)).2
        position := s.position + 1 } := by
  rw [measure_eq, ran_bind]
  constructor
  · rintro ⟨u, s₁, hlift, h⟩
    obtain ⟨hcheck, rfl⟩ := ran_lift.1 hlift
    cases h
    exact ⟨check_ok_iff.1 hcheck, rfl, rfl⟩
  · rintro ⟨hq, rfl, rfl⟩
    exact ⟨(), s, ran_lift.2 ⟨check_ok_iff.2 hq, rfl⟩, rfl⟩

/-- A measurement that is granted projects the state. -/
theorem projected_of_measure {q : QubitId} {b : Bool} {s s' : Simulator ℝ}
    (hs : s.state.weight = 1) (hdraw : 0 ≤ s.draws s.position ∧ s.draws s.position < 1)
    (h : measure q s = (.ok b, s')) : StateVector.Projected [q] [b] s.state s'.state := by
  obtain ⟨-, rfl, rfl⟩ := measure_ok_iff.1 h
  exact StateVector.projected_measure hs hdraw

theorem reset_of_lt {q : QubitId} {s : Simulator R} (hq : q < s.state.qubits) :
    reset q s = (.ok (), { s with
      state := s.state.reset q (s.draws s.position)
      position := s.position + 1 }) := by
  rw [reset_eq]
  exact ran_bind.2 ⟨(), s, ran_lift.2 ⟨check_ok_iff.2 hq, rfl⟩, rfl⟩

end Simulator

end OpenQasm
