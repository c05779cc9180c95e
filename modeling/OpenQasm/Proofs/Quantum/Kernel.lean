import OpenQasm.Proofs.Quantum.Registers
import Mathlib.Tactic.Common

/-!
# The gate kernel

A gate is applied in place, group by group. An index belongs to the group whose base
is the index with its target bits cleared, and a group is read before it is written.
So after the bases below `b` have been visited, the indices whose base is below `b`
and whose controls hold have their new amplitude, and all others their old one.
-/
namespace OpenQasm

/-- Whether a control allows an operation at an index. -/
def Control.Holds (i : Nat) (c : Control) : Prop := i.testBit c.qubit = c.on

instance (i : Nat) (c : Control) : Decidable (c.Holds i) :=
  inferInstanceAs (Decidable (i.testBit c.qubit = c.on))

namespace StateVector

/-- Among controls on different qubits, the mask of those that are on tells their polarity. -/
theorem testBit_mask_filter_on {cs : List Control} (hcs : (cs.map Control.qubit).Nodup)
    {c : Control} (hc : c ∈ cs) :
    (mask ((cs.filter Control.on).map Control.qubit)).testBit c.qubit = c.on := by
  rw [testBit_mask]
  cases hon : c.on with
  | true => exact decide_eq_true (List.mem_map_of_mem (List.mem_filter.2 ⟨hc, hon⟩))
  | false =>
      refine decide_eq_false fun hmem => ?_
      obtain ⟨c', hc', heq⟩ := List.mem_map.1 hmem
      obtain ⟨hmem', hon'⟩ := List.mem_filter.1 hc'
      rw [List.inj_on_of_nodup_map hcs hmem' hc heq, hon] at hon'
      cases hon'

theorem and_mask_eq_mask_iff {cs : List Control} (hcs : (cs.map Control.qubit).Nodup) {i : Nat} :
    i &&& mask (cs.map Control.qubit) = mask ((cs.filter Control.on).map Control.qubit) ↔
      ∀ c ∈ cs, c.Holds i := by
  constructor
  · intro h c hc
    have hbit := congrArg (Nat.testBit · c.qubit) h
    simp only [Nat.testBit_and, testBit_mask_filter_on hcs hc] at hbit
    rw [testBit_mask, decide_eq_true (List.mem_map_of_mem hc), Bool.and_true] at hbit
    exact hbit
  · intro h
    refine Nat.eq_of_testBit_eq fun j => ?_
    rw [Nat.testBit_and, testBit_mask]
    by_cases hj : j ∈ cs.map Control.qubit
    · obtain ⟨c, hc, rfl⟩ := List.mem_map.1 hj
      have hbit : i.testBit c.qubit = c.on := h c hc
      rw [decide_eq_true hj, Bool.and_true, hbit, testBit_mask_filter_on hcs hc]
    · have hnot : j ∉ (cs.filter Control.on).map Control.qubit := by
        intro hmem
        obtain ⟨c, hc, rfl⟩ := List.mem_map.1 hmem
        exact hj (List.mem_map_of_mem (List.mem_filter.1 hc).1)
      rw [testBit_mask, decide_eq_false hj, decide_eq_false hnot, Bool.and_false]

theorem holds_writeRegister {cs : List Control} {ts : List QubitId}
    (hts : ts.Nodup) (hdisjoint : (cs.map Control.qubit).Disjoint ts) (v i : Nat) :
    (∀ c ∈ cs, c.Holds (writeRegister v ts i)) ↔ ∀ c ∈ cs, c.Holds i := by
  refine forall₂_congr fun c hc => ?_
  have hnot : c.qubit ∉ ts := fun h => hdisjoint (List.mem_map_of_mem hc) h
  rw [Control.Holds, testBit_writeRegister hts, if_neg hnot, Control.Holds]

section Writes

variable {A : Type} {n K : Nat} {place : Nat → Nat} (value : Nat → A)

theorem getElem?_fold_setIfInBounds (w : Vector A n)
    (hinj : ∀ r < K, ∀ r' < K, place r = place r' → r = r') {r : Nat} (hr : r < K)
    (hlt : place r < n) :
    (Nat.fold K (fun r _ w => w.setIfInBounds (place r) (value r)) w)[place r]? =
      some (value r) := by
  induction K with
  | zero => omega
  | succ K ih =>
      rw [Nat.fold_succ, Vector.getElem?_setIfInBounds]
      by_cases h : r = K
      · subst h
        rw [if_pos rfl, if_pos hlt]
      · have hne : place K ≠ place r := by
          intro heq
          have := hinj K (by omega) r (by omega) heq
          omega
        rw [if_neg hne]
        refine ih (fun r hr r' hr' => hinj r (by omega) r' (by omega)) (by omega)

theorem getElem?_fold_setIfInBounds_of_ne (w : Vector A n) {i : Nat}
    (hne : ∀ r < K, place r ≠ i) :
    (Nat.fold K (fun r _ w => w.setIfInBounds (place r) (value r)) w)[i]? = w[i]? := by
  induction K with
  | zero => rfl
  | succ K ih =>
      rw [Nat.fold_succ, Vector.getElem?_setIfInBounds, if_neg (hne K (by omega))]
      exact ih fun r hr => hne r (by omega)

end Writes

variable {A : Type} [Zero A]

theorem get_eq (v : StateVector A) (i : Nat) : v.get i = (v.amplitudes[i]?).getD 0 := by
  rw [get, Vector.getElem?_toArray]

/-- States are equal if their amplitudes are. -/
theorem ext_get {v w : StateVector A} (hqubits : v.qubits = w.qubits)
    (h : ∀ i < dimension v.qubits, v.get i = w.get i) : v = w := by
  obtain ⟨n, x⟩ := v
  obtain ⟨m, y⟩ := w
  subst hqubits
  congr 1
  refine Vector.ext fun i hi => ?_
  have hget := h i hi
  rw [get_eq, get_eq, Vector.getElem?_eq_getElem hi, Vector.getElem?_eq_getElem hi] at hget
  exact hget

/-- The amplitudes of a state that is given by its amplitudes. -/
theorem get_ofFn {n : Nat} (f : Nat → A) {i : Nat} (hi : i < dimension n) :
    (⟨n, Vector.ofFn fun i => f i⟩ : StateVector A).get i = f i := by
  have hget : (⟨n, Vector.ofFn fun i => f i⟩ : StateVector A).get i =
      ((Vector.ofFn fun i : Fin (dimension n) => f i)[i]?).getD 0 := get_eq _ i
  rw [hget, Vector.getElem?_eq_getElem hi, Option.getD_some, Vector.getElem_ofFn]

/-- Amplitudes that are moved to places of their own arrive there. -/
theorem get_permute {f : Nat → Nat} {v : StateVector A}
    (hmaps : ∀ i < dimension v.qubits, f i < dimension v.qubits)
    (hinj : ∀ i < dimension v.qubits, ∀ j < dimension v.qubits, f i = f j → i = j) {i : Nat}
    (hi : i < dimension v.qubits) : (v.permute f).get (f i) = v.get i := by
  rw [get_eq, permute]
  dsimp only
  rw [getElem?_fold_setIfInBounds v.get _ hinj hi (hmaps i hi), Option.getD_some]

variable [Add A] [Mul A]

/-- The row of a matrix that an index names by its target bits, times the amplitudes at the
indices that differ from it in these bits only. -/
def rowSum (m : Unitary A) (ts : List QubitId) (f : Nat → A) (i : Nat) : A :=
  Nat.fold (dimension ts.length) (fun col _ sum =>
    sum + m.get (readRegister ts i) col * f (writeRegister col ts i)) 0

theorem fold_congr_of_eq {β : Type} {n n' : Nat} (hn : n = n') {f g : Nat → β → β}
    (h : ∀ i < n, f i = g i) (b : β) :
    Nat.fold n (fun i _ b => f i b) b = Nat.fold n' (fun i _ b => g i b) b := by
  subst hn
  induction n with
  | zero => rfl
  | succ n ih =>
      rw [Nat.fold_succ, Nat.fold_succ, ih fun i hi => h i (by omega), h n (by omega)]

/-- Where the members of a group lie. -/
def offsets (ts : List QubitId) : Array Nat := (Array.range (dimension ts.length)).map (spread ts)

theorem size_offsets (ts : List QubitId) : (offsets ts).size = dimension ts.length := by
  simp [offsets]

theorem getElem?_offsets {ts : List QubitId} {r : Nat} (hr : r < dimension ts.length) :
    (offsets ts)[r]? = some (spread ts r) := by
  simp [offsets, hr]

/-- A group is multiplied by the matrix. -/
theorem getElem?_applyGroup {n : Nat} (m : Unitary A) {ts : List QubitId} (hts : ts.Nodup)
    (w : Vector A n) {base i : Nat} (hbase : base &&& mask ts = 0) (hi : i < n) :
    (applyGroup m (offsets ts) base w)[i]? =
      if writeRegister 0 ts i = base then some (rowSum m ts (fun j => (w[j]?).getD 0) i)
      else w[i]? := by
  have hplace : ∀ r < dimension ts.length,
      base ||| ((offsets ts)[r]?).getD 0 = writeRegister r ts base := by
    intro r hr
    rw [getElem?_offsets hr]
    exact or_spread hts hbase r
  have hclear : ∀ r, writeRegister 0 ts (writeRegister r ts base) = base := by
    intro r
    rw [writeRegister_writeRegister hts]
    exact (writeRegister_zero_eq_iff hts).2 hbase
  unfold applyGroup
  split
  · rename_i h
    have hmember : ∀ r, writeRegister r ts base = writeRegister r ts i := by
      intro r
      rw [← h, writeRegister_writeRegister hts]
    have hrow : readRegister ts i < dimension ts.length := readRegister_lt ts i
    have hself : base ||| ((offsets ts)[readRegister ts i]?).getD 0 = i := by
      rw [hplace _ hrow, hmember, writeRegister_readRegister hts]
    have hinj : ∀ r < (offsets ts).size, ∀ r' < (offsets ts).size,
        base ||| ((offsets ts)[r]?).getD 0 = base ||| ((offsets ts)[r']?).getD 0 → r = r' := by
      intro r hr r' hr' heq
      rw [size_offsets] at hr hr'
      rw [hplace r hr, hplace r' hr'] at heq
      rw [← readRegister_writeRegister hts hr base, heq, readRegister_writeRegister hts hr']
    have hset := getElem?_fold_setIfInBounds
      (fun row => rowTimes m row ((offsets ts).map fun o => (w[base ||| o]?).getD 0)) w hinj
      (by rw [size_offsets]; exact hrow) (by rw [hself]; exact hi)
    rw [hself] at hset
    refine hset.trans (congrArg some ?_)
    unfold rowTimes rowSum
    refine fold_congr_of_eq (by rw [Array.size_map, size_offsets]) ?_ 0
    intro col hcol
    rw [Array.size_map, size_offsets] at hcol
    funext sum
    rw [Array.getElem?_map, getElem?_offsets hcol, Option.map_some, Option.getD_some,
      or_spread hts hbase, hmember]
  · rename_i h
    refine getElem?_fold_setIfInBounds_of_ne _ w fun r hr heq => h ?_
    rw [size_offsets] at hr
    rw [← heq, hplace r hr, hclear]

/-- The amplitudes after the groups whose base is below `b`. -/
theorem getElem?_fold_applyGroup (m : Unitary A) {cs : List Control} {ts : List QubitId}
    (hcs : (cs.map Control.qubit).Nodup) (hts : ts.Nodup)
    (hdisjoint : (cs.map Control.qubit).Disjoint ts) (v : StateVector A)
    (hlt : ∀ t ∈ ts, t < v.qubits) (b : Nat) {i : Nat} (hi : i < dimension v.qubits) :
    ((Nat.fold b (fun base _ w =>
      if base &&& mask ts = 0 ∧ base &&& mask (cs.map Control.qubit) =
          mask ((cs.filter Control.on).map Control.qubit) then
        applyGroup m (offsets ts) base w
      else w) v.amplitudes)[i]?).getD 0 =
      if (∀ c ∈ cs, c.Holds i) ∧ writeRegister 0 ts i < b then rowSum m ts v.get i
      else v.get i := by
  induction b generalizing i with
  | zero =>
      rw [Nat.fold_zero, if_neg fun h => Nat.not_lt_zero _ h.2]
      exact (v.get_eq i).symm
  | succ b ih =>
      have hholds : writeRegister 0 ts i = b →
          ((∀ c ∈ cs, c.Holds b) ↔ ∀ c ∈ cs, c.Holds i) := by
        intro h
        rw [← h]
        exact holds_writeRegister hts hdisjoint 0 i
      rw [Nat.fold_succ]
      split
      · rename_i hcond
        obtain ⟨hbase, hcontrols⟩ := hcond
        rw [getElem?_applyGroup m hts _ hbase hi]
        split
        · rename_i h
          -- the group of `i` was not written before, so its old amplitudes are read
          have hall : ∀ c ∈ cs, c.Holds i := (hholds h).1 ((and_mask_eq_mask_iff hcs).1 hcontrols)
          rw [if_pos ⟨hall, by omega⟩, Option.getD_some]
          unfold rowSum
          refine fold_congr_of_eq rfl (fun col _ => ?_) 0
          funext sum
          dsimp only
          rw [ih (writeRegister_lt hts hlt col hi), writeRegister_writeRegister hts, if_neg]
          omega
        · rename_i h
          rw [ih hi]
          refine if_congr (and_congr_right fun _ => ?_) rfl rfl
          omega
      · rename_i hcond
        rw [ih hi]
        refine if_congr (and_congr_right fun hall => ?_) rfl rfl
        have hne : writeRegister 0 ts i ≠ b := by
          intro h
          refine hcond ⟨?_, (and_mask_eq_mask_iff hcs).2 ((hholds h).2 hall)⟩
          rw [← writeRegister_zero_eq_iff hts, ← h, writeRegister_writeRegister hts]
        omega

/-- Applying a matrix in place is multiplying by it wherever the controls hold. -/
theorem get_applyControlled (m : Unitary A) {cs : List Control} {ts : List QubitId}
    (hnodup : (cs.map Control.qubit ++ ts).Nodup) (v : StateVector A)
    (hlt : ∀ t ∈ ts, t < v.qubits) {i : Nat} (hi : i < dimension v.qubits) :
    (v.applyControlled m cs ts).get i =
      if ∀ c ∈ cs, c.Holds i then rowSum m ts v.get i else v.get i := by
  obtain ⟨hcs, hts, hdisjoint⟩ := List.nodup_append'.1 hnodup
  have hfold := getElem?_fold_applyGroup m hcs hts hdisjoint v hlt (dimension v.qubits) hi
  rw [get_eq]
  refine hfold.trans (if_congr (and_iff_left ?_) rfl rfl)
  exact writeRegister_lt hts hlt 0 hi

end StateVector

end OpenQasm
