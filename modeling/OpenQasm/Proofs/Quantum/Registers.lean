import OpenQasm.Quantum.StateVector
import Mathlib.Algebra.Group.Nat.Even
import Mathlib.Data.List.Nodup
import Mathlib.Data.Nat.Bitwise
import Mathlib.Tactic.Ring

/-!
# Registers inside an index

The bits of an index at a list of qubits form a number, the first qubit being the
most significant bit. Everything here is proved one bit at a time: `slot` says which
bit of the number a qubit of the register holds. Reading after writing gives the
number back, and writing what was read changes nothing. Registers without a common
qubit do not disturb each other.
-/
namespace OpenQasm.StateVector

theorem testBit_bitAt (q j : Nat) : (bitAt q).testBit j = decide (j = q) := by
  have h : (2 ^ q).testBit j = decide (q = j) := Nat.testBit_two_pow
  rw [show bitAt q = 2 ^ q from rfl, h]
  exact decide_eq_decide.2 eq_comm

theorem testBit_mask (qs : List QubitId) (j : Nat) : (mask qs).testBit j = decide (j ∈ qs) := by
  induction qs with
  | nil => simp [mask]
  | cons q qs ih => simp [mask, Nat.testBit_or, testBit_bitAt, ih]

/-- The bit of a register's number that a qubit of the register holds. -/
def slot (qs : List QubitId) (j : QubitId) : Nat := qs.length - 1 - qs.idxOf j

theorem slot_cons_self (q : QubitId) (qs : List QubitId) : slot (q :: qs) q = qs.length := by
  simp [slot]

theorem slot_cons_of_ne {q j : QubitId} (h : j ≠ q) (qs : List QubitId) :
    slot (q :: qs) j = slot qs j := by
  unfold slot
  rw [List.idxOf_cons_ne _ (Ne.symm h), List.length_cons]
  omega

theorem slot_lt {qs : List QubitId} {j : QubitId} (h : j ∈ qs) : slot qs j < qs.length := by
  have hpos : 0 < qs.length := List.length_pos_of_mem h
  unfold slot
  omega

/-- Every bit of the number is held by a qubit. -/
theorem exists_slot {qs : List QubitId} (hqs : qs.Nodup) {p : Nat} (hp : p < qs.length) :
    ∃ j ∈ qs, slot qs j = p := by
  have hlt : qs.length - 1 - p < qs.length := by omega
  refine ⟨qs.get ⟨qs.length - 1 - p, hlt⟩, List.get_mem _ _, ?_⟩
  have hidx : qs.idxOf (qs.get ⟨qs.length - 1 - p, hlt⟩) = qs.length - 1 - p :=
    List.Nodup.idxOf_getElem hqs _ hlt
  unfold slot
  omega

theorem testBit_spread {qs : List QubitId} (hqs : qs.Nodup) (m j : Nat) :
    (spread qs m).testBit j = (decide (j ∈ qs) && m.testBit (slot qs j)) := by
  induction qs with
  | nil => simp [spread]
  | cons q qs ih =>
      obtain ⟨hq, hqs⟩ := List.nodup_cons.1 hqs
      have hhead : (if m.testBit qs.length then bitAt q else 0).testBit j =
          (decide (j = q) && m.testBit qs.length) := by
        split
        · rename_i h
          rw [testBit_bitAt, h, Bool.and_true]
        · rename_i h
          rw [Nat.zero_testBit, Bool.eq_false_iff.2 h, Bool.and_false]
      rw [spread, Nat.testBit_or, hhead, ih hqs]
      by_cases hj : j = q
      · subst hj
        simp [hq, slot_cons_self]
      · simp [hj, slot_cons_of_ne hj]

theorem testBit_writeBit (q : QubitId) (b : Bool) (i j : Nat) :
    (writeBit q b i).testBit j = if j = q then b else i.testBit j := by
  unfold writeBit
  split
  · rename_i h
    split
    · rename_i hj
      rw [hj, h]
    · rfl
  · rename_i h
    rw [Nat.testBit_xor, testBit_bitAt]
    split
    · rename_i hj
      subst hj
      cases b <;> simp_all
    · rename_i hj
      simp [hj]

theorem testBit_writeRegister {qs : List QubitId} (hqs : qs.Nodup) (v i j : Nat) :
    (writeRegister v qs i).testBit j = if j ∈ qs then v.testBit (slot qs j) else i.testBit j := by
  induction qs generalizing i with
  | nil => simp [writeRegister]
  | cons q qs ih =>
      obtain ⟨hq, hqs⟩ := List.nodup_cons.1 hqs
      rw [writeRegister, ih hqs, testBit_writeBit]
      by_cases hj : j = q
      · subst hj
        simp [hq, slot_cons_self]
      · simp [hj, slot_cons_of_ne hj]

theorem readRegister_cons (q : QubitId) (qs : List QubitId) (i : Nat) :
    readRegister (q :: qs) i = 2 ^ qs.length * (i.testBit q).toNat + readRegister qs i := by
  have hfold : ∀ (rs : List QubitId) (acc : Nat),
      rs.foldl (fun acc q => 2 * acc + (i.testBit q).toNat) acc =
        2 ^ rs.length * acc + rs.foldl (fun acc q => 2 * acc + (i.testBit q).toNat) 0 := by
    intro rs
    induction rs with
    | nil => simp
    | cons r rs ih =>
        intro acc
        rw [List.foldl_cons, List.foldl_cons, ih, ih (2 * 0 + _), List.length_cons, pow_succ]
        ring
  unfold readRegister
  rw [List.foldl_cons, hfold]
  simp

theorem readRegister_lt (qs : List QubitId) (i : Nat) : readRegister qs i < dimension qs.length := by
  induction qs with
  | nil => exact Nat.zero_lt_one
  | cons q qs ih =>
      have hbit : (i.testBit q).toNat ≤ 1 := Bool.toNat_le _
      have hle : 2 ^ qs.length * (i.testBit q).toNat ≤ 2 ^ qs.length * 1 :=
        Nat.mul_le_mul_left _ hbit
      rw [readRegister_cons]
      change _ < 2 ^ qs.length at ih
      change _ < 2 ^ (qs.length + 1)
      rw [pow_succ]
      omega

theorem testBit_readRegister {qs : List QubitId} {j : QubitId} (hj : j ∈ qs) (i : Nat) :
    (readRegister qs i).testBit (slot qs j) = i.testBit j := by
  induction qs with
  | nil => cases hj
  | cons q qs ih =>
      have hlt : readRegister qs i < 2 ^ qs.length := readRegister_lt qs i
      rw [readRegister_cons, Nat.testBit_two_pow_mul_add _ hlt]
      by_cases hq : j = q
      · subst hq
        rw [slot_cons_self, if_neg (Nat.lt_irrefl _), Nat.sub_self]
        cases i.testBit j <;> rfl
      · have hmem : j ∈ qs := (List.mem_cons.1 hj).resolve_left hq
        rw [slot_cons_of_ne hq, if_pos (slot_lt hmem), ih hmem]

theorem writeRegister_readRegister {qs : List QubitId} (hqs : qs.Nodup) (i : Nat) :
    writeRegister (readRegister qs i) qs i = i := by
  refine Nat.eq_of_testBit_eq fun j => ?_
  rw [testBit_writeRegister hqs]
  split
  · rename_i hj
    exact testBit_readRegister hj i
  · rfl

theorem readRegister_writeRegister {qs : List QubitId} (hqs : qs.Nodup) {v : Nat}
    (hv : v < dimension qs.length) (i : Nat) : readRegister qs (writeRegister v qs i) = v := by
  refine Nat.eq_of_testBit_eq fun p => ?_
  by_cases hp : p < qs.length
  · obtain ⟨j, hj, rfl⟩ := exists_slot hqs hp
    rw [testBit_readRegister hj, testBit_writeRegister hqs, if_pos hj]
  · have hpow : 2 ^ qs.length ≤ 2 ^ p := Nat.pow_le_pow_right Nat.two_pos (Nat.le_of_not_lt hp)
    have hread : readRegister qs (writeRegister v qs i) < 2 ^ qs.length := readRegister_lt qs _
    rw [Nat.testBit_lt_two_pow (Nat.lt_of_lt_of_le hread hpow),
      Nat.testBit_lt_two_pow (Nat.lt_of_lt_of_le hv hpow)]

theorem writeRegister_writeRegister {qs : List QubitId} (hqs : qs.Nodup) (v w i : Nat) :
    writeRegister v qs (writeRegister w qs i) = writeRegister v qs i := by
  refine Nat.eq_of_testBit_eq fun j => ?_
  simp only [testBit_writeRegister hqs]
  split
  · rfl
  · rfl

theorem writeRegister_comm {qs rs : List QubitId} (hqs : qs.Nodup) (hrs : rs.Nodup)
    (h : qs.Disjoint rs) (v w i : Nat) :
    writeRegister v qs (writeRegister w rs i) = writeRegister w rs (writeRegister v qs i) := by
  refine Nat.eq_of_testBit_eq fun j => ?_
  simp only [testBit_writeRegister hqs, testBit_writeRegister hrs]
  by_cases hj : j ∈ qs
  · have hnot : j ∉ rs := fun hr => h hj hr
    rw [if_pos hj, if_neg hnot, if_pos hj]
  · rw [if_neg hj, if_neg hj]

theorem readRegister_congr {qs : List QubitId} {i i' : Nat}
    (h : ∀ q ∈ qs, i.testBit q = i'.testBit q) : readRegister qs i = readRegister qs i' := by
  induction qs with
  | nil => rfl
  | cons q qs ih =>
      obtain ⟨hq, hqs⟩ := List.forall_mem_cons.1 h
      rw [readRegister_cons, readRegister_cons, hq, ih hqs]

theorem readRegister_writeRegister_of_disjoint {qs rs : List QubitId} (hrs : rs.Nodup)
    (h : qs.Disjoint rs) (v i : Nat) :
    readRegister qs (writeRegister v rs i) = readRegister qs i := by
  refine readRegister_congr fun q hq => ?_
  rw [testBit_writeRegister hrs, if_neg fun hr => h hq hr]

theorem writeRegister_lt {qs : List QubitId} (hqs : qs.Nodup) {n : Nat} (hlt : ∀ q ∈ qs, q < n)
    (v : Nat) {i : Nat} (hi : i < dimension n) : writeRegister v qs i < dimension n := by
  refine Nat.lt_pow_two_of_testBit _ fun j hj => ?_
  have hnot : j ∉ qs := fun hmem => Nat.not_lt.2 hj (hlt j hmem)
  have hpow : 2 ^ n ≤ 2 ^ j := Nat.pow_le_pow_right Nat.two_pos hj
  rw [testBit_writeRegister hqs, if_neg hnot]
  exact Nat.testBit_lt_two_pow (Nat.lt_of_lt_of_le hi hpow)

/-! Members of a group of indices -/

/-- The indices in which the bits at `qs` are zero. -/
theorem and_mask_eq_zero_iff {qs : List QubitId} {i : Nat} :
    i &&& mask qs = 0 ↔ ∀ q ∈ qs, i.testBit q = false := by
  constructor
  · intro h q hq
    have hbit := congrArg (Nat.testBit · q) h
    simpa [Nat.testBit_and, testBit_mask, hq] using hbit
  · intro h
    refine Nat.eq_of_testBit_eq fun j => ?_
    rw [Nat.testBit_and, testBit_mask, Nat.zero_testBit]
    by_cases hj : j ∈ qs
    · rw [h j hj, Bool.false_and]
    · rw [decide_eq_false hj, Bool.and_false]

theorem or_spread {qs : List QubitId} (hqs : qs.Nodup) {base : Nat} (hbase : base &&& mask qs = 0)
    (m : Nat) : base ||| spread qs m = writeRegister m qs base := by
  refine Nat.eq_of_testBit_eq fun j => ?_
  rw [Nat.testBit_or, testBit_spread hqs, testBit_writeRegister hqs]
  by_cases hj : j ∈ qs
  · simp [hj, and_mask_eq_zero_iff.1 hbase j hj]
  · simp [hj]

theorem writeRegister_zero_eq_iff {qs : List QubitId} (hqs : qs.Nodup) {base : Nat} :
    writeRegister 0 qs base = base ↔ base &&& mask qs = 0 := by
  rw [and_mask_eq_zero_iff]
  constructor
  · intro h q hq
    have hbit := testBit_writeRegister hqs 0 base q
    rw [h, if_pos hq, Nat.zero_testBit] at hbit
    exact hbit
  · intro h
    refine Nat.eq_of_testBit_eq fun j => ?_
    rw [testBit_writeRegister hqs]
    split
    · rename_i hj
      rw [h j hj, Nat.zero_testBit]
    · rfl

end OpenQasm.StateVector
