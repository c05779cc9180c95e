import Mathlib.Data.List.Induction
import Mathlib.Data.Nat.Digits.Defs
import OpenQasm.Proofs.DeclaredTypes

/-!
# Bits and integers

A register of `len` bits takes the integers from zero to below `2 ^ len`, and the bits that it
gets for one of them spell it with the most significant bit first. Up to 63 bits are read as a
number again, and each way undoes the other. Whether an integer fits is checked up to 62 bits
only, as no integer is too large for more.
-/
namespace OpenQasm

/-- The number that bits spell in base two, the most significant digit first. -/
def bigEndian (bits : List Bool) : Nat := Nat.ofDigits 2 (bits.reverse.map Bool.toNat)

theorem bitsValue_append_singleton (bits : List Bool) (b : Bool) :
    bitsValue (bits ++ [b]) = 2 * bitsValue bits + b.toNat := by
  simp [bitsValue]

/-- Bits are read as the number that they spell. -/
theorem bitsValue_eq_bigEndian (bits : List Bool) : bitsValue bits = bigEndian bits := by
  induction bits using List.reverseRecOn with
  | nil => rfl
  | append_singleton bits b ih =>
      rw [bitsValue_append_singleton, ih]
      simp [bigEndian, Nat.ofDigits_cons, Nat.add_comm]

/-! The lowest bits of a number -/

@[simp] theorem length_bitsOf (len n : Nat) : (bitsOf len n).length = len := by
  simp [bitsOf]

theorem bitsOf_succ (len n : Nat) : bitsOf (len + 1) n = bitsOf len (n / 2) ++ [n.testBit 0] := by
  have hhigh : ∀ i ∈ List.range len, n.testBit (len - i) = (n / 2).testBit (len - 1 - i) := by
    intro i hi
    rw [← Nat.testBit_succ]
    congr 1
    have := List.mem_range.1 hi
    omega
  simp only [bitsOf, List.range_succ, List.map_append, List.map_cons, List.map_nil,
    Nat.add_sub_cancel, Nat.sub_self, List.map_congr_left hhigh]

/-- A number that is small enough is read back from its lowest bits. -/
theorem bitsValue_bitsOf {len n : Nat} (h : n < 2 ^ len) : bitsValue (bitsOf len n) = n := by
  induction len generalizing n with
  | zero =>
      rw [Nat.lt_one_iff.1 h]
      rfl
  | succ len ih =>
      have hhalf : n / 2 < 2 ^ len := by
        rw [Nat.pow_succ] at h
        omega
      rw [bitsOf_succ, bitsValue_append_singleton, ih hhalf, Nat.testBit_zero]
      have : (decide (n % 2 = 1)).toNat = n % 2 := by
        rcases Nat.mod_two_eq_zero_or_one n with h | h <;> simp [h]
      omega

/-- Bits are the lowest bits of the number that they are read as. -/
theorem bitsOf_bitsValue (bits : List Bool) : bitsOf bits.length (bitsValue bits) = bits := by
  induction bits using List.reverseRecOn with
  | nil => rfl
  | append_singleton bits b ih =>
      have hhalf : (2 * bitsValue bits + b.toNat) / 2 = bitsValue bits := by
        have := b.toNat_le
        omega
      have hlow : (2 * bitsValue bits + b.toNat).testBit 0 = b := by
        cases b <;> simp [Nat.testBit_zero]
      rw [List.length_append, List.length_singleton, bitsOf_succ, bitsValue_append_singleton,
        hhalf, hlow, ih]

/-! Conversions of values -/

/-- A conversion that is made on a condition. -/
theorem ite_ok_iff {ε α : Type} {p : Prop} [Decidable p] {e : ε} {a b : α} :
    (if p then Except.ok a else Except.error e) = Except.ok b ↔ p ∧ a = b := by
  by_cases h : p
  · rw [if_pos h, Except.ok.injEq, and_iff_right h]
  · rw [if_neg h]
    exact ⟨fun hok => (by cases hok), fun hok => absurd hok.1 h⟩

namespace Value

variable {R : Type}

/-- The check of the width refuses just the integers that are out of range. From 63 bits on
there is nothing to check. -/
theorem fits_iff (len : Nat) (v : Int64) :
    ¬(v.toInt < 0 ∨ len < 63 ∧ Nat.pow 2 len ≤ v.toInt.toNat) ↔
      0 ≤ v.toInt ∧ v.toInt < 2 ^ len := by
  have hcast : ((Nat.pow 2 len : Nat) : Int) = 2 ^ len := Nat.cast_pow 2 len
  rcases Nat.lt_or_ge len 63 with hlen | hlen
  · omega
  · have hpow : (2 : Int) ^ 63 ≤ 2 ^ len := pow_le_pow_right₀ (by decide) hlen
    have hmax : v.toInt < 2 ^ 63 := v.toInt_lt
    omega

theorem toBits_int_ok_iff {len : Nat} {v : Int64} {bs : List Bool} :
    (Value.const (.int v) : Value R).toBits len = .ok bs ↔
      (0 ≤ v.toInt ∧ v.toInt < 2 ^ len) ∧ bitsOf len v.toInt.toNat = bs := by
  rw [toBits, ← ite_not, ite_ok_iff, fits_iff]

theorem toBits_bits_ok_iff {len : Nat} {bs stored : List Bool} :
    (Value.bits bs : Value R).toBits len = .ok stored ↔ bs.length = len ∧ bs = stored := by
  change (if bs.length = len then Except.ok bs else _) = _ ↔ _
  rw [ite_ok_iff]

theorem toConst_bits_ok_iff {bs : List Bool} {c : Const R} :
    (Value.bits bs).toConst = .ok c ↔
      bs.length ≤ 63 ∧ .int (Int64.ofNat (bitsValue bs)) = c := by
  rw [toConst, ite_ok_iff]

end Value

/-- Integers and bits are converted into each other without loss. An integer is written into
exactly the widths that it fits, bits are read as a number exactly up to 63 of them, and one
undoes the other. -/
theorem bits_and_integers_convert {R : Type} (len : Nat) :
    (∀ v : Int64,
      ((∃ bs, (Value.const (.int v) : Value R).toBits len = .ok bs) ↔
        0 ≤ v.toInt ∧ v.toInt < 2 ^ len) ∧
      ∀ bs, (Value.const (.int v) : Value R).toBits len = .ok bs →
        bs.length = len ∧ (bigEndian bs : Int) = v.toInt ∧
        (len ≤ 63 → (Value.bits bs : Value R).toConst = .ok (.int v))) ∧
    ∀ bs : List Bool, bs.length = len →
      ((∃ c, (Value.bits bs : Value R).toConst = .ok c) ↔ len ≤ 63) ∧
      ∀ c, (Value.bits bs : Value R).toConst = .ok c →
        ∃ v : Int64, c = .int v ∧ v.toInt = bigEndian bs ∧
          (Value.const (.int v) : Value R).toBits len = .ok bs := by
  constructor
  · intro v
    refine ⟨?_, fun bs h => ?_⟩
    · simp [Value.toBits_int_ok_iff]
    · obtain ⟨⟨hpos, hlt⟩, rfl⟩ := Value.toBits_int_ok_iff.1 h
      have hvalue : bitsValue (bitsOf len v.toInt.toNat) = v.toInt.toNat := by
        apply bitsValue_bitsOf
        rw [Int.toNat_lt hpos]
        exact_mod_cast hlt
      refine ⟨length_bitsOf .., ?_, fun hlen => ?_⟩
      · rw [← bitsValue_eq_bigEndian, hvalue, Int.toNat_of_nonneg hpos]
      · rw [Value.toConst_bits_ok_iff, length_bitsOf, hvalue]
        refine ⟨hlen, congrArg Const.int (Int64.toInt_inj.1 ?_)⟩
        have hmax : v.toInt < 2 ^ 63 := v.toInt_lt
        rw [toInt_ofNat ((Int.toNat_lt hpos).2 hmax), Int.toNat_of_nonneg hpos]
  · rintro bs rfl
    refine ⟨?_, fun c h => ?_⟩
    · simp [Value.toConst_bits_ok_iff]
    · obtain ⟨hlen, rfl⟩ := Value.toConst_bits_ok_iff.1 h
      have hlt := bitsValue_lt bs
      have hint : (Int64.ofNat (bitsValue bs)).toInt = bitsValue bs :=
        toInt_ofNat (Nat.lt_of_lt_of_le hlt (Nat.pow_le_pow_right Nat.two_pos hlen))
      refine ⟨_, rfl, hint.trans (congrArg _ (bitsValue_eq_bigEndian bs)), ?_⟩
      rw [Value.toBits_int_ok_iff, hint]
      refine ⟨⟨Int.natCast_nonneg _, by exact_mod_cast hlt⟩, ?_⟩
      rw [Int.toNat_natCast, bitsOf_bitsValue]

theorem bits_and_integers_convert_widest :
    (∃ bs, (Value.const (.int Int64.maxValue) : Value Float).toBits 63 = .ok bs ∧
      (Value.bits bs : Value Float).toConst = .ok (.int Int64.maxValue)) ∧
    ¬∃ c, (Value.bits (List.replicate 64 false) : Value Float).toConst = .ok c := by
  constructor
  · obtain ⟨hfits, hback⟩ := (bits_and_integers_convert (R := Float) 63).1 Int64.maxValue
    obtain ⟨bs, hbs⟩ := hfits.2 (by decide)
    exact ⟨bs, hbs, (hback bs hbs).2.2 (Nat.le_refl 63)⟩
  · intro h
    have hshort := ((bits_and_integers_convert (R := Float) 64).2 _ List.length_replicate).1.1 h
    exact absurd hshort (by decide)

end OpenQasm
