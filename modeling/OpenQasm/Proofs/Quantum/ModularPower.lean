import OpenQasm.Proofs.Quantum.Registers
import OpenQasm.Quantum.ModularPower
import Mathlib.Data.Nat.ModEq

/-!
# Modular powers move basis states

Repeated squaring gives powers modulo `n`, and a power of an invertible number is
invertible. So the map behind modular exponentiation sends different basis states to
different ones: the exponent is left as it is, and a target value below `n` is multiplied
by the same invertible number wherever the exponent is the same.
-/
namespace OpenQasm.ModularPower

open StateVector

theorem divisor_eq_gcd (a b : Nat) : divisor a b = Nat.gcd a b := by
  fun_induction divisor a b with
  | case1 a => exact (Nat.gcd_zero_right a).symm
  | case2 a b hb ih => rw [ih, Nat.gcd_comm b, ← Nat.gcd_rec, Nat.gcd_comm]

theorem powInto_modEq (n result base e : Nat) :
    powInto n result base e ≡ result * base ^ e [MOD n] := by
  fun_induction powInto n result base e with
  | case1 result base => simp [Nat.ModEq.refl]
  | case2 result base e he ih =>
      have hsquare : (base * base % n) ^ (e / 2) ≡ base ^ (2 * (e / 2)) [MOD n] := by
        rw [pow_mul, pow_two]
        exact (Nat.mod_modEq _ _).pow _
      have hhalf := Nat.div_add_mod e 2
      have hfactor : (if e % 2 = 1 then result * base % n else result) ≡
          result * base ^ (e % 2) [MOD n] := by
        split
        · rename_i hodd
          rw [hodd, pow_one]
          exact Nat.mod_modEq _ _
        · rename_i heven
          have hzero : e % 2 = 0 := by omega
          rw [hzero, pow_zero, mul_one]
      refine ih.trans ((hfactor.mul hsquare).trans ?_)
      rw [mul_assoc, ← pow_add, Nat.add_comm, hhalf]

theorem powMod_modEq (a e n : Nat) : powMod a e n ≡ a ^ e [MOD n] := by
  refine (powInto_modEq n (1 % n) (a % n) e).trans ?_
  have hproduct := (Nat.mod_modEq 1 n).mul ((Nat.mod_modEq a n).pow e)
  rwa [one_mul] at hproduct

/-- A power of an invertible number can be cancelled. -/
theorem cancel_powMod {a n : Nat} (h : Nat.gcd a n = 1) (e : Nat) {y y' : Nat} (hy : y < n)
    (hy' : y' < n) (heq : powMod a e n * y % n = powMod a e n * y' % n) : y = y' := by
  have hpow : Nat.gcd n (powMod a e n) = 1 := by
    rw [Nat.gcd_comm, (powMod_modEq a e n).gcd_eq]
    exact Nat.Coprime.pow_left e h
  have hmod : y ≡ y' [MOD n] := Nat.ModEq.cancel_left_of_coprime hpow heq
  exact hmod.eq_of_lt_of_lt hy hy'

/-- What the checks of a modular power ask for, if the modulus is a number of 64 bits. -/
theorem of_check_ok {a n width : Nat} (h : check a n width = .ok ()) (hn : n < 2 ^ 64) :
    0 < n ∧ n ≤ dimension width ∧ Nat.gcd a n = 1 := by
  unfold check at h
  split at h
  · cases h
  · rename_i hzero
    split at h
    · cases h
    · rename_i hwidth
      split at h
      · cases h
      · rename_i hdivisor
        rw [divisor_eq_gcd, not_not] at hdivisor
        refine ⟨Nat.pos_of_ne_zero hzero, ?_, hdivisor⟩
        by_cases hnarrow : width < 64
        · exact Nat.not_lt.1 fun hlt => hwidth ⟨hnarrow, hlt⟩
        · exact hn.le.trans (Nat.pow_le_pow_right Nat.two_pos (Nat.not_lt.1 hnarrow))

/-- What becomes of a target value. -/
def multiplied (a n x y : Nat) : Nat := if n ≤ y then y else powMod a x n * y % n

theorem multiplied_lt {n bound : Nat} (hpos : 0 < n) (hn : n ≤ bound) (a x : Nat) {y : Nat}
    (hy : y < bound) : multiplied a n x y < bound := by
  unfold multiplied
  split
  · exact hy
  · exact (Nat.mod_lt _ hpos).trans_le hn

/-- Values below the modulus stay below it, and are told apart by cancelling the power. -/
theorem multiplied_injective {a n : Nat} (hpos : 0 < n) (h : Nat.gcd a n = 1) {x y y' : Nat}
    (heq : multiplied a n x y = multiplied a n x y') : y = y' := by
  unfold multiplied at heq
  have hlt : ∀ z, powMod a x n * z % n < n := fun z => Nat.mod_lt _ hpos
  split at heq
  · rename_i hy
    split at heq
    · exact heq
    · exact absurd (heq ▸ hlt y') (Nat.not_lt.2 hy)
  · rename_i hy
    split at heq
    · rename_i hy'
      exact absurd (heq ▸ hlt y) (Nat.not_lt.2 hy')
    · rename_i hy'
      exact cancel_powMod h x (Nat.not_le.1 hy) (Nat.not_le.1 hy') heq

section Basis

variable {a n : Nat} {control target : List QubitId}

theorem basisMap_eq (htarget : target.Nodup) (i : Nat) :
    basisMap a n control target i =
      writeRegister (multiplied a n (readRegister control i) (readRegister target i)) target i := by
  unfold basisMap multiplied
  dsimp only
  split
  · exact (writeRegister_readRegister htarget i).symm
  · rfl

theorem basisMap_lt (htarget : target.Nodup) {qubits : Nat} (hlt : ∀ t ∈ target, t < qubits) {i : Nat}
    (hi : i < dimension qubits) : basisMap a n control target i < dimension qubits := by
  rw [basisMap_eq htarget]
  exact writeRegister_lt htarget hlt _ hi

/-- Different basis states go to different places. -/
theorem basisMap_injective (hqubits : (control ++ target).Nodup) (hpos : 0 < n)
    (hn : n ≤ dimension target.length) (hgcd : Nat.gcd a n = 1) {i j : Nat}
    (h : basisMap a n control target i = basisMap a n control target j) : i = j := by
  obtain ⟨-, htarget, hdisjoint⟩ := List.nodup_append'.1 hqubits
  have hcontrol : ∀ k, readRegister control (basisMap a n control target k) =
      readRegister control k := by
    intro k
    rw [basisMap_eq htarget]
    exact readRegister_writeRegister_of_disjoint htarget hdisjoint _ k
  have hvalue : ∀ k, readRegister target (basisMap a n control target k) =
      multiplied a n (readRegister control k) (readRegister target k) := by
    intro k
    rw [basisMap_eq htarget]
    exact readRegister_writeRegister htarget
      (multiplied_lt hpos hn _ _ (readRegister_lt target k)) k
  have hback : ∀ k, writeRegister (readRegister target k) target
      (basisMap a n control target k) = k := by
    intro k
    rw [basisMap_eq htarget, writeRegister_writeRegister htarget, writeRegister_readRegister htarget]
  have hx : readRegister control i = readRegister control j := by
    rw [← hcontrol i, h, hcontrol j]
  have hy : readRegister target i = readRegister target j := by
    refine multiplied_injective hpos hgcd (x := readRegister control i) ?_
    rw [← hvalue i, h, hvalue j, hx]
  rw [← hback i, h, hy, hback j]

end Basis

end OpenQasm.ModularPower
