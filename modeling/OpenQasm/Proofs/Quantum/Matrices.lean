import OpenQasm.Quantum.Unitary
import Mathlib.LinearAlgebra.Matrix.NonsingularInverse

/-!
# Matrices on qubits as matrices

Over a commutative ring the matrices that gates are made of multiply as matrices do.
Repeated squaring therefore gives powers, and a matrix that is undone by its adjoint
on one side is undone by it on the other.
-/
namespace OpenQasm.Unitary

section Cells

variable {A : Type} [Zero A]

theorem get_ofFn {k : Nat} (f : Nat → Nat → A) {r c : Nat} (hr : r < dimension k)
    (hc : c < dimension k) : (ofFn k f).get r c = f r c := by
  have hindex : r * dimension k + c < dimension k * dimension k := by
    calc r * dimension k + c < r * dimension k + dimension k := Nat.add_lt_add_left hc _
      _ = (r + 1) * dimension k := (Nat.succ_mul _ _).symm
      _ ≤ dimension k * dimension k := Nat.mul_le_mul_right _ hr
  have hdiv : (r * dimension k + c) / dimension k = r := by
    rw [Nat.mul_comm, Nat.mul_add_div (by omega), Nat.div_eq_of_lt hc, Nat.add_zero]
  have hmod : (r * dimension k + c) % dimension k = c := by
    rw [Nat.mul_comm, Nat.mul_add_mod, Nat.mod_eq_of_lt hc]
  have hcell := Vector.getElem_ofFn hindex (f := fun i => f (i / dimension k) (i % dimension k))
  unfold get
  rw [Vector.getElem?_toArray]
  change ((Vector.ofFn fun i : Fin (dimension k * dimension k) =>
    f (i / dimension k) (i % dimension k))[r * dimension k + c]?).getD 0 = f r c
  rw [Vector.getElem?_eq_getElem hindex, hcell, Option.getD_some]
  dsimp only
  rw [hdiv, hmod]

theorem ext_get {u v : Unitary A} (hqubits : u.qubits = v.qubits)
    (h : ∀ r < u.dim, ∀ c < u.dim, u.get r c = v.get r c) : u = v := by
  obtain ⟨k, x⟩ := u
  obtain ⟨l, y⟩ := v
  subst hqubits
  congr 1
  refine Vector.ext fun i hi => ?_
  have hpos : 0 < dimension k := Nat.two_pow_pos k
  have hget := h (i / dimension k) (Nat.div_lt_of_lt_mul hi) (i % dimension k) (Nat.mod_lt i hpos)
  have hindex : i / dimension k * dimension k + i % dimension k = i := by
    rw [Nat.mul_comm]
    exact Nat.div_add_mod i (dimension k)
  unfold get dim at hget
  simp only [hindex, Vector.getElem?_toArray, Vector.getElem?_eq_getElem hi, Option.getD_some]
    at hget
  exact hget

variable [One A] [Add A] [Mul A] [Conj A]

/-- The matrix of a gate with an exponent. The exponent one is left out. -/
def raised (u : Unitary A) (e : Int) : Unitary A := if e = 1 then u else u.pow e

end Cells

variable {A : Type} [CommRing A]

def toMatrix (k : Nat) (u : Unitary A) : Matrix (Fin (dimension k)) (Fin (dimension k)) A :=
  Matrix.of fun r c => u.get r c

theorem toMatrix_identity (k : Nat) : (identity k : Unitary A).toMatrix k = 1 := by
  ext r c
  rw [toMatrix, Matrix.of_apply, identity, get_ofFn _ r.isLt c.isLt, Matrix.one_apply]
  refine if_congr ?_ rfl rfl
  exact Fin.ext_iff.symm

theorem foldl_range_eq_sum (f : Nat → A) (n : Nat) :
    (List.range n).foldl (fun sum k => sum + f k) 0 = ∑ k : Fin n, f k := by
  induction n with
  | zero => simp
  | succ n ih => simp [List.range_succ, ih, Fin.sum_univ_castSucc]

theorem get_mul (u v : Unitary A) {r c : Nat} (hr : r < u.dim) (hc : c < u.dim) :
    (u.mul v).get r c = ∑ k : Fin u.dim, u.get r k * v.get k c := by
  rw [mul, get_ofFn _ hr hc, foldl_range_eq_sum]

theorem toMatrix_mul {k : Nat} {u v : Unitary A} (hu : u.qubits = k) :
    (u.mul v).toMatrix k = u.toMatrix k * v.toMatrix k := by
  subst hu
  ext r c
  exact get_mul u v r.isLt c.isLt

theorem qubits_powInto (result base : Unitary A) (n : Nat) :
    (powInto result base n).qubits = result.qubits := by
  induction n using Nat.strong_induction_on generalizing result base with
  | _ n ih =>
      rw [powInto]
      split
      · rfl
      · rw [ih (n / 2) (by omega)]
        split
        · rfl
        · rfl

theorem toMatrix_powInto {k : Nat} {result base : Unitary A} (hresult : result.qubits = k)
    (hbase : base.qubits = k) (n : Nat) :
    (powInto result base n).toMatrix k = result.toMatrix k * base.toMatrix k ^ n := by
  induction n using Nat.strong_induction_on generalizing result base with
  | _ n ih =>
      rw [powInto]
      split
      · rename_i hn
        rw [hn, pow_zero, mul_one]
      · rename_i hn
        have hsquare : (base.mul base).toMatrix k ^ (n / 2) = base.toMatrix k ^ (2 * (n / 2)) := by
          rw [toMatrix_mul hbase, pow_mul, pow_two]
        have hhalf := Nat.div_add_mod n 2
        split
        · rename_i hodd
          have hstep := @ih (n / 2) (by omega) (result.mul base) (base.mul base) hresult hbase
          rw [hstep, hsquare, toMatrix_mul hresult, mul_assoc, ← pow_succ', ← hodd, hhalf]
        · rename_i heven
          have hstep := @ih (n / 2) (by omega) result (base.mul base) hresult hbase
          rw [hstep, hsquare]
          congr 2
          omega

variable [Conj A]

theorem toMatrix_adjoint {k : Nat} {u : Unitary A} (hu : u.qubits = k)
    (r c : Fin (dimension k)) : u.adjoint.toMatrix k r c = conj (u.toMatrix k c r) := by
  subst hu
  exact get_ofFn _ r.isLt c.isLt

theorem toMatrix_pow {k : Nat} {u : Unitary A} (hu : u.qubits = k) (e : Int) :
    (u.pow e).toMatrix k = (if e < 0 then u.adjoint else u).toMatrix k ^ e.natAbs := by
  have hone : (identity u.qubits : Unitary A).qubits = k := hu
  have hbase : (if e < 0 then u.adjoint else u).qubits = k := by
    split
    · exact hu
    · exact hu
  rw [pow, toMatrix_powInto hone hbase, hu, toMatrix_identity, one_mul]

theorem qubits_pow (u : Unitary A) (e : Int) : (u.pow e).qubits = u.qubits := by
  rw [pow, qubits_powInto]
  rfl

theorem qubits_raised (u : Unitary A) (e : Int) : (u.raised e).qubits = u.qubits := by
  unfold raised
  split
  · rfl
  · exact u.qubits_pow e

theorem toMatrix_raised {k : Nat} {u : Unitary A} (hu : u.qubits = k) (e : Int) :
    (u.raised e).toMatrix k = (if e < 0 then u.adjoint else u).toMatrix k ^ e.natAbs := by
  unfold raised
  split
  · rename_i he
    subst he
    exact (pow_one _).symm
  · exact toMatrix_pow hu e

/-- Repeating a gate or its inverse gives its powers. -/
theorem toMatrix_raised_sign {k : Nat} {u : Unitary A} (hu : u.qubits = k) {sign : Int}
    (hsign : sign = 1 ∨ sign = -1) (n : Nat) :
    (u.raised (sign * n)).toMatrix k = (u.raised sign).toMatrix k ^ n := by
  rw [toMatrix_raised hu, toMatrix_raised hu]
  rcases hsign with rfl | rfl
  · have hn : ¬(1 * (n : Int) < 0) := by omega
    have habs : (1 * (n : Int)).natAbs = n := by omega
    rw [if_neg hn, habs]
    exact congrArg (· ^ n) (pow_one _).symm
  · by_cases hzero : n = 0
    · subst hzero
      rfl
    · have hn : -1 * (n : Int) < 0 := by omega
      have habs : (-1 * (n : Int)).natAbs = n := by omega
      rw [if_pos hn, habs]
      exact congrArg (· ^ n) (pow_one _).symm

/-- A matrix that its adjoint undoes, exactly. -/
def Exact (u : Unitary A) : Prop := u.mul u.adjoint = identity u.qubits

theorem Exact.mul_adjoint {u : Unitary A} (h : u.Exact) {k : Nat} (hu : u.qubits = k) :
    u.toMatrix k * u.adjoint.toMatrix k = 1 := by
  rw [← toMatrix_mul hu, h, hu, toMatrix_identity]

theorem Exact.adjoint_mul {u : Unitary A} (h : u.Exact) {k : Nat} (hu : u.qubits = k) :
    u.adjoint.toMatrix k * u.toMatrix k = 1 :=
  mul_eq_one_comm.1 (h.mul_adjoint hu)

/-- Opposite exponents undo each other. -/
theorem Exact.raised_neg_mul_raised {u : Unitary A} (h : u.Exact) {k : Nat} (hu : u.qubits = k)
    (e : Int) : (u.raised (-e)).toMatrix k * (u.raised e).toMatrix k = 1 := by
  rw [toMatrix_raised hu, toMatrix_raised hu, Int.natAbs_neg]
  rcases lt_trichotomy e 0 with he | rfl | he
  · rw [if_neg (by omega), if_pos he, pow_mul_pow_eq_one _ (h.mul_adjoint hu)]
  · rw [Int.natAbs_zero, pow_zero, pow_zero, mul_one]
  · rw [if_pos (by omega), if_neg (by omega), pow_mul_pow_eq_one _ (h.adjoint_mul hu)]

end OpenQasm.Unitary
