import OpenQasm.Proofs.Quantum.Matrices
import OpenQasm.Quantum.StandardGate
import Mathlib.Analysis.SpecialFunctions.Trigonometric.Basic
import Mathlib.Tactic.IntervalCases

/-!
# Exact amplitudes

Over reals that form a commutative ring, amplitudes form one too. Over the real numbers
themselves every standard gate is undone by the adjoint of its matrix.
-/
namespace OpenQasm

/-- Reals with the laws of a commutative ring. -/
class ExactScalar (R : Type) extends Scalar R, CommRing R

namespace Amplitude

section Components

variable {R : Type}

@[ext]
theorem ext {a b : Amplitude R} (hre : a.re = b.re) (him : a.im = b.im) : a = b := by
  cases a
  cases b
  simp_all

variable [Scalar R]

@[simp] theorem zero_re : (0 : Amplitude R).re = 0 := rfl
@[simp] theorem zero_im : (0 : Amplitude R).im = 0 := rfl
@[simp] theorem one_re : (1 : Amplitude R).re = 1 := rfl
@[simp] theorem one_im : (1 : Amplitude R).im = 0 := rfl
@[simp] theorem add_re (a b : Amplitude R) : (a + b).re = a.re + b.re := rfl
@[simp] theorem add_im (a b : Amplitude R) : (a + b).im = a.im + b.im := rfl
@[simp] theorem sub_re (a b : Amplitude R) : (a - b).re = a.re - b.re := rfl
@[simp] theorem sub_im (a b : Amplitude R) : (a - b).im = a.im - b.im := rfl
@[simp] theorem neg_re (a : Amplitude R) : (-a).re = -a.re := rfl
@[simp] theorem neg_im (a : Amplitude R) : (-a).im = -a.im := rfl
@[simp] theorem mul_re (a b : Amplitude R) : (a * b).re = a.re * b.re - a.im * b.im := rfl
@[simp] theorem mul_im (a b : Amplitude R) : (a * b).im = a.re * b.im + a.im * b.re := rfl
@[simp] theorem conj_re (a : Amplitude R) : (conj a).re = a.re := rfl
@[simp] theorem conj_im (a : Amplitude R) : (conj a).im = -a.im := rfl

end Components

variable {R : Type} [ExactScalar R]

instance : CommRing (Amplitude R) where
  add_assoc a b c := by ext <;> simp [add_assoc]
  zero_add a := by ext <;> simp
  add_zero a := by ext <;> simp
  add_comm a b := by ext <;> simp [add_comm]
  neg_add_cancel a := by ext <;> simp
  sub_eq_add_neg a b := by ext <;> simp [sub_eq_add_neg]
  mul_assoc a b c := by ext <;> simp <;> ring
  one_mul a := by ext <;> simp
  mul_one a := by ext <;> simp
  zero_mul a := by ext <;> simp
  mul_zero a := by ext <;> simp
  left_distrib a b c := by ext <;> simp <;> ring
  right_distrib a b c := by ext <;> simp <;> ring
  mul_comm a b := by ext <;> simp <;> ring
  nsmul := nsmulRec
  zsmul := zsmulRec

end Amplitude

namespace StandardGate

/-- Every standard gate is undone by the adjoint of its matrix. -/
def AllExact (R : Type) [ExactScalar R] : Prop :=
  ∀ (g : StandardGate) (angles : List R), (g.matrix angles).Exact

section Cells

variable {R : Type} [ExactScalar R] {a b c d : Amplitude R}

theorem get_cells2 {row col : Nat} (hrow : row < 2) (hcol : col < 2) :
    (cells2 a b c d).get row col =
      if row = 0 then (if col = 0 then a else b) else (if col = 0 then c else d) :=
  Unitary.get_ofFn _ hrow hcol

theorem get_mul_adjoint_cells2 {row col : Nat} (hrow : row < 2) (hcol : col < 2) :
    ((cells2 a b c d).mul (cells2 a b c d).adjoint).get row col =
      (cells2 a b c d).get row 0 * conj ((cells2 a b c d).get col 0) +
        (cells2 a b c d).get row 1 * conj ((cells2 a b c d).get col 1) := by
  have hadjoint : ∀ k < 2, (cells2 a b c d).adjoint.get k col = conj ((cells2 a b c d).get col k) :=
    fun k hk => Unitary.get_ofFn _ hk hcol
  rw [← hadjoint 0 (by omega), ← hadjoint 1 (by omega)]
  exact (Unitary.get_mul _ _ hrow hcol).trans (Fin.sum_univ_two _)

theorem exact_cells2 (hfirst : a * conj a + b * conj b = 1) (hmixed : a * conj c + b * conj d = 0)
    (hmixed' : c * conj a + d * conj b = 0) (hsecond : c * conj c + d * conj d = 1) :
    (cells2 a b c d).Exact := by
  refine Unitary.ext_get rfl fun row hrow col hcol => ?_
  change row < 2 at hrow
  change col < 2 at hcol
  have hone : (Unitary.identity 1 : Unitary (Amplitude R)).get row col = if row = col then 1 else 0 :=
    Unitary.get_ofFn _ hrow hcol
  rw [get_mul_adjoint_cells2 hrow hcol]
  refine Eq.trans ?_ hone.symm
  interval_cases row <;> interval_cases col <;> simpa [get_cells2]

theorem get_matrixSwap {row col : Nat} (hrow : row < 4) (hcol : col < 4) :
    (matrixSwap : Unitary (Amplitude R)).get row col =
      if row = (col % 2) * 2 + col / 2 then 1 else 0 :=
  Unitary.get_ofFn _ hrow hcol

/-- Exchanging two qubits undoes itself. -/
theorem adjoint_matrixSwap : (matrixSwap : Unitary (Amplitude R)).adjoint = matrixSwap := by
  have hqubits : (matrixSwap : Unitary (Amplitude R)).adjoint.qubits = 2 := rfl
  refine Unitary.ext_get hqubits fun row hrow col hcol => ?_
  change row < 4 at hrow
  change col < 4 at hcol
  rw [get_matrixSwap hrow hcol, Unitary.adjoint, Unitary.get_ofFn _ hrow hcol,
    get_matrixSwap hcol hrow]
  interval_cases row <;> interval_cases col <;> ext <;> simp

theorem get_mul_matrixSwap {row col : Nat} (hrow : row < 4) (hcol : col < 4) :
    (matrixSwap.mul matrixSwap : Unitary (Amplitude R)).get row col =
      ∑ k : Fin 4, (matrixSwap : Unitary (Amplitude R)).get row k *
        (matrixSwap : Unitary (Amplitude R)).get k col :=
  Unitary.get_mul _ _ hrow hcol

theorem exact_matrixSwap : (matrixSwap : Unitary (Amplitude R)).Exact := by
  rw [Unitary.Exact, adjoint_matrixSwap]
  refine Unitary.ext_get rfl fun row hrow col hcol => ?_
  change row < 4 at hrow
  change col < 4 at hcol
  have hone : (Unitary.identity 2 : Unitary (Amplitude R)).get row col = if row = col then 1 else 0 :=
    Unitary.get_ofFn _ hrow hcol
  refine Eq.trans ?_ hone.symm
  rw [get_mul_matrixSwap hrow hcol, Fin.sum_univ_four]
  interval_cases row <;> interval_cases col <;> simp [get_matrixSwap]

end Cells

end StandardGate

/-- The real numbers. Nothing is proved about what is written out of them. -/
noncomputable instance : Scalar ℝ where
  rem x y := x - y * (if 0 ≤ x / y then ⌊x / y⌋ else ⌈x / y⌉ : ℤ)
  sqrt := Real.sqrt
  sin := Real.sin
  cos := Real.cos
  pi := Real.pi
  euler := Real.exp 1
  ofInt n := n
  ofNumeral n :=
    match n with
    | .decimal negative m e => (if negative then -1 else 1) * m * 10 ^ e
    | _ => 0
  lt x y := decide (x < y)
  toFloat _ := 0

noncomputable instance : ExactScalar ℝ := { (inferInstance : Scalar ℝ), (inferInstance : CommRing ℝ) with }

namespace StandardGate

open OpenQasm.Unitary

theorem exact_identity : (identity 1 : Unitary (Amplitude ℝ)).Exact := by
  have hcells : (identity 1 : Unitary (Amplitude ℝ)) = cells2 1 0 0 1 := by
    refine ext_get rfl fun row hrow col hcol => ?_
    change row < 2 at hrow
    change col < 2 at hcol
    rw [get_cells2 hrow hcol, identity, get_ofFn _ hrow hcol]
    interval_cases row <;> interval_cases col <;> simp
  rw [hcells]
  apply exact_cells2 <;> ext <;> simp

theorem exact_matrixX : (matrixX : Unitary (Amplitude ℝ)).Exact := by
  apply exact_cells2 <;> ext <;> simp

theorem exact_matrixY : (matrixY : Unitary (Amplitude ℝ)).Exact := by
  apply exact_cells2 <;> ext <;> simp

theorem sqrt_half_mul_self_add :
    Scalar.sqrt (Scalar.half (1 : ℝ)) * Scalar.sqrt (Scalar.half (1 : ℝ)) +
      Scalar.sqrt (Scalar.half (1 : ℝ)) * Scalar.sqrt (Scalar.half (1 : ℝ)) = 1 := by
  have hhalf : Scalar.half (1 : ℝ) = 2⁻¹ := by
    change (1 : ℝ) / ((2 : ℤ) : ℝ) = 2⁻¹
    norm_num
  have hsquare : Scalar.sqrt (2⁻¹ : ℝ) * Scalar.sqrt (2⁻¹ : ℝ) = 2⁻¹ :=
    Real.mul_self_sqrt (by norm_num)
  rw [hhalf, hsquare]
  norm_num

theorem exact_matrixH : (matrixH : Unitary (Amplitude ℝ)).Exact := by
  have h := sqrt_half_mul_self_add
  apply exact_cells2 <;> ext <;> simp [Amplitude.ofReal]
  · linear_combination h
  · linear_combination h

theorem sin_sq_add_cos_sq (theta : ℝ) : Scalar.sin theta ^ 2 + Scalar.cos theta ^ 2 = 1 :=
  Real.sin_sq_add_cos_sq theta

theorem exact_phase (theta : ℝ) : (phase theta).Exact := by
  have h := sin_sq_add_cos_sq theta
  apply exact_cells2 <;> ext <;> simp [Amplitude.polar]
  · linear_combination h
  · ring

theorem exact_rotationX (theta : ℝ) : (rotationX theta).Exact := by
  have h := sin_sq_add_cos_sq (Scalar.half theta)
  apply exact_cells2 <;> ext <;> simp
  · linear_combination h
  · ring
  · ring
  · linear_combination h

theorem exact_rotationY (theta : ℝ) : (rotationY theta).Exact := by
  have h := sin_sq_add_cos_sq (Scalar.half theta)
  apply exact_cells2 <;> ext <;> simp
  · linear_combination h
  · ring
  · ring
  · linear_combination h

theorem exact_rotationZ (theta : ℝ) : (rotationZ theta).Exact := by
  have hminus := sin_sq_add_cos_sq (Scalar.half (-theta))
  have hplus := sin_sq_add_cos_sq (Scalar.half theta)
  apply exact_cells2 <;> ext <;> simp [Amplitude.polar]
  · linear_combination hminus
  · ring
  · linear_combination hplus
  · ring

theorem exact_general (theta phi lambda : ℝ) : (general theta phi lambda).Exact := by
  have htheta := sin_sq_add_cos_sq (Scalar.half theta)
  have hphi := sin_sq_add_cos_sq phi
  have hlambda := sin_sq_add_cos_sq lambda
  have hsin : Scalar.sin (phi + lambda) =
      Scalar.sin phi * Scalar.cos lambda + Scalar.cos phi * Scalar.sin lambda :=
    Real.sin_add phi lambda
  have hcos : Scalar.cos (phi + lambda) =
      Scalar.cos phi * Scalar.cos lambda - Scalar.sin phi * Scalar.sin lambda :=
    Real.cos_add phi lambda
  apply exact_cells2 <;> ext <;> simp [Amplitude.polar, hsin, hcos]
  · linear_combination htheta + Scalar.sin (Scalar.half theta) ^ 2 * hlambda
  · ring
  · linear_combination -(Scalar.sin (Scalar.half theta) * Scalar.cos (Scalar.half theta) *
      Scalar.cos phi) * hlambda
  · linear_combination (Scalar.sin (Scalar.half theta) * Scalar.cos (Scalar.half theta) *
      Scalar.sin phi) * hlambda
  · linear_combination -(Scalar.sin (Scalar.half theta) * Scalar.cos (Scalar.half theta) *
      Scalar.cos phi) * hlambda
  · linear_combination -(Scalar.sin (Scalar.half theta) * Scalar.cos (Scalar.half theta) *
      Scalar.sin phi) * hlambda
  · linear_combination htheta + (Scalar.sin (Scalar.half theta) ^ 2 +
      Scalar.cos (Scalar.half theta) ^ 2) * hphi + Scalar.cos (Scalar.half theta) ^ 2 *
        (Scalar.sin phi ^ 2 + Scalar.cos phi ^ 2) * hlambda
  · ring

theorem allExact_real : AllExact ℝ := by
  intro g angles
  cases g with
  | id => exact exact_identity
  | x => exact exact_matrixX
  | y => exact exact_matrixY
  | h => exact exact_matrixH
  | sx => exact exact_rotationX _
  | rx => exact exact_rotationX _
  | ry => exact exact_rotationY _
  | rz => exact exact_rotationZ _
  | u => exact exact_general _ _ _
  | cx => exact exact_matrixX
  | cy => exact exact_matrixY
  | ch => exact exact_matrixH
  | swap => exact exact_matrixSwap
  | crx => exact exact_rotationX _
  | cry => exact exact_rotationY _
  | crz => exact exact_rotationZ _
  | ccx => exact exact_matrixX
  | cswap => exact exact_matrixSwap
  | _ => exact exact_phase _

end StandardGate

end OpenQasm
