import OpenQasm.Proofs.Quantum.Exact

/-!
# Integer powers of matrices

A power is made by repeated squaring. Its exponent is any integer, and a negative one raises the
adjoint instead. Over a commutative ring the result is the iterated product, so exponents of one
sign add up. The powers of a matrix that its adjoint undoes are those of a unit, so exponents of
both signs add up there.
-/
namespace OpenQasm.Unitary

variable {A : Type} [CommRing A] {k : Nat} {u v : Unitary A}

theorem eq_of_toMatrix_eq (hu : u.qubits = k) (hv : v.qubits = k)
    (h : u.toMatrix k = v.toMatrix k) : u = v := by
  refine ext_get (hu.trans hv.symm) fun r hr c hc => ?_
  rw [dim, hu] at hr hc
  exact congrFun (congrFun h ⟨r, hr⟩) ⟨c, hc⟩

theorem dot_eq_ok (h : u.qubits = v.qubits) : u.dot v = .ok (u.mul v) :=
  if_pos (congrArg dimension h)

variable [Conj A]

/-! The sign of the exponent -/

theorem toMatrix_pow_of_nonneg (hu : u.qubits = k) {e : Int} (he : 0 ≤ e) :
    (u.pow e).toMatrix k = u.toMatrix k ^ e.natAbs := by
  rw [toMatrix_pow hu, if_neg (by omega)]

theorem toMatrix_pow_of_nonpos (hu : u.qubits = k) {e : Int} (he : e ≤ 0) :
    (u.pow e).toMatrix k = u.adjoint.toMatrix k ^ e.natAbs := by
  rw [toMatrix_pow hu]
  by_cases hneg : e < 0
  · rw [if_pos hneg]
  · obtain rfl : e = 0 := by omega
    rw [Int.natAbs_zero, pow_zero, pow_zero]

/-- Exponents of the same sign. Zero has both. -/
def SameSign (a b : Int) : Prop := 0 ≤ a ∧ 0 ≤ b ∨ a ≤ 0 ∧ b ≤ 0

theorem toMatrix_pow_mul_of_sameSign (hu : u.qubits = k) {a b : Int} (h : SameSign a b) :
    (u.pow a).toMatrix k * (u.pow b).toMatrix k = (u.pow (a + b)).toMatrix k := by
  rcases h with ⟨ha, hb⟩ | ⟨ha, hb⟩
  · rw [toMatrix_pow_of_nonneg hu ha, toMatrix_pow_of_nonneg hu hb,
      toMatrix_pow_of_nonneg hu (Int.add_nonneg ha hb), Int.natAbs_add_of_nonneg ha hb, pow_add]
  · rw [toMatrix_pow_of_nonpos hu ha, toMatrix_pow_of_nonpos hu hb,
      toMatrix_pow_of_nonpos hu (by omega), Int.natAbs_add_of_nonpos ha hb, pow_add]

/-! Matrices that their adjoints undo -/

def Exact.unit (h : u.Exact) (hu : u.qubits = k) :
    (Matrix (Fin (dimension k)) (Fin (dimension k)) A)ˣ where
  val := u.toMatrix k
  inv := u.adjoint.toMatrix k
  val_inv := h.mul_adjoint hu
  inv_val := h.adjoint_mul hu

theorem Exact.toMatrix_pow_eq (h : u.Exact) (hu : u.qubits = k) (e : Int) :
    (u.pow e).toMatrix k = ↑(h.unit hu ^ e) := by
  cases e with
  | ofNat n =>
      rw [Int.ofNat_eq_natCast, toMatrix_pow_of_nonneg hu (Int.natCast_nonneg n), zpow_natCast,
        Units.val_pow_eq_pow_val]
      rfl
  | negSucc n =>
      rw [toMatrix_pow_of_nonpos hu (Int.negSucc_lt_zero n).le, zpow_negSucc, ← inv_pow,
        Units.val_pow_eq_pow_val]
      rfl

theorem Exact.toMatrix_pow_mul (h : u.Exact) (hu : u.qubits = k) (a b : Int) :
    (u.pow a).toMatrix k * (u.pow b).toMatrix k = (u.pow (a + b)).toMatrix k := by
  rw [h.toMatrix_pow_eq hu, h.toMatrix_pow_eq hu, h.toMatrix_pow_eq hu, zpow_add, Units.val_mul]

/-! Products of powers -/

theorem dot_pow_eq_ok {a b : Int} (h : (u.pow a).toMatrix u.qubits * (u.pow b).toMatrix u.qubits =
    (u.pow (a + b)).toMatrix u.qubits) : (u.pow a).dot (u.pow b) = .ok (u.pow (a + b)) := by
  have hqubits (e : Int) : (u.pow e).qubits = u.qubits := u.qubits_pow e
  rw [dot_eq_ok ((hqubits a).trans (hqubits b).symm)]
  refine congrArg Except.ok (eq_of_toMatrix_eq (hqubits a) (hqubits (a + b)) ?_)
  rw [toMatrix_mul (hqubits a), h]

/-- Repeated squaring gives the iterated product: of the matrix for an exponent that is not
negative, and otherwise of its conjugate transpose, as often as the exponent says without its
sign. So powers with exponents of one sign multiply to the power with their sum, and for a matrix
that its adjoint undoes this holds of all exponents. Exponents are any integers, the least one of
64 bits among them. -/
theorem pow_is_iterated_product (u : Unitary A) :
    (∀ e : Int, (u.pow e).qubits = u.qubits ∧
      (0 ≤ e → (u.pow e).toMatrix u.qubits = u.toMatrix u.qubits ^ e.natAbs) ∧
      (e < 0 → (u.pow e).toMatrix u.qubits =
        ((u.toMatrix u.qubits).transpose.map conj) ^ e.natAbs)) ∧
    (∀ a b : Int, SameSign a b → (u.pow a).dot (u.pow b) = .ok (u.pow (a + b))) ∧
    (u.Exact → ∀ a b : Int, (u.pow a).dot (u.pow b) = .ok (u.pow (a + b))) := by
  have hadjoint : u.adjoint.toMatrix u.qubits = (u.toMatrix u.qubits).transpose.map conj :=
    Matrix.ext fun r c => toMatrix_adjoint rfl r c
  refine ⟨fun e => ⟨u.qubits_pow e, toMatrix_pow_of_nonneg rfl, fun he => ?_⟩, ?_, ?_⟩
  · rw [toMatrix_pow_of_nonpos rfl he.le, hadjoint]
  · exact fun a b h => dot_pow_eq_ok (toMatrix_pow_mul_of_sameSign rfl h)
  · exact fun h a b => dot_pow_eq_ok (h.toMatrix_pow_mul rfl a b)

noncomputable def turnY : Unitary (Amplitude ℝ) := StandardGate.rotationY 1

/-- A rotation is undone by its adjoint. It can be raised to the least exponent of 64 bits, and
that power multiplied with those for exponents of either sign. -/
theorem pow_is_iterated_product_turnY :
    turnY.Exact ∧ Int64.minValue.toInt < 0 ∧ SameSign (-2) Int64.minValue.toInt ∧
      (turnY.pow 0).toMatrix 1 = 1 ∧
      (turnY.pow Int64.minValue.toInt).toMatrix 1 =
        ((turnY.toMatrix 1).transpose.map conj) ^ 2 ^ 63 ∧
      (turnY.pow (-2)).dot (turnY.pow Int64.minValue.toInt) =
        .ok (turnY.pow (-2 + Int64.minValue.toInt)) ∧
      (turnY.pow 3).dot (turnY.pow Int64.minValue.toInt) =
        .ok (turnY.pow (3 + Int64.minValue.toInt)) := by
  have hexact : turnY.Exact := StandardGate.exact_rotationY 1
  have hneg : Int64.minValue.toInt < 0 := by decide
  have hsame : SameSign (-2) Int64.minValue.toInt := .inr (by decide)
  have habs : Int64.minValue.toInt.natAbs = 2 ^ 63 := by decide
  obtain ⟨hpow, hadd, hmixed⟩ := pow_is_iterated_product turnY
  refine ⟨hexact, hneg, hsame, ?_, ?_, hadd _ _ hsame, hmixed hexact _ _⟩
  · exact (hpow 0).2.1 (Int.le_refl 0)
  · rw [← habs]
    exact (hpow _).2.2 hneg

end OpenQasm.Unitary
