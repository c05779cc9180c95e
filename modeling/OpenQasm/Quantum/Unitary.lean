import OpenQasm.Quantum.Amplitude
import OpenQasm.Quantum.BackendError
import OpenQasm.Quantum.Dimension

/-!
# Matrices on qubits

A matrix on `k` qubits has `2 ^ k` rows and columns. Row and column numbers read
the qubits with the first one as the most significant bit. Products, adjoints and
powers need only sums, products and a conjugation of the cells; whether a matrix
is unitary is decided up to a tolerance, on amplitudes.
-/
namespace OpenQasm

/-- A square matrix on `qubits` qubits, row by row. -/
structure Unitary (A : Type) where
  qubits : Nat
  cells : Vector A (dimension qubits * dimension qubits)

namespace Unitary

section Algebra

variable {A : Type}

/-- The matrix with given cells. -/
def ofFn (k : Nat) (f : Nat → Nat → A) : Unitary A :=
  ⟨k, Vector.ofFn fun i => f (i / dimension k) (i % dimension k)⟩

def dim (u : Unitary A) : Nat := dimension u.qubits

variable [Zero A]

def get (u : Unitary A) (row col : Nat) : A :=
  (u.cells.toArray[row * u.dim + col]?).getD 0

variable [One A]

def identity (k : Nat) : Unitary A := ofFn k fun r c => if r = c then 1 else 0

/-- The conjugate transpose. -/
def adjoint [Conj A] (u : Unitary A) : Unitary A := ofFn u.qubits fun r c => conj (u.get c r)

variable [Add A] [Mul A]

def mul (u v : Unitary A) : Unitary A :=
  ofFn u.qubits fun r c =>
    (List.range u.dim).foldl (fun sum k => sum + u.get r k * v.get k c) 0

/-- The product of two matrices, if their sides agree. -/
def dot (u v : Unitary A) : Except BackendError (Unitary A) :=
  if u.dim = v.dim then .ok (u.mul v) else .error (.unequalSides u.dim v.dim)

/-- `result` times the `n`-th power of `base`, by repeated squaring. -/
def powInto (result base : Unitary A) (n : Nat) : Unitary A :=
  if n = 0 then result
  else powInto (if n % 2 = 1 then result.mul base else result) (base.mul base) (n / 2)
termination_by n
decreasing_by omega

/-- An integer power; a negative one is a power of the adjoint. -/
def pow [Conj A] (u : Unitary A) (e : Int) : Unitary A :=
  powInto (identity u.qubits) (if e < 0 then u.adjoint else u) e.natAbs

end Algebra

section Checks

variable {R : Type} [Scalar R]

/-- Cells closer than this count as equal. -/
def tolerance : R := 1 / Scalar.ofInt 1000000000

/-- Whether two amplitudes are equal within the tolerance. -/
def close (a b : Amplitude R) : Bool := Scalar.lt (a - b).norm tolerance

/-- Whether two matrices are equal within the tolerance. -/
def approxEq (u v : Unitary (Amplitude R)) : Bool :=
  u.dim = v.dim && (List.range u.dim).all fun r =>
    (List.range u.dim).all fun c => close (u.get r c) (v.get r c)

/-- Whether a matrix times its adjoint is the identity within the tolerance. -/
def isUnitary (u : Unitary (Amplitude R)) : Bool :=
  (u.mul u.adjoint).approxEq (identity u.qubits)

/-- The unitary with given rows. The side must be a power of two. -/
def ofRows (cols : Nat) (rows : List (List (Amplitude R))) :
    Except BackendError (Unitary (Amplitude R)) :=
  let k := rows.length.log2
  if rows.length = cols ∧ rows.length = dimension k then
    let table := rows.toArray.map List.toArray
    let u := ofFn k fun r c => ((table[r]?).bind (·[c]?)).getD 0
    if u.isUnitary then .ok u else .error .notUnitary
  else .error (.notSquare rows.length cols)

end Checks

end Unitary

end OpenQasm
