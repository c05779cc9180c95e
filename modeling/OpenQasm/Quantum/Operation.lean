import OpenQasm.Quantum.StandardGate

/-!
# Controlled operations

A matrix applied to target qubits under controls, and the Fourier transform as a
sequence of such operations.
-/
namespace OpenQasm

/-- A control qubit. With `on = false` the operation takes place where the qubit is
zero. -/
structure Control where
  qubit : QubitId
  on : Bool
  deriving DecidableEq, Repr

/-- A matrix applied to target qubits where every control holds. -/
structure Operation (A : Type) where
  matrix : Unitary A
  controls : List Control
  targets : List QubitId

namespace Operation

variable {A : Type}

/-- The qubits of an operation, controls first. -/
def qubits (op : Operation A) : List QubitId := op.controls.map Control.qubit ++ op.targets

/-- The first qubit that occurs earlier in a list. -/
def firstRepeat? (seen : List QubitId) : List QubitId → Option QubitId
  | [] => none
  | q :: qs => if q ∈ seen then some q else firstRepeat? (q :: seen) qs

/-- The matrix must fit the targets, and no qubit may occur twice. -/
def validate (op : Operation A) : Except BackendError Unit :=
  if op.matrix.qubits ≠ op.targets.length then
    .error (.targetCount op.matrix.qubits op.targets.length)
  else match firstRepeat? [] op.qubits with
    | some q => .error (.duplicateQubit q)
    | none => .ok ()

/-- The operation that undoes a unitary one. -/
def adjoint [Zero A] [One A] [Conj A] (op : Operation A) : Operation A :=
  { op with matrix := op.matrix.adjoint }

end Operation

/-! The Fourier transform reads a register with its first qubit as the most
significant bit, and may stand under extra controls. -/

namespace Fourier

variable {R : Type} [Scalar R]

/-- The phase that qubit `source` puts on `target`, `distance` places before it. -/
def phaseStep (controls : List Control) (target source : QubitId) (distance : Nat) :
    Operation (Amplitude R) :=
  ⟨StandardGate.phase (Scalar.pi / Scalar.twoPow distance), ⟨source, true⟩ :: controls, [target]⟩

/-- The phases that the qubits after `target` put on it. -/
def phaseSteps (controls : List Control) (target : QubitId) (distance : Nat) :
    List QubitId → List (Operation (Amplitude R))
  | [] => []
  | q :: qs =>
      phaseStep controls target q distance :: phaseSteps controls target (distance + 1) qs

/-- Hadamard matrices and phases, one qubit after the other. -/
def rotations (controls : List Control) : List QubitId → List (Operation (Amplitude R))
  | [] => []
  | q :: qs =>
      ⟨StandardGate.matrixH, controls, [q]⟩ ::
        (phaseSteps controls q 1 qs ++ rotations controls qs)

/-- Exchanges that reverse a register. -/
def reversal (controls : List Control) (qs : List QubitId) : List (Operation (Amplitude R)) :=
  ((qs.zip qs.reverse).take (qs.length / 2)).map fun (a, b) =>
    ⟨StandardGate.matrixSwap, controls, [a, b]⟩

def operations (controls : List Control) (qs : List QubitId) : List (Operation (Amplitude R)) :=
  rotations controls qs ++ reversal controls qs

def inverseOperations (controls : List Control) (qs : List QubitId) :
    List (Operation (Amplitude R)) :=
  (operations controls qs).reverse.map Operation.adjoint

end Fourier

end OpenQasm
