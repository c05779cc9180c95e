import OpenQasm.Quantum.Operation

/-!
# Backends

What the interpreter asks of a quantum state. Every request is answered at once,
and the backend after it is returned also when the request is refused. The Fourier
transform is made of single operations, so one that is refused halfway leaves the
operations before it in place.
-/
namespace OpenQasm

abbrev Request (B α : Type) := ExceptT BackendError (StateM B) α

/-- A quantum state with amplitudes over the reals `R`. -/
class Backend (R : outParam Type) (B : Type) where
  name : B → String
  /-- Qubits allocated so far. -/
  qubitCount : B → Nat
  /-- The amplitudes; bit `i` of an index is the state of qubit `i`. -/
  amplitudes : B → Array (Amplitude R)
  /-- Add qubits that are zero. -/
  allocate : Nat → Request B (List QubitId)
  apply : Operation (Amplitude R) → Request B Unit
  /-- Measure a qubit, leaving it in the state that was seen. -/
  measure : QubitId → Request B Bool
  /-- Return a qubit to zero. -/
  reset : QubitId → Request B Unit
  /-- Multiply the second register by a power of `a` modulo `n`, the exponent being
  held in the first one. Backends need not offer this. -/
  modularPower : (a n : Nat) → (control target : List QubitId) → Request B Unit :=
    fun _ _ _ _ => do throw (.unsupported (name (← get)))

namespace Backend

variable {R B : Type} [Scalar R] [Backend R B]

def applyAll (ops : List (Operation (Amplitude R))) : Request B Unit := ops.forM apply

def fourier (controls : List Control) (qs : List QubitId) : Request B Unit :=
  applyAll (Fourier.operations controls qs)

def inverseFourier (controls : List Control) (qs : List QubitId) : Request B Unit :=
  applyAll (Fourier.inverseOperations controls qs)

end Backend

end OpenQasm
