/-!
# Errors of a quantum backend
-/
namespace OpenQasm

/-- Backends number qubits from zero in the order of their allocation. The number
of a qubit is also its bit position in the index of an amplitude. -/
abbrev QubitId := Nat

inductive BackendError where
  | capacity (requested allocated limit : Nat)
  | unknownQubit (q : QubitId)
  | duplicateQubit (q : QubitId)
  | notSquare (rows cols : Nat)
  | notUnitary
  | unequalSides (left right : Nat)
  | targetCount (matrixQubits targets : Nat)
  | zeroModulus
  | modulusTooLarge (modulus width : Nat)
  | notCoprime (base modulus divisor : Nat)
  | parameterCount (gate : String) (expected got : Nat)
  | unsupported (backend : String)
  deriving DecidableEq, Repr

namespace BackendError

def message : BackendError → String
  | capacity requested allocated limit =>
      s!"Cannot allocate {requested} qubits: backend holds {allocated} of at most {limit}"
  | unknownQubit q => s!"Unknown qubit: q{q}"
  | duplicateQubit q => s!"Qubit q{q} used more than once in one operation"
  | notSquare rows cols =>
      s!"Invalid unitary: expected a square power-of-two matrix, got {rows}x{cols}"
  | notUnitary => "Invalid unitary: U * U^dagger != I"
  | unequalSides left right =>
      s!"Invalid unitary: cannot multiply {left}x{left} by {right}x{right}"
  | targetCount matrixQubits targets =>
      s!"Invalid operation: {matrixQubits}-qubit matrix applied to {targets} target(s)"
  | zeroModulus => "Invalid operation: CMODEXP2 modulus is zero"
  | modulusTooLarge modulus width =>
      s!"Invalid operation: CMODEXP2 modulus {modulus} does not fit in {width} target qubit(s)"
  | notCoprime base modulus divisor =>
      "Invalid operation: CMODEXP2 requires gcd(a, N) = 1, got " ++
        s!"gcd({base}, {modulus}) = {divisor}"
  | parameterCount gate expected got =>
      s!"Invalid gate: {gate} takes {expected} parameter(s), got {got}"
  | unsupported backend => s!"Unsupported feature: {backend} does not implement CMODEXP2"

end BackendError

end OpenQasm
