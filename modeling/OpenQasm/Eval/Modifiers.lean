import OpenQasm.Scope.Scope

/-!
# Modifiers of a gate

For a gate with a matrix, a list of modifiers comes down to the polarities of its
control qubits and one exponent: `inv` negates the exponent and `pow` multiplies
it. For a gate with a body, the body is transformed instead, the innermost modifier
first.
-/
namespace OpenQasm

/-- Modifiers of a gate with a matrix. -/
structure FoldedModifiers where
  /-- Polarity of each control qubit, in the order of the arguments. -/
  controls : List Bool
  /-- The exponent of the matrix. The least 64-bit integer is its own negation. -/
  power : Int64
  deriving DecidableEq, Repr

namespace Scope

variable {R : Type} [Scalar R]

def controlCount (s : Scope R) (m : Modifier) : Except EvalError Nat :=
  match m.arg with
  | none => .ok 1
  | some e => do
      match ← s.fold e with
      | .int n =>
          if 1 ≤ n.toInt then .ok n.toInt.toNat
          else .error (.invalidModifier (.badCount m.kind (toString n.toInt)))
      | c => .error (.invalidModifier (.badCount m.kind c.text))

def exponent (s : Scope R) (m : Modifier) : Except EvalError Int64 :=
  match m.arg with
  | none => .error (.invalidModifier .missingExponent)
  | some e => do
      match ← s.fold e with
      | .int k => .ok k
      | c => .error (.invalidModifier (.badExponent c.text))

/-- Fold modifiers, the outermost one first, into what was folded so far. -/
def foldModifiers (s : Scope R) (folded : FoldedModifiers) :
    List Modifier → Except EvalError FoldedModifiers
  | [] => .ok folded
  | m :: ms => do
      let next ← match m.kind with
        | .ctrl => do
            let n ← s.controlCount m
            pure { folded with controls := folded.controls ++ List.replicate n true }
        | .negctrl => do
            let n ← s.controlCount m
            pure { folded with controls := folded.controls ++ List.replicate n false }
        | .inv => pure { folded with power := -folded.power }
        | .pow => do
            let k ← s.exponent m
            match int64? (folded.power.toInt * k.toInt) with
            | some p => pure { folded with power := p }
            | none => throw (.overflow (.power k))
      s.foldModifiers next ms

/-- The controls and the exponent that modifiers stand for. -/
def resolveModifiers (s : Scope R) (ms : List Modifier) : Except EvalError FoldedModifiers :=
  s.foldModifiers ⟨[], 1⟩ ms

end Scope

end OpenQasm
