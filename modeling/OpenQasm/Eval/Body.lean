import OpenQasm.Eval.Modifiers
import OpenQasm.Syntax.Block

/-!
# Bodies of modified gates

A call of a gate with a body runs a transformed copy of the body, the innermost
modifier being applied first. The control qubits of the call are bound in the
scope of the body under names of their own, numbered in the order of the
arguments, and each control modifier is added to the body together with the names
of its qubits. A `pow` may not unroll the body beyond a limit.
-/
namespace OpenQasm

/-- The start of the names that control qubits are bound under. -/
def controlStem : String := "__ctrl"

/-- The name of the `i`-th control qubit in a body. -/
def controlName (i : Nat) : String := controlStem ++ toString i

/-- The modifier that stands for `count` controls of a kind. -/
def controlModifier (kind : ModifierKind) (count : Nat) : Modifier :=
  .mk kind (if 1 < count then some (.ofInt64 (Int64.ofNat count)) else none)

/-- Refuse a call whose control names or whose statements no memory can hold. -/
def GateDef.checkExpansion (gate : GateDef) (controls : Nat) (body : Block) :
    Except EvalError Unit :=
  if controls + gate.qargs.length < Nat.pow 2 64 ∧ body.length < Nat.pow 2 63 then .ok ()
  else .error (.overflow (.expansion gate.name))

namespace Scope

variable {R : Type} [Scalar R]

/-- Each modifier with the number of control qubits it takes. -/
def countControls (s : Scope R) (ms : List Modifier) : Except EvalError (List (Modifier × Nat)) :=
  ms.mapM fun m => do
    if m.isControl then return (m, ← s.controlCount m) else return (m, 0)

/-- Transform a body for modifiers whose control qubits are numbered from `start`. -/
def modifyBody (s : Scope R) (gate : GateDef) (limit : Nat) (start : Nat) :
    List (Modifier × Nat) → Except EvalError Block
  | [] => .ok gate.body
  | (m, count) :: ms => do
      let body ← s.modifyBody gate limit (start + count) ms
      match m.kind with
      | .inv => return body.inv
      | .pow =>
          let k ← s.exponent m
          let n := k.toInt.natAbs
          if limit < body.length * n then throw (.unrollLimit gate.name limit)
          return if k.toInt < 0 then body.inv.pow n else body.pow n
      | kind =>
          let names := (List.range count).map fun i => Expr.ident (controlName (start + i))
          return body.add (controlModifier kind count) names

end Scope

end OpenQasm
