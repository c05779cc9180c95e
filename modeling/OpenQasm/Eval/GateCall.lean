import OpenQasm.Eval.Machine
import OpenQasm.Eval.Modifiers

/-!
# Gates with a matrix

A statement that applies a standard gate is first turned into the list of
operations it stands for; only then is the backend asked to apply them, in order.
Arguments are single qubits or registers of one common size, and the gate runs
once for each place in the registers. The leading arguments are the controls of
the modifiers, then the controls of the gate itself, then its targets.
-/
namespace OpenQasm

/-- The arguments of each run of a gate: a single qubit takes part in every run, a
register with one element. -/
def broadcast (args : List (List QubitId)) : Except EvalError (List (List QubitId)) :=
  let n := (args.map List.length).max?.getD 1
  match args.find? fun arg => arg.length ≠ 1 ∧ arg.length ≠ n with
  | some arg => .error (.sizeMismatch n arg.length)
  | none => .ok ((List.range n).map fun i =>
      args.filterMap fun arg => if arg.length = 1 then arg[0]? else arg[i]?)

namespace Scope

variable {R : Type} [Scalar R]

/-- The one qubit an argument refers to. -/
def singleQubit (s : Scope R) (e : Expr) : Except EvalError QubitId := do
  match ← s.qubitsOf e with
  | [q] => return q
  | qs => throw (.sizeMismatch 1 qs.length)

def angle (s : Scope R) (e : Expr) : Except EvalError R := do (← s.fold e).toReal

def natural (s : Scope R) (e : Expr) : Except EvalError Nat := do
  let v ← (← s.fold e).toInt
  if v.toInt < 0 then throw (.typeMismatch (.negativeInt v))
  return v.toInt.toNat

/-- The operation of one run of a gate. -/
def operation (matrix : Unitary (Amplitude R)) (polarity : List Bool) (qubits : List QubitId) :
    Operation (Amplitude R) :=
  ⟨matrix, List.zipWith Control.mk (qubits.take polarity.length) polarity,
    qubits.drop polarity.length⟩

/-- The operations that a standard gate under modifiers stands for. -/
def standardOperations (s : Scope R) (gate : StandardGate) (ms : List Modifier)
    (params qargs : List Expr) : Except EvalError (List (Operation (Amplitude R))) := do
  let folded ← s.resolveModifiers ms
  if params.length ≠ gate.paramCount then
    throw (.arity gate.name .parameter gate.paramCount params.length)
  let expected := folded.controls.length + gate.qubitCount
  if qargs.length ≠ expected then
    throw (.arity gate.name .qubit expected qargs.length)
  let angles ← params.mapM s.angle
  let (intrinsic, base) ← (gate.decompose angles).mapError EvalError.backend
  let power := folded.power.toInt
  let matrix := if power = 1 then base else base.pow power
  let polarity := folded.controls ++ List.replicate intrinsic true
  let runs ← broadcast (← qargs.mapM s.qubitsOf)
  return runs.map (operation matrix polarity)

/-- What a Fourier transform under modifiers acts on. -/
structure FourierCall where
  controls : List Control
  register : List QubitId
  inverse : Bool
  times : Nat

/-- Resolve a Fourier transform: `inv` changes its direction, `pow` repeats it. -/
def fourierCall (s : Scope R) (gate : Builtin) (ms : List Modifier) (params qargs : List Expr) :
    Except EvalError FourierCall := do
  unless params.isEmpty do throw (.arity gate.text .parameter 0 params.length)
  let folded ← s.resolveModifiers ms
  let n := folded.controls.length
  if qargs.length ≤ n then throw (.arity gate.text .qubit (n + 1) qargs.length)
  let controlQubits ← (qargs.take n).mapM s.singleQubit
  let registers ← (qargs.drop n).mapM s.qubitsOf
  return {
    controls := List.zipWith Control.mk controlQubits folded.controls
    register := registers.flatten
    inverse := (gate = .iqft) != (folded.power.toInt < 0)
    times := folded.power.toInt.natAbs }

structure ModularPowerCall where
  base : Nat
  modulus : Nat
  control : List QubitId
  target : List QubitId

/-- Resolve a modular power. It takes no modifiers. -/
def modularPowerCall (s : Scope R) (ms : List Modifier) (params qargs : List Expr) :
    Except EvalError ModularPowerCall := do
  if let m :: _ := ms then throw (.invalidModifier (.onModularPower m.kind))
  let gate := Builtin.cmodexp2.text
  match params, qargs with
  | [a, n], [x, y] =>
      return {
        base := ← s.natural a
        modulus := ← s.natural n
        control := ← s.qubitsOf x
        target := ← s.qubitsOf y }
  | [_, _], _ => throw (.arity gate .qubit 2 qargs.length)
  | _, _ => throw (.arity gate .parameter 2 params.length)

end Scope

namespace Run

variable {R B : Type} [Scalar R] [Backend R B]

/-- Make a request a number of times, stopping where it is refused. -/
def repeatRequest (r : Request B Unit) : Nat → Run R B Unit
  | 0 => pure ()
  | n + 1 => do
      request r
      repeatRequest r n

def applyStandard (s : Scope R) (gate : StandardGate) (ms : List Modifier)
    (params qargs : List Expr) : Run R B Unit := do
  let ops ← s.standardOperations gate ms params qargs
  request (Backend.applyAll ops)

def applyFourier (s : Scope R) (gate : Builtin) (ms : List Modifier) (params qargs : List Expr) :
    Run R B Unit := do
  let c ← s.fourierCall gate ms params qargs
  repeatRequest
    (if c.inverse then Backend.inverseFourier c.controls c.register
      else Backend.fourier c.controls c.register) c.times

def applyModularPower (s : Scope R) (ms : List Modifier) (params qargs : List Expr) :
    Run R B Unit := do
  let c ← s.modularPowerCall ms params qargs
  request (Backend.modularPower c.base c.modulus c.control c.target)

def applyBuiltin (s : Scope R) (gate : Builtin) (ms : List Modifier) (params qargs : List Expr) :
    Run R B Unit :=
  match gate with
  | .u => applyStandard s .u ms params qargs
  | .x => applyStandard s .x ms params qargs
  | .y => applyStandard s .y ms params qargs
  | .z => applyStandard s .z ms params qargs
  | .h => applyStandard s .h ms params qargs
  | .s => applyStandard s .s ms params qargs
  | .t => applyStandard s .t ms params qargs
  | .qft => applyFourier s .qft ms params qargs
  | .iqft => applyFourier s .iqft ms params qargs
  | .cmodexp2 => applyModularPower s ms params qargs

end Run

end OpenQasm
