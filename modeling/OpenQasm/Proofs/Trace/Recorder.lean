import OpenQasm.Eval.Interpreter

/-!
# Recorded runs

A recorder is a backend that passes every request on to another backend and writes
it down, together with the calls that are being run at that moment. A gate with a
matrix counts as a call as well. The evaluator of recorded runs is the one of plain
runs, except that it tells the recorder which calls it enters and leaves.
-/
namespace OpenQasm

/-- Where a call stands: as a statement of its own or as the value of one. -/
inductive Place where
  | statement
  | value
  deriving DecidableEq, Repr

/-- A modifier whose argument and qubits are known. -/
inductive Applied where
  | control (on : Bool) (args : List (List QubitId))
  | inverse
  | power (exponent : Int)
  deriving DecidableEq, Repr

def Applied.args : Applied → List (List QubitId)
  | control _ args => args
  | _ => []

/-- A call that is being run. -/
structure Frame where
  name : String
  place : Place
  /-- Its modifiers, the outermost one first. -/
  modifiers : List Applied
  /-- The names its body has for its qubit arguments. -/
  formals : List String
  deriving DecidableEq, Repr

/-- What is applied in the end: a standard gate or a Fourier transform. -/
inductive LeafGate where
  | standard (gate : StandardGate)
  | fourier
  | inverseFourier
  deriving DecidableEq, Repr

/-- One application of a gate that has no body. -/
structure Leaf (R : Type) where
  gate : LeafGate
  params : List R
  /-- The exponent that `inv` and `pow` come down to. -/
  power : Int64
  /-- The polarity and the qubits of each control argument. -/
  controls : List (Bool × List QubitId)
  /-- The qubits of each other argument. -/
  targets : List (List QubitId)

/-- What is written down. -/
inductive Event (R : Type) where
  | leaf (l : Leaf R)
  | allocate (n : Nat)
  | apply (op : Operation (Amplitude R))
  | measure (q : QubitId)
  | reset (q : QubitId)
  | modularPower (a n : Nat) (control target : List QubitId)

/-- An event and the calls around it, the innermost one first. -/
structure LogEntry (R : Type) where
  frames : List Frame
  event : Event R

/-- A backend under observation. -/
structure Recorder (R B : Type) where
  backend : B
  frames : List Frame
  /-- What was written down, in order. -/
  log : List (LogEntry R)

namespace Recorder

variable {R B α : Type}

def watch (b : B) : Recorder R B := ⟨b, [], []⟩

def note (e : Event R) (t : Recorder R B) : Recorder R B :=
  { t with log := t.log ++ [⟨t.frames, e⟩] }

def forward (e : Event R) (r : Request B α) : Request (Recorder R B) α := fun t =>
  let (a, b) := r t.backend
  (a, { t.note e with backend := b })

instance [Backend R B] : Backend R (Recorder R B) where
  name t := Backend.name t.backend
  qubitCount t := Backend.qubitCount t.backend
  amplitudes t := Backend.amplitudes t.backend
  allocate n := forward (.allocate n) (Backend.allocate n)
  apply op := forward (.apply op) (Backend.apply op)
  measure q := forward (.measure q) (Backend.measure q)
  reset q := forward (.reset q) (Backend.reset q)
  modularPower a n control target :=
    forward (.modularPower a n control target) (Backend.modularPower a n control target)

/-- The gates applied, in order. -/
def leaves (t : Recorder R B) : List (Leaf R) :=
  t.log.filterMap fun entry =>
    match entry.event with
    | .leaf l => some l
    | _ => none

end Recorder

namespace Scope

variable {R : Type} [Scalar R]

/-- A modifier with its argument, and the qubits of the arguments it takes. -/
def resolveModifier (s : Scope R) (m : Modifier) (qargs : List Expr) : Except EvalError Applied :=
  match m.kind with
  | .inv => .ok .inverse
  | .pow => do return .power (← s.exponent m).toInt
  | kind => do
      let n ← s.controlCount m
      return .control (kind = .ctrl) (← (qargs.take n).mapM s.qubitsOf)

/-- Modifiers in a row, each of which takes the arguments after those of the one before. -/
def applied (s : Scope R) : List Modifier → List Expr → Except EvalError (List Applied)
  | [], _ => .ok []
  | m :: ms, qargs => do
      let a ← s.resolveModifier m qargs
      return a :: (← s.applied ms (qargs.drop a.args.length))

def frame (s : Scope R) (place : Place) (formals : List String) (call : Call) : Frame :=
  ⟨call.name, place, (s.applied call.modifiers call.qargs).toOption.getD [], formals⟩

def leaf (s : Scope R) (gate : LeafGate) (ms : List Modifier) (params qargs : List Expr) :
    Except EvalError (Leaf R) := do
  let folded ← s.resolveModifiers ms
  let angles ← params.mapM s.angle
  let args ← qargs.mapM s.qubitsOf
  let n := folded.controls.length
  return ⟨gate, angles, folded.power, folded.controls.zip (args.take n), args.drop n⟩

end Scope

/-- The built-in gates whose applications are recorded. -/
def LeafGate.ofBuiltin? : Builtin → Option LeafGate
  | .u => some (.standard .u)
  | .x => some (.standard .x)
  | .y => some (.standard .y)
  | .z => some (.standard .z)
  | .h => some (.standard .h)
  | .s => some (.standard .s)
  | .t => some (.standard .t)
  | .qft => some .fourier
  | .iqft => some .inverseFourier
  | .cmodexp2 => none

namespace Traced

variable {R B α : Type}

def inFrame (f : Frame) (x : Run R (Recorder R B) α) : Run R (Recorder R B) α := fun m =>
  let (a, m') := x { m with backend := { m.backend with frames := f :: m.backend.frames } }
  (a, { m' with backend := { m'.backend with frames := m.backend.frames } })

def noteLeaf (l : Except EvalError (Leaf R)) : Run R (Recorder R B) Unit := fun m =>
  match l with
  | .ok l => (.ok (), { m with backend := m.backend.note (.leaf l) })
  | .error _ => (.ok (), m)

variable [Scalar R] [Backend R B]

def applyLeaf (place : Place) (s : Scope R) (gate : LeafGate) (call : Call)
    (x : Run R (Recorder R B) Unit) : Run R (Recorder R B) Unit :=
  inFrame (s.frame place [] call) do
    noteLeaf (s.leaf gate call.modifiers call.params call.qargs)
    x

def applyBuiltin (s : Scope R) (gate : Builtin) (ms : List Modifier) (params qargs : List Expr) :
    Run R (Recorder R B) Unit :=
  match LeafGate.ofBuiltin? gate with
  | some leafGate =>
      applyLeaf .statement s leafGate ⟨gate.text, ms, params, qargs⟩
        (Run.applyBuiltin s gate ms params qargs)
  | none => Run.applyBuiltin s gate ms params qargs

/-- Run the bodies of definitions inside a call. -/
def framed (f : Frame) (deeper : Option (BodyRunner R (Recorder R B))) :
    Option (BodyRunner R (Recorder R B)) :=
  deeper.map fun run inner body => inFrame f (run inner body)

mutual

def value (place : Place) (config : Config) (deeper : Option (BodyRunner R (Recorder R B)))
    (s : Scope R) : Expr → Run R (Recorder R B) (Value R)
  | .call name ms ps qs =>
      match s.gates.get? name with
      | some gate =>
          let call : Call := ⟨name, ms, ps, qs⟩
          Run.callGate config (framed (s.frame place gate.qargs call) deeper) s gate call
      | none =>
          match s.subroutines.get? name with
          | some d =>
              let call : Call := ⟨name, ms, ps, qs⟩
              Run.callSubroutine config (framed (s.frame place d.qargs call) deeper) s d call
                (arguments config deeper s d.params ps)
          | none =>
              match StandardGate.ofName? name with
              | some gate => do
                  applyLeaf place s (.standard gate) ⟨name, ms, ps, qs⟩
                    (Run.applyStandard s gate ms ps qs)
                  return .none
              | none => throw (.unknownGate name)
  | e => Run.value config none s e

def arguments (config : Config) (deeper : Option (BodyRunner R (Recorder R B))) (s : Scope R)
    (params : List TypedName) : List Expr → Run R (Recorder R B) (List (Arg R))
  | [] => pure []
  | e :: es =>
      match params with
      | [] => pure []
      | p :: ps => do
          let arg ← match p.type.kind with
            | .qubit => do
                let qs ← s.qubitsOf e
                let size ← s.declaredSize p
                if qs.length ≠ size then throw (.sizeMismatch size qs.length)
                pure (Arg.qubits qs)
            | .bit => do
                let size ← s.declaredSize p
                let v ← value .value config deeper s e
                pure (Arg.bits (← v.toBits size))
            | kind => do
                let v ← value .value config deeper s e
                pure (Arg.scalar (← (← v.toConst).coerce kind))
          return arg :: (← arguments config deeper s ps es)

end

mutual

def stmt (config : Config) (deeper : Option (BodyRunner R (Recorder R B))) :
    Stmt → Exec R (Recorder R B) (Flow R)
  | .returns (some e) => do
      return .returned (← Exec.ofRun fun s => value .value config deeper s e)
  | .arrow e target => do
      let v ← Exec.ofRun fun s => value .value config deeper s e
      Exec.update fun s => s.assign target v
      return Exec.done
  | .assign target e => do
      let v ← Exec.ofRun fun s => value .value config deeper s e
      Exec.update fun s => s.assign target v
      return Exec.done
  | .apply gate ms params qargs => do
      Exec.ofRun fun s => applyBuiltin s gate ms params qargs
      return Exec.done
  | .expr (.call name ms ps qs) => do
      return .next (← Exec.ofRun fun s => value .statement config deeper s (.call name ms ps qs))
  | .block body => stmts config deeper body
  | c => Exec.stmt config none c

def stmts (config : Config) (deeper : Option (BodyRunner R (Recorder R B))) :
    List Stmt → Exec R (Recorder R B) (Flow R)
  | [] => pure Exec.done
  | c :: cs => do
      match ← stmt config deeper c with
      | .returned v => return .returned v
      | .next _ => stmts config deeper cs

end

def runBody (config : Config) : (depth : Nat) → BodyRunner R (Recorder R B)
  | 0 => fun s body => (stmts config none body).within s
  | n + 1 => fun s body => (stmts config (some (runBody config n)) body).within s

def bodyRunner? (config : Config) : Option (BodyRunner R (Recorder R B)) :=
  match config.maxDepth with
  | 0 => none
  | n + 1 => some (runBody config n)

def topStmt (c : Stmt) (i : Interpreter R (Recorder R B)) :
    Except EvalError (Flow R) × Interpreter R (Recorder R B) :=
  match stmt i.config (bodyRunner? i.config) c (i.scope, i.machine) with
  | (.ok flow, (scope, machine)) => (.ok flow, { i with scope, machine })
  | (.error e, (scope, machine)) => (.error (.inStatement e c.text), { i with scope, machine })

def topStmts : List Stmt → Interpreter R (Recorder R B) →
    Except EvalError Unit × Interpreter R (Recorder R B)
  | [], i => (.ok (), i)
  | c :: cs, i =>
      match topStmt c i with
      | (.ok (.next _), j) => topStmts cs j
      | (.ok (.returned _), j) => (.ok (), j)
      | (.error e, j) => (.error e, j)

/-- Run a program on a backend and record it. -/
def program (config : Config) (b : B) (p : Program) :
    Except EvalError Unit × Interpreter R (Recorder R B) :=
  topStmts p.statements (.start config (.watch b))

/-- What is written down when a program runs on a fresh simulator. -/
def simulated (config : Config) (p : Program) : List (LogEntry R) :=
  (program config (.seeded config.seed config.maxQubits : Simulator R) p).2.machine.backend.log

end Traced

end OpenQasm
