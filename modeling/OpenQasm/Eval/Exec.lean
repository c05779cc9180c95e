import OpenQasm.Eval.Body
import OpenQasm.Eval.GateCall
import OpenQasm.Scope.Assign

/-!
# Running statements

Statements run in a scope on a machine. Evaluation is a pair of nested recursions.
The inner one follows the syntax tree and is given a way to run the bodies of
definitions, or none when calls are nested as deep as they may be. The outer one
counts down the depth that is left. So every run ends, whatever definitions refer
to each other.

Values are computed without changing the scope; only statements change it. When a
statement fails, what it changed before stays changed.
-/
namespace OpenQasm

/-- How control leaves a statement, with the value of an expression or a return. -/
inductive Flow (R : Type) where
  | next (v : Value R)
  | returned (v : Value R)

inductive Arg (R : Type) where
  | qubits (qs : List QubitId)
  | bits (bs : List Bool)
  | scalar (c : Const R)

/-- Runs the body of a definition in its scope; returns the scope it ends in. -/
abbrev BodyRunner (R B : Type) := Scope R → List Stmt → Run R B (Scope R × Flow R)

/-- An action on a scope and a machine that may fail. -/
abbrev Exec (R B α : Type) := ExceptT EvalError (StateM (Scope R × Machine R B)) α

namespace Exec

variable {R B α : Type}

/-- An action that reads the scope and acts on the machine. -/
def ofRun (f : Scope R → Run R B α) : Exec R B α := fun (s, m) =>
  let (result, m') := f s m
  (result, (s, m'))

/-- An action that changes the scope, or fails and leaves it. -/
def update (f : Scope R → Except EvalError (Scope R)) : Exec R B Unit := fun (s, m) =>
  match f s with
  | .ok s' => (.ok (), (s', m))
  | .error e => (.error e, (s, m))

/-- Run an action in a scope of its own. -/
def within (x : Exec R B α) (s : Scope R) : Run R B (Scope R × α) := fun m =>
  match x (s, m) with
  | (.ok a, (s', m')) => (.ok (s', a), m')
  | (.error e, (_, m')) => (.error e, m')

end Exec

variable {R B : Type} [Scalar R] [Backend R B]

namespace Scope

/-- Measurements and resets are refused in a call that carries modifiers. -/
def checkUnitary (s : Scope R) (what : String) : Except EvalError Unit :=
  match s.modifiers with
  | [] => .ok ()
  | m :: _ =>
      .error (.invalidModifier (.onNonUnitary m.kind what (s.chain.getLast?.getD "")))

/-- The qubits a measurement refers to; without arguments, all of the scope. -/
def measuredQubits (s : Scope R) (qargs : List Expr) : Except EvalError (List QubitId) :=
  if qargs.isEmpty then .ok s.qubits.all else do return (← qargs.mapM s.qubitsOf).flatten

/-- The registers that a snapshot of everything shows. Control qubits of a call are
not among them. -/
def allViews (s : Scope R) : List QubitView × List BitView :=
  ((s.qubits.entries.filter fun (name, _) => !controlStem.toList.isPrefixOf name.toList).map
      fun (name, qs) => ⟨name, qs⟩,
    s.bits.entries.map fun (name, bs) => ⟨name, bs⟩)

/-- The registers that arguments refer to. -/
def views (s : Scope R) : List Expr → Except EvalError (List QubitView × List BitView)
  | [] => .ok ([], [])
  | e :: es => do
      let (name, _) ← s.reference e
      if s.qubits.contains name then
        let view : QubitView := ⟨e.text, ← s.qubitsOf e⟩
        let (qubits, bits) ← s.views es
        return (view :: qubits, bits)
      else if s.bits.contains name then
        let view : BitView := ⟨e.text, ← s.bitsOf e⟩
        let (qubits, bits) ← s.views es
        return (qubits, view :: bits)
      else throw (.undefined name)

/-- A definition may not be run inside itself, nor deeper than the limit. -/
def enter (s : Scope R) (config : Config) (deeper : Option (BodyRunner R B)) (name : String) :
    Except EvalError (BodyRunner R B) :=
  if name ∈ s.chain then .error (.recursion name)
  else match deeper with
    | none => .error (.depthLimit config.maxDepth)
    | some run => .ok run

def gateScope (s : Scope R) (gate : GateDef) (call : Call) (controls : List QubitId)
    (targets : List (List QubitId)) (params : List (Const R)) : Scope R :=
  let s₀ := s.enclosed gate.name call.modifiers
  let s₁ := controls.zipIdx.foldl (fun t (q, i) => t.addQubits (controlName i) [q]) s₀
  let s₂ := (gate.qargs.zip targets).foldl (fun t (name, qs) => t.addQubits name qs) s₁
  (gate.params.zip params).foldl (fun t (name, c) => t.setConst name c) s₂

/-- The scope and the transformed body that a call of a gate runs. -/
def prepareGate (s : Scope R) (config : Config) (gate : GateDef) (call : Call) :
    Except EvalError (Scope R × Block) := do
  if call.params.length ≠ gate.params.length then
    throw (.arity gate.name .parameter gate.params.length call.params.length)
  let params ← call.params.mapM s.fold
  let counted ← s.countControls call.modifiers
  let total := counted.foldl (fun total c => total + c.snd) 0
  let n := wordOf total
  let expected := wordOf (n + gate.qargs.length)
  if call.qargs.length ≠ expected then
    throw (.arity gate.name .qubit expected call.qargs.length)
  let controls ← (call.qargs.take n).mapM s.singleQubit
  let targets ← (call.qargs.drop n).mapM s.qubitsOf
  let body ← s.modifyBody gate config.maxUnroll 0 counted
  gate.checkExpansion total body
  return (s.gateScope gate call controls targets params, body)

def bindArg (s : Scope R) (name : String) : Arg R → Except EvalError (Scope R)
  | .qubits qs => .ok (s.addQubits name qs)
  | .bits bs => .ok (s.addBits name bs)
  | .scalar c => s.setVariable name c

def subroutineScope (s : Scope R) (d : SubroutineDef) (args : List (Arg R))
    (qargs : List Expr) : Except EvalError (Scope R) := do
  let qubits ← qargs.mapM s.qubitsOf
  let s₀ := s.enclosed d.name []
  let s₁ ← (d.params.zip args).foldlM (fun t (p, arg) => t.bindArg p.name arg) s₀
  return (d.qargs.zip qubits).foldl (fun t (name, qs) => t.addQubits name qs) s₁

/-- Convert the result of a subroutine to its declared type. -/
def convertResult (s : Scope R) (d : SubroutineDef) (v : Value R) : Except EvalError (Value R) :=
  match d.result with
  | none => .ok v
  | some t =>
      match t.kind with
      | .bit => do return .bits (← v.toBits (← s.typeSize t))
      | .qubit => .error (.typeMismatch (.qubitResult d.name))
      | kind => do return .const (← (← v.toConst).coerce kind)

end Scope

namespace Run

def measureEach : List QubitId → Run R B (List Bool)
  | [] => pure []
  | q :: qs => do
      let b ← request (Backend.measure q)
      return b :: (← measureEach qs)

def measure (s : Scope R) (qargs : List Expr) : Run R B (Value R) := do
  s.checkUnitary "measure"
  let qs ← s.measuredQubits qargs
  return .bits (← measureEach qs)

/-- Reset the qubits of each argument in turn. -/
def resetEach (s : Scope R) : List Expr → Run R B Unit
  | [] => pure ()
  | e :: es => do
      let qs ← s.qubitsOf e
      qs.forM fun q => request (Backend.reset q)
      resetEach s es

def reset (s : Scope R) (qargs : List Expr) : Run R B Unit := do
  s.checkUnitary "reset"
  resetEach s qargs

/-- A snapshot of some registers, or of all in scope. -/
def print (s : Scope R) (args : List Expr) : Run R B Unit := do
  let (qubits, bits) ← if args.isEmpty then pure s.allViews else s.views args
  emit (Snapshot.capture qubits bits (Backend.amplitudes (← get).backend))

def callGate (config : Config) (deeper : Option (BodyRunner R B)) (s : Scope R) (gate : GateDef)
    (call : Call) : Run R B (Value R) := do
  let run ← s.enter config deeper gate.name
  let (inner, body) ← s.prepareGate config gate call
  let _ ← run inner body
  return .none

/-- Call a subroutine whose arguments are evaluated by `args`. -/
def callSubroutine (config : Config) (deeper : Option (BodyRunner R B)) (s : Scope R)
    (d : SubroutineDef) (call : Call) (args : Run R B (List (Arg R))) : Run R B (Value R) := do
  if let m :: _ := call.modifiers then
    throw (.invalidModifier (.onSubroutine m.kind d.name))
  let run ← s.enter config deeper d.name
  if call.params.length ≠ d.params.length then
    throw (.arity d.name .argument d.params.length call.params.length)
  if call.qargs.length ≠ d.qargs.length then
    throw (.arity d.name .qubit d.qargs.length call.qargs.length)
  let inner ← s.subroutineScope d (← args) call.qargs
  match ← run inner d.body with
  | (final, .returned v) => final.convertResult d v
  | (final, .next _) => final.convertResult d .none

mutual

/-- Evaluate an expression. Bit registers read as bits; measurements and calls run. -/
def value (config : Config) (deeper : Option (BodyRunner R B)) (s : Scope R) :
    Expr → Run R B (Value R)
  | .measure qargs => measure s qargs
  | .call name ms ps qs =>
      match s.gates.get? name with
      | some gate => callGate config deeper s gate ⟨name, ms, ps, qs⟩
      | none =>
          match s.subroutines.get? name with
          | some d =>
              callSubroutine config deeper s d ⟨name, ms, ps, qs⟩
                (arguments config deeper s d.params ps)
          | none =>
              match StandardGate.ofName? name with
              | some gate => do
                  applyStandard s gate ms ps qs
                  return .none
              | none => throw (.unknownGate name)
  | .ident name =>
      if s.bits.contains name then do return .bits (← s.bitsOf (.ident name))
      else do return .const (← s.fold (.ident name))
  | .index name i =>
      if s.bits.contains name then do return .bits (← s.bitsOf (.index name i))
      else do return .const (← s.fold (.index name i))
  | .lit l => do return .const (← s.fold (.lit l))
  | .binary op l r => do return .const (← s.fold (.binary op l r))
  | .unary op e => do return .const (← s.fold (.unary op e))
  | .paren e => do return .const (← s.fold (.paren e))

/-- Evaluate arguments for the parameters of a subroutine, from left to right. -/
def arguments (config : Config) (deeper : Option (BodyRunner R B)) (s : Scope R)
    (params : List TypedName) : List Expr → Run R B (List (Arg R))
  | [] => pure []
  | e :: es =>
      match params with
      | [] => pure []
      | p :: ps => do
          let arg ← match p.type.kind with
            | .qubit => do
                let qs ← s.qubitsOf e
                let size ← s.declaredSize p
                if qs.length ≠ size then throw (.sizeMismatch size qs.length)
                pure (Arg.qubits qs)
            | .bit => do
                let size ← s.declaredSize p
                let v ← value config deeper s e
                pure (Arg.bits (← v.toBits size))
            | kind => do
                let v ← value config deeper s e
                pure (Arg.scalar (← (← v.toConst).coerce kind))
          return arg :: (← arguments config deeper s ps es)

end

end Run

namespace Exec

/-- The flow of a statement without a value. -/
def done : Flow R := .next .none

/-- Declare a register or a variable. Qubits can only be declared globally. -/
def declare (d : TypedName) : Exec R B Unit :=
  match d.type.kind with
  | .qubit => do
      let qs ← ofRun fun s => do
        if !s.isGlobal then throw (.notGlobal d.name)
        let size ← s.declaredSize d
        Run.request (Backend.allocate size)
      update fun s => .ok (s.addQubits d.name qs)
  | .bit => update fun s => do
      return s.addBits d.name (List.replicate (← s.declaredSize d) false)
  | kind => update fun s => do s.setVariable d.name (← Const.coerce kind (.int 0))

def declareConst (type : Option TypeSpec) (name : String) (e : Expr) : Exec R B Unit :=
  update fun s => do
    let c ← s.fold e
    match type with
    | none => return s.setConst name c
    | some t => return s.setConst name (← c.coerce t.kind)

mutual

/-- Run a statement. -/
def stmt (config : Config) (deeper : Option (BodyRunner R B)) : Stmt → Exec R B (Flow R)
  | .version _ => pure done
  | .includes _ => pure done
  | .declare d => do
      declare d
      return done
  | .const type name e => do
      declareConst type name e
      return done
  | .gate name params qargs body => do
      update fun s => s.addGate ⟨name, params, qargs, body⟩
      return done
  | .subroutine name params qargs result body => do
      update fun s => s.addSubroutine ⟨name, params, qargs, result, body⟩
      return done
  | .returns none => return .returned .none
  | .returns (some e) => do return .returned (← ofRun fun s => Run.value config deeper s e)
  | .arrow e target => do
      let v ← ofRun fun s => Run.value config deeper s e
      update fun s => s.assign target v
      return done
  | .assign target e => do
      let v ← ofRun fun s => Run.value config deeper s e
      update fun s => s.assign target v
      return done
  | .reset qargs => do
      ofRun fun s => Run.reset s qargs
      return done
  | .print args => do
      ofRun fun s => Run.print s args
      return done
  | .apply gate ms params qargs => do
      ofRun fun s => Run.applyBuiltin s gate ms params qargs
      return done
  | .expr (.call name ms ps qs) => do
      return .next (← ofRun fun s => Run.value config deeper s (.call name ms ps qs))
  | .expr (.measure qargs) => do
      return .next (← ofRun fun s => Run.value config deeper s (.measure qargs))
  | .expr e => throw (.noEffect e.text)
  | .block body => stmts config deeper body

/-- Run statements in order until one of them returns. -/
def stmts (config : Config) (deeper : Option (BodyRunner R B)) : List Stmt → Exec R B (Flow R)
  | [] => pure done
  | s :: ss => do
      match ← stmt config deeper s with
      | .returned v => return .returned v
      | .next _ => stmts config deeper ss

end

end Exec

/-- Run a body with `depth` further levels of calls below it. -/
def runBody (config : Config) : (depth : Nat) → BodyRunner R B
  | 0 => fun s body => (Exec.stmts config none body).within s
  | n + 1 => fun s body => (Exec.stmts config (some (runBody config n)) body).within s

/-- How the bodies of definitions called from the global scope are run. -/
def bodyRunner? (config : Config) : Option (BodyRunner R B) :=
  match config.maxDepth with
  | 0 => none
  | n + 1 => some (runBody config n)

end OpenQasm
