import OpenQasm.Eval.Exec
import OpenQasm.Quantum.Simulator

/-!
# The interpreter

An interpreter keeps the global scope and a machine between statements, so a
program can be fed to it in pieces. An error of a top-level statement names the
statement.
-/
namespace OpenQasm

/-- A run that can be continued. -/
structure Interpreter (R B : Type) where
  config : Config
  scope : Scope R
  machine : Machine R B

namespace Interpreter

variable {R B : Type} [Scalar R]

def start (config : Config) (backend : B) : Interpreter R B := ⟨config, .root, ⟨backend, []⟩⟩

def simulate (config : Config) : Interpreter R (Simulator R) :=
  start config (.seeded config.seed config.maxQubits)

variable [Backend R B]

def stmt (s : Stmt) (i : Interpreter R B) : Except EvalError (Flow R) × Interpreter R B :=
  match Exec.stmt i.config (bodyRunner? i.config) s (i.scope, i.machine) with
  | (.ok flow, (scope, machine)) => (.ok flow, { i with scope, machine })
  | (.error e, (scope, machine)) => (.error (.inStatement e s.text), { i with scope, machine })

/-- Run a top-level statement for its value. -/
def value (s : Stmt) (i : Interpreter R B) : Except EvalError (Value R) × Interpreter R B :=
  match i.stmt s with
  | (.ok (.next v), j) => (.ok v, j)
  | (.ok (.returned v), j) => (.ok v, j)
  | (.error e, j) => (.error e, j)

/-- Run statements up to an error or a `return`. -/
def stmts : List Stmt → Interpreter R B → Except EvalError Unit × Interpreter R B
  | [], i => (.ok (), i)
  | s :: ss, i =>
      match i.stmt s with
      | (.ok (.next _), j) => stmts ss j
      | (.ok (.returned _), j) => (.ok (), j)
      | (.error e, j) => (.error e, j)

def program (p : Program) (i : Interpreter R B) : Except EvalError Unit × Interpreter R B :=
  i.stmts p.statements

/-- The snapshots printed since they were last taken, and the interpreter without them. -/
def takeOutput (i : Interpreter R B) : List (Snapshot R) × Interpreter R B :=
  (i.machine.output, { i with machine := { i.machine with output := [] } })

/-- All global registers and the quantum state. -/
def snapshot (i : Interpreter R B) : Snapshot R :=
  let (qubits, bits) := i.scope.allViews
  Snapshot.capture qubits bits (Backend.amplitudes i.machine.backend)

end Interpreter

end OpenQasm
