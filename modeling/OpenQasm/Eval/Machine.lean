import OpenQasm.Eval.Snapshot
import OpenQasm.Quantum.Backend
import OpenQasm.Scope.Scope

/-!
# The machine behind a run

A run changes a backend and collects the snapshots it prints. What it changed
before it failed stays changed.
-/
namespace OpenQasm

/-- Limits and seed of a run. -/
structure Config where
  /-- The deepest nesting of calls. -/
  maxDepth : Nat := 64
  /-- The largest number of simulated qubits. -/
  maxQubits : Nat := 24
  /-- The longest body that `pow` may unroll a gate to. -/
  maxUnroll : Nat := 100000
  seed : UInt64 := 0
  deriving DecidableEq, Repr

/-- What a run acts on besides its scope. -/
structure Machine (R B : Type) where
  backend : B
  /-- Snapshots in the order they were printed. -/
  output : List (Snapshot R)

/-- An action on a machine that may fail. -/
abbrev Run (R B α : Type) := ExceptT EvalError (StateM (Machine R B)) α

namespace Run

variable {R B α : Type}

def request (r : Request B α) : Run R B α := fun m =>
  match r m.backend with
  | (.ok a, b) => (.ok a, { m with backend := b })
  | (.error e, b) => (.error (.backend e), { m with backend := b })

def emit (s : Snapshot R) : Run R B Unit := fun m =>
  (.ok (), { m with output := m.output ++ [s] })

end Run

end OpenQasm
