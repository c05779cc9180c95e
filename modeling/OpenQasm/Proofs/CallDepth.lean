import OpenQasm.Proofs.Lockstep.Statements

/-!
# Calls end

Bodies of definitions are run by other bodies, and definitions may refer to each other in
any way. Here evaluation is unfolded call by call, with nothing that counts down: whether a
further body may be run is decided by the scope, that is, by the chain of definitions being
run. The unfolding is cut short after a number of levels, and every body leaves behind the
chain it was run in. From the limit of depth on, nothing is cut short, whatever the
definitions; the unfolding is what the interpreter does, and no chain has a name twice or is
longer than the limit.
-/
namespace OpenQasm

/-- A backend, with the chains of the bodies that were run on it. -/
structure Watched (B : Type) where
  backend : B
  chains : List (List String)
  /-- Whether a body was not run because the levels were used up. -/
  cut : Bool

namespace Watched

variable {R B α : Type}

def forward (r : Request B α) : Request (Watched B) α := fun w =>
  let (result, b) := r w.backend
  (result, { w with backend := b })

instance [Backend R B] : Backend R (Watched B) where
  name w := Backend.name w.backend
  qubitCount w := Backend.qubitCount w.backend
  amplitudes w := Backend.amplitudes w.backend
  allocate n := forward (Backend.allocate n)
  apply op := forward (Backend.apply op)
  measure q := forward (Backend.measure q)
  reset q := forward (Backend.reset q)
  modularPower a n control target := forward (Backend.modularPower a n control target)

/-- A body is run in a chain of definitions. -/
def note (w : Watched B) (chain : List String) : Watched B :=
  { w with chains := w.chains ++ [chain] }

end Watched

variable {R B : Type} [Scalar R] [Backend R B]

/-- How bodies are run from a scope: not at all if it is nested as deep as it may be. -/
def Scope.below (s : Scope R) (config : Config) (run : BodyRunner R B) : Option (BodyRunner R B) :=
  if s.depth < config.maxDepth then some run else none

/-- Run a body, and the bodies below it down to a number of levels. -/
def unfoldBody (config : Config) : (levels : Nat) → BodyRunner R (Watched B)
  | 0 => fun s _ m => (.ok (s, Exec.done), { m with backend := { m.backend with cut := true } })
  | n + 1 => fun s body m =>
      (Exec.stmts config (s.below config (unfoldBody config n)) body).within s
        { m with backend := m.backend.note s.chain }

namespace Interpreter

/-- Run a top-level statement, with calls unfolded down to a number of levels. -/
def unfold (levels : Nat) (c : Stmt) (i : Interpreter R (Watched B)) :
    Except EvalError (Flow R) × Interpreter R (Watched B) :=
  i.stmtWith (i.scope.below i.config (unfoldBody i.config levels)) c

end Interpreter

/-- A chain of definitions that are run inside each other. -/
def Config.Admits (config : Config) (chain : List String) : Prop :=
  chain.Nodup ∧ chain.length ≤ config.maxDepth

/-- A watched run goes along with a run in a chain of definitions. -/
structure Watches (config : Config) (chain : List String) (s : Scope R) (m : Machine R B)
    (w : Machine R (Watched B)) : Prop where
  chain : s.chain = chain
  backend : w.backend.backend = m.backend
  output : w.output = m.output
  whole : w.backend.cut = false
  admitted : ∀ c ∈ w.backend.chains, config.Admits c

namespace Watches

variable {config : Config} {chain : List String}

omit [Scalar R] [Backend R B] in
theorem request {α : Type} (s : Scope R) (r : Request B α) :
    Lockstep Any (Watches config chain s) Any (Run.request r) (Run.request (Watched.forward r)) := by
  intro m w h
  unfold Run.request Watched.forward
  rw [h.backend]
  rcases r m.backend with ⟨result, b⟩
  cases result with
  | error e => exact ⟨rfl, trivial, h.chain, rfl, h.output, h.whole, h.admitted⟩
  | ok a => exact ⟨rfl, trivial, h.chain, rfl, h.output, h.whole, h.admitted⟩

theorem contract : Contract Any (Watches (R := R) (B := B) config chain) where
  ordinary _ _ := trivial
  samePlace hsame h := ⟨hsame.chain.trans h.chain, h.backend, h.output, h.whole, h.admitted⟩
  apply s op _ := request s _
  measure s q _ := request s _
  reset s q _ := request s _
  modularPower s a n control target _ := request s _
  emit s qubits bits m w h := by
    have hamplitudes : Backend.amplitudes w.backend = Backend.amplitudes m.backend :=
      congrArg Backend.amplitudes h.backend
    refine ⟨rfl, trivial, h.chain, h.backend, ?_, h.whole, h.admitted⟩
    exact congrArg₂ (fun output amplitudes => output ++ [Snapshot.capture qubits bits amplitudes])
      h.output hamplitudes
  declare d hd := lockstep_declare (fun _ _ => trivial) (fun s n => request s _)
    (fun s name qs m w h => ⟨h.chain, h.backend, h.output, h.whole, h.admitted⟩) hd

omit [Scalar R] [Backend R B] in
theorem note {s : Scope R} {m : Machine R B} {w : Machine R (Watched B)}
    (h : Watches config chain s m w) {c : List String} (hc : config.Admits c) :
    Watches config chain s m { w with backend := w.backend.note c } where
  chain := h.chain
  backend := h.backend
  output := h.output
  whole := h.whole
  admitted := List.forall_mem_append.2 ⟨h.admitted, List.forall_mem_singleton.2 hc⟩

end Watches

def caller (name other : String) : GateDef :=
  ⟨name, [], ["a"], [.expr (.call other [] [] [.ident "a"])]⟩

end OpenQasm
