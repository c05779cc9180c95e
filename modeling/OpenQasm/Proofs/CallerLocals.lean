import OpenQasm.Proofs.InlinedCalls
import OpenQasm.Proofs.Scoping.Bodies

/-!
# What a gate sees of its caller

A gate does not see the registers of the scope that it is called from. Its constants and
variables it does see: a name is looked up in the scopes of all callers in turn, and in the
global scope last. So a call does the same from two scopes under one global scope if neither
the gate nor what it comes to call looks up a name that they disagree about.
-/
namespace OpenQasm

namespace Scope

variable {R : Type}

/-- The scalars of the global scope. -/
def globals (s : Scope R) : Table (Binding R) :=
  (s.scalars :: s.outer).getLast (List.cons_ne_nil _ _)

/-- The names of the scalars of this scope and of those around it, below the global one. -/
def locals (s : Scope R) : List String := (s.scalars :: s.outer).dropLast.flatMap Table.names

/-- A name that no scope below the global one binds is looked up there. -/
theorem const?_of_notMem_locals {s : Scope R} {x : String} (hx : x ∉ s.locals) :
    s.const? x = (s.globals.get? x).map Binding.value := by
  have hsplit : s.scalars :: s.outer = (s.scalars :: s.outer).dropLast ++ [s.globals] :=
    (List.dropLast_append_getLast (List.cons_ne_nil _ _)).symm
  have hnone : (s.scalars :: s.outer).dropLast.findSome? (·.get? x) = none := by
    rw [List.findSome?_eq_none_iff]
    intro t ht
    refine List.lookup_eq_none_iff.2 fun p hp => ?_
    refine bne_iff_ne.2 fun heq => hx ?_
    exact List.mem_flatMap.2 ⟨t, ht, List.mem_map.2 ⟨p, hp, heq.symm⟩⟩
  rw [const?, hsplit, List.findSome?_append, hnone, Option.none_or, List.findSome?_singleton]

variable {s s' : Scope R} {names : List String}

/-- Scopes under one global scope find the same constants, but for the names that they
disagree about. -/
theorem const?_eq_of_globals (hglobals : s'.globals = s.globals)
    (hnames : ∀ x ∈ s.locals ++ s'.locals, x ∈ names ∨ s'.const? x = s.const? x) {x : String}
    (hx : x ∉ names) : s'.const? x = s.const? x := by
  by_cases hlocal : x ∈ s.locals ++ s'.locals
  · exact (hnames x hlocal).resolve_left hx
  · rw [List.mem_append, not_or] at hlocal
    rw [const?_of_notMem_locals hlocal.1, const?_of_notMem_locals hlocal.2, hglobals]

end Scope

variable {R B : Type}

/-- Scopes under one global scope, and what running a gate comes to. -/
def GateDef.outlook (g : GateDef) (D : Definitions) (names : List String) : Outlook :=
  ⟨D, names, D.Reaches g⟩

theorem GateDef.closed_outlook {g : GateDef} {D : Definitions} {names : List String}
    (h : ∀ c, D.Reaches g c → c.Clear D names) : (g.outlook D names).Closed :=
  fun c hc => ⟨hc.allowed (h c hc), (h c hc).2⟩

variable [Scalar R] [Backend R B]

/-- A gate that is called without modifiers, on the same qubits and with the same parameters,
from two scopes under one global scope, has the same result and leaves any backend in the same
state, be it one that writes down what it is asked for. What the gate comes to call looks up
none of the names that the scopes disagree about. No run ends because of a guard, or because a
constant of such a name was assigned to. -/
theorem gate_call_ignores_locals (config : Config) (k n : Nat) {s s' : Scope R}
    (hglobals : s'.globals = s.globals) (hdefinitions : s'.definitions = s.definitions)
    {name : String} {g : GateDef} (hget : s.gates.get? name = some g) {names : List String}
    (hnames : ∀ x ∈ s.locals ++ s'.locals, x ∈ names ∨ s'.const? x = s.const? x)
    (hclear : ∀ c, s.definitions.Reaches g c → c.Clear s.definitions names)
    {ps ps' qs qs' : List Expr} {params : List (Const R)} {targets : List (List QubitId)}
    (hps : ps.mapM s.fold = .ok params) (hps' : ps'.mapM s'.fold = .ok params)
    (hqs : qs.mapM s.qubitsOf = .ok targets) (hqs' : qs'.mapM s'.qubitsOf = .ok targets)
    {m : Machine R B}
    (hends : ∀ e, (Run.value config (runnerAt? config k) s (.call name [] ps qs) m).1 = .error e →
      ¬e.TellsCaller names)
    (hends' : ∀ e,
      (Run.value config (runnerAt? config n) s' (.call name [] ps' qs') m).1 = .error e →
      ¬e.TellsCaller names) :
    Run.value config (runnerAt? config n) s' (.call name [] ps' qs') m =
      Run.value config (runnerAt? config k) s (.call name [] ps qs) m := by
  have hget' : s'.gates.get? name = some g := by
    rw [show s'.gates = s.gates from congrArg Definitions.gates hdefinitions, hget]
  have hclosed := GateDef.closed_outlook hclear
  have hcalls : (g.outlook s.definitions names).Calls s s' :=
    ⟨rfl, hdefinitions, fun _ hx => Scope.const?_eq_of_globals hglobals hnames hx⟩
  have hhandover : s'.handover config g ⟨name, [], ps', qs'⟩ =
      s.handover config g ⟨name, [], ps, qs⟩ := by
    rw [Scope.handover_plain hps hqs, Scope.handover_plain hps' hqs']
  have hsim : (g.outlook s.definitions names).Simulates (R := R) (B := B) (runnerAt? config k)
      (runnerAt? config n) := Outlook.simulates_runnerAt hclosed k n
  have hsame := Outlook.same_callGate hclosed hsim hcalls Definitions.Reaches.refl hhandover rfl
    fun _ => rfl
  have hvalue : Run.value config (runnerAt? (B := B) config k) s (.call name [] ps qs) =
      Run.callGate config (runnerAt? config k) s g ⟨name, [], ps, qs⟩ := by
    rw [Run.value, hget]
  have hvalue' : Run.value config (runnerAt? (B := B) config n) s' (.call name [] ps' qs') =
      Run.callGate config (runnerAt? config n) s' g ⟨name, [], ps', qs'⟩ := by
    rw [Run.value, hget']
  rw [hvalue] at hends ⊢
  rw [hvalue'] at hends' ⊢
  exact hsame.outcome hends hends'

def turnsBelow : Scope Float :=
  turns.gateScope ⟨"h", ["t", "u"], ["a", "q"], []⟩ ⟨"h", [], [], []⟩ [] [[0], [0, 1]]
    [.int 1, .int 7]

theorem turns_clear_below (c : Callee) (h : turns.definitions.Reaches turnFlip c) :
    c.Clear turns.definitions ["t", "u"] := by
  rcases turns_reaches h with rfl | rfl
  · refine ⟨⟨⟨?_, ?_, ?_⟩, ⟨⟨?_, ?_, ?_⟩, trivial⟩, trivial⟩, ?_⟩
    · exact List.forall_mem_singleton.2 fun e he => by cases he
    · simp [Expr.IndexAvoids]
    · change ∀ e ∈ [Expr.binary BinaryOp.add (.ident "t") (.lit ⟨.int, "1"⟩)],
        e.Avoids ((Callee.gate turnFlip false).visibility ["t", "u"]).hidden
      simp [Expr.Avoids, Callee.visibility, turnFlip]
    · exact List.forall_mem_singleton.2 fun e he => by cases he
    · simp
    · simp [Expr.IndexAvoids, Expr.Avoids, Callee.visibility, Stmt.visibility, turnFlip]
    · intro t ht
      cases ht
  · refine ⟨⟨?_, trivial⟩, ?_⟩
    · refine ⟨?_, ?_, ?_⟩ <;> simp [turn, Callee.visibility, Expr.Avoids, Expr.IndexAvoids]
    · intro t ht
      cases ht

theorem gate_call_ignores_locals_turnFlip :
    turnsBelow.locals = ["t", "u"] ∧
    Run.value {} (runnerAt? {} 3) turns
        (.call "g" [] [.lit ⟨.int, "1"⟩] turnFlipArgs) watchedPair =
      Run.value {} (runnerAt? {} 2) turnsBelow
        (.call "g" [] [.ident "t"] [.ident "a", .ident "q"]) watchedPair ∧
    (Run.value {} (runnerAt? {} 2) turnsBelow
      (.call "g" [] [.ident "t"] [.ident "a", .ident "q"]) watchedPair).2.backend.targets =
        [[0], [1]] := by
  have hbelow : (Run.value {} (runnerAt? {} 2) turnsBelow
      (.call "g" [] [.ident "t"] [.ident "a", .ident "q"]) watchedPair).1.isOk = true := by
    decide +kernel
  have hcall : (Run.value {} (runnerAt? {} 3) turns
      (.call "g" [] [.lit ⟨.int, "1"⟩] turnFlipArgs) watchedPair).1.isOk = true := by
    decide +kernel
  have hlocals : turnsBelow.locals = ["t", "u"] := rfl
  have hglobals : turns.globals = turnsBelow.globals := rfl
  have hget : turnsBelow.gates.get? "g" = some turnFlip := rfl
  have hnames : ∀ x ∈ turnsBelow.locals ++ turns.locals,
      x ∈ ["t", "u"] ∨ turns.const? x = turnsBelow.const? x := fun x hx => .inl hx
  have hps : [Expr.ident "t"].mapM turnsBelow.fold = .ok [.int 1] := rfl
  have hps' : [Expr.lit ⟨.int, "1"⟩].mapM turns.fold = .ok [.int 1] := rfl
  have hqs : [Expr.ident "a", .ident "q"].mapM turnsBelow.qubitsOf = .ok [[0], [0, 1]] := rfl
  have hqs' : turnFlipArgs.mapM turns.qubitsOf = .ok [[0], [0, 1]] := rfl
  refine ⟨hlocals, ?_, by decide +kernel⟩
  refine gate_call_ignores_locals {} 2 3 hglobals rfl hget hnames turns_clear_below hps hps'
    hqs hqs' ?_ ?_
  · intro e he
    rw [he] at hbelow
    cases hbelow
  · intro e he
    rw [he] at hcall
    cases hcall

def flipAt : GateDef := ⟨"f", [], ["a"], [.expr (.call "x" [] [] [.index "a" (.ident "t")])]⟩

def flipAtBelow : GateDef := ⟨"g", ["t"], ["a"], [.expr (.call "f" [] [] [.ident "a"])]⟩

def placed : Scope Float :=
  { Scope.root.setConst "t" (.int 0) with
    gates := ⟨[("f", flipAt), ("g", flipAtBelow)]⟩
    qubits := ⟨[("q", [0, 1])]⟩ }

def placedBelow : Scope Float :=
  placed.gateScope flipAtBelow ⟨"g", [], [.lit ⟨.int, "1"⟩], [.ident "q"]⟩ [] [[0, 1]] [.int 1]

/-- The parameter of the caller comes before the constant of the program. So the call flips
another qubit than it does in the global scope. -/
theorem caller_parameter_hides_global :
    placedBelow.globals = placed.globals ∧ placedBelow.definitions = placed.definitions ∧
    placed.gates.get? "f" = some flipAt ∧
    [Expr.ident "q"].mapM placed.qubitsOf = .ok [[0, 1]] ∧
    [Expr.ident "a"].mapM placedBelow.qubitsOf = .ok [[0, 1]] ∧
    (Run.value {} (runnerAt? {} 2) placed (.call "f" [] [] [.ident "q"]) watchedPair).1 =
      .ok .none ∧
    (Run.value {} (runnerAt? {} 1) placedBelow (.call "f" [] [] [.ident "a"]) watchedPair).1 =
      .ok .none ∧
    (Run.value {} (runnerAt? {} 2) placed (.call "f" [] [] [.ident "q"])
      watchedPair).2.backend.targets = [[0]] ∧
    (Run.value {} (runnerAt? {} 1) placedBelow (.call "f" [] [] [.ident "a"])
      watchedPair).2.backend.targets = [[1]] := by
  refine ⟨rfl, rfl, rfl, rfl, rfl, ?_, ?_, ?_, ?_⟩
  · rfl
  · rfl
  · decide +kernel
  · decide +kernel

end OpenQasm
