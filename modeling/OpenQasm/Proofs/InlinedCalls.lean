import OpenQasm.Proofs.Inlining.Actuals
import OpenQasm.Proofs.Inlining.Simulation

/-!
# Calls and inlined bodies

A call of a gate without modifiers does what the body of the gate does in the scope of the
call, with the arguments put in for the formals. What is called from the body is run in
both cases, but with the parameters of the gate in scope or without them. So it must not
look these up. A register that a definition declares does not keep it from looking up a
constant of the same name further out.
-/
namespace OpenQasm

/-! Statements of a body -/

namespace Lifting

variable {R B : Type} [Scalar R] [Backend R B] {L : Lifting} {a : Actuals} {s t : Scope R}
  {deeper deeper' : Option (BodyRunner R B)} {config : Config}

mutual

theorem relates_inlined (hclosed : L.Closed) (hsim : L.Simulates deeper deeper')
    (h : L.Calls t s) (hactuals : Scope.Instantiates a t s) : ∀ {c : Stmt},
    c.Inlinable L.definitions a → L.CallsAllowed (c.calls false) →
    Exec.Relates (fun t' s' => t' = t ∧ s' = s)
      (fun flow t' s' => (t' = t ∧ s' = s) ∧ ∃ v, flow = .next v) (Exec.stmt config deeper c)
      (Exec.stmt config deeper' (c.inlined a))
  | .apply b ms ps qs, hc, _ => by
      refine Exec.Relates.bind (.ofRun ?_) fun _ => .pure fun _ _ heq => ⟨heq, _, rfl⟩
      rintro _ _ ⟨rfl, rfl⟩
      exact Run.refines_applyBuiltin (hactuals.sameParts ms ps hc) b
  | .expr (.call name ms ps qs), hc, hcalls => by
      refine Exec.Relates.bind (.ofRun ?_) fun _ => .pure fun _ _ heq => ⟨heq, _, rfl⟩
      rintro _ _ ⟨rfl, rfl⟩
      refine refines_gateCall hclosed hsim h (hactuals.sameParts ms ps hc.2) hc.1 _ id ?_
      exact List.forall_mem_singleton.2 (List.forall_mem_cons.1 hcalls).1
  | .block body, hc, hcalls => by
      intro t' s' m flow u m' heq hrun
      obtain ⟨u', hrun', hends, rfl⟩ :=
        relates_inlinedEach hclosed hsim h hactuals hc hcalls t' s' m flow u m' heq hrun
      exact ⟨u', hrun', hends, _, rfl⟩

theorem relates_inlinedEach (hclosed : L.Closed) (hsim : L.Simulates deeper deeper')
    (h : L.Calls t s) (hactuals : Scope.Instantiates a t s) : ∀ {b : List Stmt},
    Stmt.EachInlinable L.definitions a b → L.CallsAllowed (Stmt.callsIn false b) →
    Exec.Relates (fun t' s' => t' = t ∧ s' = s)
      (fun flow t' s' => (t' = t ∧ s' = s) ∧ flow = Exec.done) (Exec.stmts config deeper b)
      (Exec.stmts config deeper' (Stmt.inlinedEach a b))
  | [], _, _ => .pure fun _ _ heq => ⟨heq, rfl⟩
  | c :: cs, hb, hcalls => by
      obtain ⟨hcall, hcalls⟩ := List.forall_mem_append.1 hcalls
      refine (relates_inlined hclosed hsim h hactuals hb.1 hcall).bind fun flow => ?_
      rintro t' s' m flow' u m' ⟨heq, v, rfl⟩ hrun
      exact relates_inlinedEach hclosed hsim h hactuals hb.2 hcalls t' s' m flow' u m' heq hrun

end

end Lifting

variable {R B : Type} [Scalar R] [Backend R B]

/-- A body is run as its statements are, with one level of calls less. -/
theorem Lifting.simulates_of_runBody {L : Lifting} (hclosed : L.Closed) {config : Config} {n : Nat}
    {s : Scope R} {body : Block} {m m' : Machine R B} {ended : Scope R × Flow R}
    (h : runBody config n s body m = (.ok ended, m')) :
    ∃ deeper, Exec.stmts config deeper body (s, m) = (.ok ended.2, (ended.1, m')) ∧
      L.Simulates deeper (some (runBody config n)) := by
  cases n with
  | zero =>
      refine ⟨none, Exec.ran_within.1 h, fun run hrun => ?_⟩
      cases hrun
  | succ n =>
      refine ⟨some (runBody config n), Exec.ran_within.1 h, fun run hrun => ?_⟩
      cases hrun
      exact ⟨_, rfl, runsAlike_runBody hclosed (Nat.le_succ n)⟩

/-- What a call without modifiers runs. -/
theorem Scope.prepareGate_plain {s : Scope R} {config : Config} {gate : GateDef} {name : String}
    {ps qs : List Expr} {inner : Scope R} {body : Block}
    (h : s.prepareGate config gate ⟨name, [], ps, qs⟩ = .ok (inner, body)) :
    ∃ params targets, ps.mapM s.fold = .ok params ∧ qs.mapM s.qubitsOf = .ok targets ∧
      ps.length = gate.params.length ∧ targets.length = gate.qargs.length ∧
      inner = s.gateScope gate ⟨name, [], ps, qs⟩ [] targets params ∧ body = gate.body := by
  obtain ⟨⟨p⟩, -⟩ := prepareGate_ok h
  have happlied : p.modifiers = [] := List.eq_nil_of_length_eq_zero (length_of_applied p.applied)
  have hcontrols : p.controls = [] := by
    have hargs := p.args
    rw [happlied] at hargs
    exact List.map_eq_nil_iff.1 hargs.symm
  have hresolved := p.resolved
  have hscope := p.scope_eq
  have hbody := p.body_eq
  rw [hcontrols] at hresolved hscope
  rw [happlied] at hbody
  exact ⟨p.params, p.targets, p.fold_params, hresolved, p.length_params, p.length_targets, hscope,
    hbody⟩

namespace GateDef

def lifting (g : GateDef) (D : Definitions) : Lifting := ⟨D, g.params, g.name, D.Reaches g⟩

theorem closed_lifting {g : GateDef} {D : Definitions}
    (h : ∀ c, D.Reaches g c → c.name ≠ g.name → c.Clear D g.params) : (g.lifting D).Closed := by
  intro c hc hname
  have hclear := h c hc hname
  exact ⟨hc.allowed hclear, hclear.2⟩

omit [Scalar R] in
theorem calls_gateScope (g : GateDef) (s : Scope R) (call : Call) (controls : List QubitId)
    (targets : List (List QubitId)) (params : List (Const R)) :
    (g.lifting s.definitions).Calls (s.gateScope g call controls targets params) s where
  definitions := by
    rw [Scope.gateScope_eq]
    rfl
  definitions' := rfl
  const := fun x hx => (Scope.const?_gateScope hx s call controls targets params).symm
  chain := by
    rw [Scope.gateScope_eq]
    exact List.subset_append_left _ _
  within := by
    rw [Scope.gateScope_eq]
    exact List.mem_append_right _ List.mem_cons_self

end GateDef

/-- Where a call of a gate without modifiers succeeds, its body with the arguments put in,
run in the scope of the call, has the same outcome and leaves any backend in the same state,
be it one that writes down what it is asked for. The body applies gates only, and what it
comes to call looks up none of the parameters of the gate. -/
theorem inlined_body_runs_as_call (config : Config) (n : Nat) {s s' : Scope R} {name : String}
    {g : GateDef} (hget : s.gates.get? name = some g) (hparams : g.params.Nodup)
    (hqargs : g.qargs.Nodup) {ps qs : List Expr}
    (hbody : Stmt.EachInlinable s.definitions (g.actuals ps qs) g.body)
    (hclear : ∀ c, s.definitions.Reaches g c → c.name ≠ g.name →
      c.Clear s.definitions g.params)
    {m m' : Machine R B} {flow : Flow R}
    (hcall : Exec.stmt config (some (runBody config n)) (.expr (.call name [] ps qs)) (s, m) =
      (.ok flow, (s', m'))) :
    Exec.stmts config (some (runBody config n)) (g.inlined ps qs) (s, m) =
      (.ok flow, (s', m')) := by
  obtain ⟨rfl, rfl, inner, body, ended, -, hprepared, hrun⟩ := Scope.ran_call hget hcall
  obtain ⟨params, targets, hps, hqs, hpslen, hqslen, rfl, rfl⟩ :=
    Scope.prepareGate_plain hprepared
  have hclosed := GateDef.closed_lifting hclear
  obtain ⟨deeper, hstmts, hsim⟩ := Lifting.simulates_of_runBody hclosed hrun
  have hcalls := g.calls_gateScope s' ⟨name, [], ps, qs⟩ [] targets params
  have hactuals := Scope.instantiates_gateScope hparams hqargs hps hqs hpslen hqslen
    ⟨name, [], ps, qs⟩
  have hreach : (g.lifting s'.definitions).CallsAllowed (Stmt.callsIn false g.body) :=
    fun x hx c hc => Definitions.Reaches.refl.call hx hc
  obtain ⟨t, hinlined, ⟨-, rfl⟩, hflow⟩ := Lifting.relates_inlinedEach hclosed hsim hcalls hactuals
    hbody hreach _ _ _ _ _ _ ⟨rfl, rfl⟩ hstmts
  rw [hflow] at hinlined
  exact hinlined

def turn : GateDef := ⟨"turn", ["t"], ["a"],
  [.apply .u [] [.ident "t", .lit ⟨.int, "0"⟩, .lit ⟨.int, "0"⟩] [.ident "a"]]⟩

def turnFlip : GateDef := ⟨"g", ["t"], ["a", "b"], [
  .expr (.call "turn" [.mk .inv none] [.binary .add (.ident "t") (.lit ⟨.int, "1"⟩)]
    [.ident "a"]),
  .block [.apply .x [.mk .ctrl none] [] [.ident "a", .index "b" (.ident "t")]]]⟩

def turns : Scope Float :=
  { Scope.root with
    gates := ⟨[("turn", turn), ("g", turnFlip)]⟩
    qubits := ⟨[("q", [0, 1])]⟩ }

def watchedPair : Machine Float (Recorder Float (Simulator Float)) :=
  ⟨.watch (Backend.allocate 2 (Simulator.seeded 0 24)).2, []⟩

theorem turns_reaches {c : Callee} (h : turns.definitions.Reaches turnFlip c) :
    c = .gate turnFlip false ∨ c = .gate turn true := by
  induction h with
  | refl => exact .inl rfl
  | call _ hx hcallee ih =>
      rcases ih with rfl | rfl
      · obtain rfl : _ = ("turn", true) := by
          simpa [turnFlip, Callee.body, Callee.unordered, Stmt.callsIn, Stmt.calls, Expr.callsIn,
            Expr.calls, Modifier.mayInvert] using hx
        exact .inr (Option.some.inj hcallee).symm
      · simp [turn, Callee.body, Stmt.callsIn, Stmt.calls] at hx

theorem turns_clear (c : Callee) (h : turns.definitions.Reaches turnFlip c)
    (hname : c.name ≠ turnFlip.name) : c.Clear turns.definitions turnFlip.params := by
  rcases turns_reaches h with rfl | rfl
  · exact absurd rfl hname
  · refine ⟨⟨?_, trivial⟩, ?_⟩
    · refine ⟨?_, ?_, ?_⟩ <;> simp [turn, turnFlip, Callee.visibility, Expr.Avoids, Expr.IndexAvoids]
    · intro t ht
      cases ht

def turnFlipArgs : List Expr := [.index "q" (.lit ⟨.int, "0"⟩), .ident "q"]

/-- The targets of the operations that were asked for. -/
def Recorder.targets (t : Recorder R B) : List (List QubitId) :=
  t.log.filterMap fun entry =>
    match entry.event with
    | .apply op => some op.targets
    | _ => none

theorem inlined_turnFlip :
    turnFlip.inlined [.lit ⟨.int, "1"⟩] turnFlipArgs =
      [.expr (.call "turn" [.mk .inv none]
        [.binary .add (.paren (.lit ⟨.int, "1"⟩)) (.lit ⟨.int, "1"⟩)]
        [.index "q" (.lit ⟨.int, "0"⟩)]),
      .block [.apply .x [.mk .ctrl none] []
        [.index "q" (.lit ⟨.int, "0"⟩), .index "q" (.paren (.lit ⟨.int, "1"⟩))]]] ∧
    Exec.stmts {} (some (runBody {} 1)) (turnFlip.inlined [.lit ⟨.int, "1"⟩] turnFlipArgs)
        (turns, watchedPair) =
      Exec.stmt {} (some (runBody {} 1)) (.expr (.call "g" [] [.lit ⟨.int, "1"⟩] turnFlipArgs))
        (turns, watchedPair) ∧
    (Exec.stmt {} (some (runBody {} 1)) (.expr (.call "g" [] [.lit ⟨.int, "1"⟩] turnFlipArgs))
      (turns, watchedPair)).2.2.backend.targets = [[0], [1]] := by
  have hcall : (Exec.stmt {} (some (runBody {} 1))
      (.expr (.call "g" [] [.lit ⟨.int, "1"⟩] turnFlipArgs)) (turns, watchedPair)).1.isOk = true := by
    decide +kernel
  have hbody : Stmt.EachInlinable turns.definitions
      (turnFlip.actuals [.lit ⟨.int, "1"⟩] turnFlipArgs) turnFlip.body := by
    refine ⟨⟨fun hnone => ?_, ?_⟩, ⟨?_, trivial⟩, trivial⟩
    · cases hnone
    · simp [Expr.Whole]
    · simp [Stmt.Inlinable, Expr.Whole, GateDef.actuals, turnFlip, turnFlipArgs, List.lookup_cons]
  obtain ⟨flow, hflow⟩ := exists_of_isOk hcall
  refine ⟨rfl, ?_, by decide +kernel⟩
  rw [inlined_body_runs_as_call {} 1 rfl (by decide) (by decide) hbody turns_clear hflow, ← hflow]

def flipFirst : GateDef := ⟨"flip", [], ["a"], [
  .declare ⟨⟨.bit, none⟩, "t"⟩,
  .expr (.call "x" [] [] [.index "a" (.ident "t")])]⟩

def flipBelow : GateDef := ⟨"g", ["t"], ["a"], [.expr (.call "flip" [] [] [.ident "a"])]⟩

def flips : Scope Float :=
  { Scope.root with
    gates := ⟨[("flip", flipFirst), ("g", flipBelow)]⟩
    qubits := ⟨[("q", [0, 1])]⟩ }

/-- The parameter comes before the bit that the other definition declares for itself. So the
call flips another qubit than the body does where it stands. -/
theorem parameter_hides_declared_bit :
    Stmt.EachInlinable flips.definitions (flipBelow.actuals [.lit ⟨.int, "1"⟩] [.ident "q"])
      flipBelow.body ∧
    flipBelow.inlined [.lit ⟨.int, "1"⟩] [.ident "q"] =
      [.expr (.call "flip" [] [] [.ident "q"])] ∧
    (Exec.stmt {} (some (runBody {} 1)) (.expr (.call "g" [] [.lit ⟨.int, "1"⟩] [.ident "q"]))
      (flips, watchedPair)).1.isOk = true ∧
    (Exec.stmt {} (some (runBody {} 1)) (.expr (.call "g" [] [.lit ⟨.int, "1"⟩] [.ident "q"]))
      (flips, watchedPair)).2.2.backend.targets = [[1]] ∧
    (Exec.stmts {} (some (runBody {} 1)) (flipBelow.inlined [.lit ⟨.int, "1"⟩] [.ident "q"])
      (flips, watchedPair)).2.2.backend.targets = [[0]] := by
  refine ⟨⟨⟨fun hnone => ?_, ?_⟩, trivial⟩, rfl, ?_, ?_, ?_⟩
  · cases hnone
  · simp [Expr.Whole]
  · decide +kernel
  · decide +kernel
  · decide +kernel

end OpenQasm
