import OpenQasm.Proofs.Lockstep.Statements
import OpenQasm.Proofs.Modifiers.Resolution

/-!
# What statements make of a scope

A statement that is not a block changes the scope it runs in as the last thing it does, or it
fails and leaves the scope as it was. What it calls runs in scopes of its own. So after a list
of statements, up to an error, a return or the end, the scope is the one that the statements
run so far have made by their own updates; no call has a part in that. The backend is another
matter: what was asked of it before a failure stays done.
-/
namespace OpenQasm

variable {R B α β : Type}

/-! Actions that change a scope at their end or not at all -/

/-- From a scope, an action ends in a scope with a property, or fails in the scope itself. -/
def Exec.Commits (x : Exec R B α) (s : Scope R) (P : α → Scope R → Prop) : Prop :=
  ∀ m, match x (s, m) with
    | (.ok a, (t, _)) => P a t
    | (.error _, (t, _)) => t = s

namespace Exec.Commits

variable {x : Exec R B α} {s : Scope R} {P : α → Scope R → Prop}

theorem throw (e : EvalError) : Commits (B := B) (throw e) s P := fun _ => rfl

theorem pure {a : α} (h : P a s) : Commits (B := B) (pure a) s P := fun _ => h

theorem ofRun (f : Scope R → Run R B α) :
    Commits (ofRun f) s fun a t => t = s ∧ ∃ m m', f s m = (.ok a, m') := by
  intro m
  unfold Exec.ofRun
  dsimp only
  rcases hf : f s m with ⟨_ | a, m'⟩
  · rfl
  · exact ⟨rfl, m, m', hf⟩

theorem update (f : Scope R → Except EvalError (Scope R)) :
    Commits (B := B) (update f) s fun _ t => f s = .ok t := by
  intro m
  unfold Exec.update
  dsimp only
  cases hf : f s with
  | error e => rfl
  | ok t => rfl

/-- An action goes on from the scope it has read. -/
theorem read {Q : α → Prop} {f : α → Exec R B β} {S : β → Scope R → Prop}
    (hx : Commits x s fun a t => t = s ∧ Q a) (hf : ∀ a, Q a → Commits (f a) s S) :
    Commits (x >>= f) s S := by
  intro m
  have hm := hx m
  rw [run_bind]
  revert hm
  rcases x (s, m) with ⟨_ | a, t, m₁⟩
  · exact id
  · rintro ⟨rfl, hQ⟩
    exact hf a hQ m₁

/-- Nothing fails after the scope was changed. -/
theorem map {S : β → Scope R → Prop} (g : α → β) (hx : Commits x s P)
    (h : ∀ a t, P a t → S (g a) t) : Commits (x >>= fun a => Pure.pure (g a)) s S := by
  intro m
  have hm := hx m
  rw [run_bind]
  revert hm
  rcases x (s, m) with ⟨_ | a, t, m₁⟩
  · exact id
  · exact h a t

theorem mono {P' : α → Scope R → Prop} (hx : Commits x s P) (h : ∀ a t, P a t → P' a t) :
    Commits x s P' := by
  intro m
  have hm := hx m
  revert hm
  rcases x (s, m) with ⟨_ | a, t, m₁⟩
  · exact id
  · exact h a t

/-- An action on the machine alone. -/
theorem act (f : Scope R → Run R B α) (flow : α → β) :
    Commits (do return flow (← Exec.ofRun f)) s fun _ t => t = s :=
  (ofRun f).map flow fun _ _ h => h.1

end Exec.Commits

variable [Scalar R]

/-! Single statements -/

def Stmt.isBlock : Stmt → Bool
  | .block _ => true
  | _ => false

/-- What a declaration makes of a scope, if it ends well. -/
def TypedName.Stores (d : TypedName) (s t : Scope R) : Prop :=
  match d.type.kind with
  | .qubit => s.isGlobal = true ∧ ∃ qs, t = s.addQubits d.name qs
  | .bit => ∃ n, s.declaredSize d = .ok n ∧ t = s.addBits d.name (List.replicate n false)
  | kind => ∃ c, Const.coerce kind (.int 0) = .ok c ∧ s.setVariable d.name c = .ok t

/-- What a statement itself makes of a scope, if it ends well; `evaluates` says what the value
of an expression may be in a scope. -/
def Stmt.Stores (evaluates : Scope R → Expr → Value R → Prop) (s t : Scope R) : Stmt → Prop
  | .declare d => d.Stores s t
  | .const _ name _ => ∃ c, t = s.setConst name c
  | .gate name params qargs body => s.addGate ⟨name, params, qargs, body⟩ = .ok t
  | .subroutine name params qargs result body =>
      s.addSubroutine ⟨name, params, qargs, result, body⟩ = .ok t
  | .arrow e target => ∃ v, evaluates s e v ∧ s.assign target v = .ok t
  | .assign target e => ∃ v, evaluates s e v ∧ s.assign target v = .ok t
  | _ => t = s

theorem Exec.commits_declareConst (s : Scope R) (type : Option TypeSpec) (name : String) (e : Expr) :
    Commits (B := B) (declareConst type name e) s fun _ t => ∃ c, t = s.setConst name c := by
  refine (Commits.update _).mono fun _ t ht => ?_
  obtain ⟨c, -, ht⟩ := bind_ok_iff.1 ht
  cases type with
  | none =>
      cases ht
      exact ⟨c, rfl⟩
  | some spec =>
      obtain ⟨c', -, ht⟩ := bind_ok_iff.1 ht
      cases ht
      exact ⟨c', rfl⟩

/-! Lists of statements -/

mutual

/-- The statements of a statement in the order they are run, with blocks opened. -/
def Stmt.simple : Stmt → List Stmt
  | .block body => Stmt.simpleEach body
  | c => [c]

def Stmt.simpleEach : List Stmt → List Stmt
  | [] => []
  | c :: cs => c.simple ++ Stmt.simpleEach cs

end

/-- One scope after the other, by what each statement of a list stores. -/
inductive Stored (evaluates : Scope R → Expr → Value R → Prop) :
    List Stmt → Scope R → Scope R → Prop
  | nil {s : Scope R} : Stored evaluates [] s s
  | cons {c : Stmt} {cs : List Stmt} {s t u : Scope R} (hc : c.Stores evaluates s t)
      (hcs : Stored evaluates cs t u) : Stored evaluates (c :: cs) s u

namespace Stored

variable {evaluates : Scope R → Expr → Value R → Prop} {s t u : Scope R} {cs cs' : List Stmt}

theorem append (h : Stored evaluates cs s t) (h' : Stored evaluates cs' t u) :
    Stored evaluates (cs ++ cs') s u := by
  induction h with
  | nil => exact h'
  | cons hc _ ih => exact .cons hc (ih h')

theorem single {c : Stmt} (h : c.Stores evaluates s t) : Stored evaluates [c] s t := .cons h .nil

end Stored

/-- Statements have stored what they store: all of them if the run goes on after them, else
those up to some point. -/
def StoredBy (evaluates : Scope R → Expr → Value R → Prop) (cs : List Stmt) (s : Scope R) :
    Except EvalError (Flow R) → Scope R → Prop
  | .ok (.next _), t => Stored evaluates cs s t
  | _, t => ∃ run, run <+: cs ∧ Stored evaluates run s t

namespace StoredBy

variable {evaluates : Scope R → Expr → Value R → Prop} {s t u : Scope R} {cs cs' : List Stmt}
  {result : Except EvalError (Flow R)}

theorem exists_run (h : StoredBy evaluates cs s result t) :
    ∃ run, run <+: cs ∧ Stored evaluates run s t := by
  match result with
  | .ok (.next _) => exact ⟨cs, List.prefix_refl cs, h⟩
  | .ok (.returned _) => exact h
  | .error _ => exact h

theorem of_run (hresult : ∀ v, result ≠ .ok (.next v)) {run : List Stmt} (hrun : run <+: cs)
    (h : Stored evaluates run s t) : StoredBy evaluates cs s result t := by
  match result with
  | .ok (.next v) => exact absurd rfl (hresult v)
  | .ok (.returned _) => exact ⟨run, hrun, h⟩
  | .error _ => exact ⟨run, hrun, h⟩

/-- More statements that were not reached. -/
theorem stop (hresult : ∀ v, result ≠ .ok (.next v)) (h : StoredBy evaluates cs s result t) :
    StoredBy evaluates (cs ++ cs') s result t := by
  obtain ⟨run, hrun, hstored⟩ := h.exists_run
  exact of_run hresult (hrun.trans (List.prefix_append cs cs')) hstored

/-- More statements that were run before. -/
theorem after (h : Stored evaluates cs s t) (h' : StoredBy evaluates cs' t result u) :
    StoredBy evaluates (cs ++ cs') s result u := by
  match result with
  | .ok (.next _) => exact h.append h'
  | .ok (.returned _) | .error _ =>
      obtain ⟨run, hrun, hstored⟩ := h'
      exact ⟨cs ++ run, (List.prefix_append_right_inj cs).2 hrun, h.append hstored⟩

end StoredBy

/-! Runs -/

variable [Backend R B]

/-- A value that an expression may have in a scope, whatever the machine is like. -/
def Run.Evaluates (config : Config) (deeper : Option (BodyRunner R B)) (s : Scope R) (e : Expr)
    (v : Value R) : Prop :=
  ∃ m m', Run.value config deeper s e m = (.ok v, m')

namespace Exec

variable (config : Config) (deeper : Option (BodyRunner R B)) (s : Scope R)

theorem commits_declare (d : TypedName) :
    Commits (B := B) (declare d) s fun _ t => d.Stores s t := by
  unfold declare TypedName.Stores
  cases d.type.kind with
  | qubit =>
      refine Commits.read (Q := fun _ => s.isGlobal = true) ((Commits.ofRun _).mono ?_)
        fun qs hglobal => (Commits.update _).mono fun _ t ht => ?_
      · rintro qs t ⟨rfl, m, m', hrun⟩
        refine ⟨rfl, ?_⟩
        cases hglobal : t.isGlobal with
        | true => rfl
        | false =>
            rw [hglobal] at hrun
            cases hrun
      · cases ht
        exact ⟨hglobal, qs, rfl⟩
  | bit =>
      refine (Commits.update _).mono fun _ t ht => ?_
      obtain ⟨n, hn, ht⟩ := bind_ok_iff.1 ht
      cases ht
      exact ⟨n, hn, rfl⟩
  | _ => exact (Commits.update _).mono fun _ t ht => bind_ok_iff.1 ht

/-- The value is computed first, in the scope as it is, and stored last. -/
theorem commits_assign (e target : Expr) :
    Commits (do
      let v ← ofRun fun s => Run.value config deeper s e
      update fun s => s.assign target v
      return (done : Flow R)) s fun _ t =>
        ∃ v, Run.Evaluates config deeper s e v ∧ s.assign target v = .ok t := by
  refine Commits.read (Q := Run.Evaluates config deeper s e) (Commits.ofRun _) fun v hv => ?_
  exact (Commits.update _).map (fun _ => done) fun _ t ht => ⟨v, hv, ht⟩

/-- A statement other than a block changes the scope by what it stores itself, or it fails
and leaves the scope. -/
theorem commits_stmt {c : Stmt} (hc : c.isBlock = false) :
    Commits (stmt config deeper c) s fun _ t => c.Stores (Run.Evaluates config deeper) s t := by
  cases c with
  | version text => exact .pure rfl
  | includes path => exact .pure rfl
  | declare d => exact (commits_declare s d).map (fun _ => done) fun _ _ => id
  | const type name e =>
      exact (commits_declareConst s type name e).map (fun _ => done) fun _ _ => id
  | gate name params qargs body =>
      exact (Commits.update _).map (fun _ => done) fun _ _ => id
  | subroutine name params qargs result body =>
      exact (Commits.update _).map (fun _ => done) fun _ _ => id
  | returns e =>
      cases e with
      | none => exact .pure rfl
      | some e => exact .act _ Flow.returned
  | arrow e target => exact commits_assign config deeper s e target
  | assign target e => exact commits_assign config deeper s e target
  | reset qargs => exact .act _ fun _ => done
  | print args => exact .act _ fun _ => done
  | apply gate ms params qargs => exact .act _ fun _ => done
  | expr e =>
      cases e with
      | call name ms ps qs => exact .act _ Flow.next
      | measure qargs => exact .act _ Flow.next
      | _ => exact .throw _
  | block body => cases hc

theorem storedBy_simple {c : Stmt} (hc : c.isBlock = false) (m : Machine R B) :
    StoredBy (Run.Evaluates config deeper) c.simple s (stmt config deeper c (s, m)).1
      (stmt config deeper c (s, m)).2.1 := by
  have hsimple : c.simple = [c] := by
    cases c with
    | block body => cases hc
    | _ => rfl
  have hcommits := commits_stmt config deeper s hc m
  rw [hsimple]
  revert hcommits
  rcases stmt config deeper c (s, m) with ⟨e | flow, t, m'⟩
  · rintro rfl
    exact ⟨[], List.nil_prefix, .nil⟩
  · intro hstores
    cases flow with
    | next v => exact .single hstores
    | returned v => exact ⟨[c], List.prefix_refl [c], .single hstores⟩

mutual

theorem storedBy_stmt (s : Scope R) (m : Machine R B) : ∀ c : Stmt,
    StoredBy (Run.Evaluates config deeper) c.simple s (stmt config deeper c (s, m)).1
      (stmt config deeper c (s, m)).2.1
  | .block body => storedBy_stmts s m body
  | .version _ | .includes _ | .declare _ | .const .. | .gate .. | .subroutine .. | .returns _
  | .arrow .. | .assign .. | .reset _ | .print _ | .apply .. | .expr _ =>
      storedBy_simple config deeper s rfl m

theorem storedBy_stmts (s : Scope R) (m : Machine R B) : ∀ b : List Stmt,
    StoredBy (Run.Evaluates config deeper) (Stmt.simpleEach b) s (stmts config deeper b (s, m)).1
      (stmts config deeper b (s, m)).2.1
  | [] => .nil
  | c :: cs => by
      have hstmt := storedBy_stmt s m c
      rw [stmts, run_bind, Stmt.simpleEach]
      revert hstmt
      rcases stmt config deeper c (s, m) with ⟨e | flow, t, m₁⟩
      · exact StoredBy.stop nofun
      · cases flow with
        | returned v => exact StoredBy.stop nofun
        | next v => exact fun hstored => StoredBy.after hstored (storedBy_stmts t m₁ cs)

end

end Exec

/-! Failures and calls -/

theorem Interpreter.scope_of_error {i : Interpreter R B} {c : Stmt} (hc : c.isBlock = false)
    {e : EvalError} (he : (i.stmt c).1 = .error e) : (i.stmt c).2.scope = i.scope := by
  have hcommits := Exec.commits_stmt i.config (bodyRunner? i.config) i.scope hc i.machine
  unfold Interpreter.stmt at he ⊢
  revert hcommits he
  rcases Exec.stmt i.config (bodyRunner? i.config) c (i.scope, i.machine) with ⟨_ | flow, t, m⟩
  · exact fun _ hcommits => hcommits
  · intro he
    cases he

/-- A top-level statement other than a block that fails leaves the global scope as it was. A
call leaves the scope it is made from, whether it succeeds or fails, and however deep it is
nested and may nest. Wherever statements are run, the scope they end in comes from their own
updates up to the point where the run stops, with values that are computed in the scope as
it was before; nothing that they call takes part in that. -/
theorem scope_kept_by_failures_and_calls :
    (∀ (i : Interpreter R B) (c : Stmt) (e : EvalError), c.isBlock = false →
      (i.stmt c).1 = .error e → (i.stmt c).2.scope = i.scope) ∧
    (∀ (config : Config) (n : Nat) (s : Scope R) (m : Machine R B) (name : String)
      (ms : List Modifier) (ps qs : List Expr),
      (Exec.stmt config (runnerAt? config n) (.expr (.call name ms ps qs)) (s, m)).2.1 = s) ∧
    ∀ (config : Config) (n : Nat) (s : Scope R) (m : Machine R B) (body : List Stmt),
      ∃ run, run <+: Stmt.simpleEach body ∧
        Stored (Run.Evaluates config (runnerAt? (B := B) config n)) run s
          (Exec.stmts config (runnerAt? config n) body (s, m)).2.1 := by
  refine ⟨fun i c e hc he => Interpreter.scope_of_error hc he, ?_, ?_⟩
  · intro config n s m name ms ps qs
    have hcommits := Exec.commits_stmt config (runnerAt? config n) s
      (c := .expr (.call name ms ps qs)) rfl m
    revert hcommits
    rcases Exec.stmt config (runnerAt? config n) (.expr (.call name ms ps qs)) (s, m) with
      ⟨_ | flow, t, m'⟩
    · exact id
    · exact id
  · intro config n s m body
    exact (Exec.storedBy_stmts config (runnerAt? config n) s m body).exists_run

def flipThenReturn : SubroutineDef := ⟨"f", [⟨⟨.int, none⟩, "n"⟩], ["a"], some ⟨.bit, none⟩, [
  .apply .x [] [] [.ident "a"],
  .returns (some (.ident "n"))]⟩

def flipping : Interpreter Float (Recorder Float (Simulator Float)) where
  config := {}
  scope := { Scope.root with
    qubits := ⟨[("q", [0])]⟩
    bits := ⟨[("c", [true])]⟩
    subroutines := ⟨[("f", flipThenReturn)]⟩ }
  machine := ⟨.watch (Backend.allocate 1 (Simulator.seeded 0 24)).2, []⟩

/-- Two does not fit in a bit, which shows after the qubit was flipped. -/
def storeTwo : Stmt := .assign (.ident "c") (.call "f" [] [.lit ⟨.int, "2"⟩] [.ident "q"])

theorem scope_kept_by_storeTwo :
    (flipping.stmt storeTwo).1 =
      .error (.inStatement (.typeMismatch (.doesNotFit 2 1)) storeTwo.text) ∧
    (flipping.stmt storeTwo).2.machine.backend.log.length = 1 ∧
    (flipping.stmt storeTwo).2.scope = flipping.scope := by
  have herror : (flipping.stmt storeTwo).1 =
      .error (.inStatement (.typeMismatch (.doesNotFit 2 1)) storeTwo.text) := by
    rfl
  exact ⟨herror, by decide +kernel,
    scope_kept_by_failures_and_calls.1 flipping storeTwo _ rfl herror⟩

end OpenQasm
