import OpenQasm.Proofs.Formed.Trees
import OpenQasm.Proofs.Parsing.Canonicity
import OpenQasm.Proofs.RoundTrip

/-!
# Running parsed programs

Two errors tell that a tree could not have come from a text: an expression without an effect
stands as a statement, or a `pow` has no exponent. What runs is formed: the statements that were
parsed, the bodies of definitions made by such statements, and the bodies that modified calls
make out of these. So neither error is ever met, however deep calls are nested.
-/
namespace OpenQasm

/-- An error that does not tell of a tree that is not formed. -/
def EvalError.Explained : EvalError → Prop
  | .noEffect _ => False
  | .invalidModifier .missingExponent => False
  | .inStatement source _ => source.Explained
  | _ => True

namespace EvalError

theorem Answer.explained {e : EvalError} (h : e.Answer False) : e.Explained := by
  cases e with
  | noEffect text => exact h
  | invalidModifier fault =>
      cases fault with
      | missingExponent => exact h
      | _ => trivial
  | inStatement source text => exact absurd h id
  | _ => trivial

theorem Explained.root_ne {e : EvalError} (h : e.Explained) :
    (∀ text, e.root ≠ .noEffect text) ∧ e.root ≠ .invalidModifier .missingExponent := by
  induction e with
  | inStatement source text ih => exact ih h
  | noEffect text => exact absurd h id
  | invalidModifier fault =>
      cases fault with
      | missingExponent => exact absurd h id
      | _ => exact ⟨nofun, nofun⟩
  | _ => exact ⟨nofun, nofun⟩

end EvalError

variable {R B : Type}

/-- One run, in a scope with formed definitions. -/
def InForm (s : Scope R) (m m' : Machine R B) : Prop := m' = m ∧ s.definitions.Formed

namespace InForm

theorem request {α : Type} (s : Scope R) (r : Request B α) :
    Lockstep EvalError.Explained (InForm s) Any (Run.request r) (Run.request r) := by
  rintro _ m ⟨rfl, hs⟩
  unfold Run.request
  rcases r m.backend with ⟨_ | a, b⟩
  · exact ⟨rfl, trivial, rfl, hs⟩
  · exact ⟨rfl, trivial, rfl, hs⟩

/-- The definitions of the scope are known to be formed. -/
theorem known {α : Type} {Q : α → Prop} {s : Scope R} {x : Run R B α}
    (h : s.definitions.Formed → Lockstep EvalError.Explained (InForm s) Q x x) :
    Lockstep EvalError.Explained (InForm s) Q x x :=
  fun m m' hm => h hm.2 m m' hm

theorem update {f : Scope R → Except EvalError (Scope R)} {Q : Scope R → Scope R → Prop}
    (hends : ∀ s, Ends (EvalError.Answer False) (Q s) (f s))
    (hformed : ∀ s t, f s = .ok t → s.definitions.Formed → t.definitions.Formed) :
    Lockstep EvalError.Explained (Paired (InForm (B := B))) Any (Exec.update f)
      (Exec.update f) := by
  rintro ⟨_, m⟩ ⟨s, _⟩ ⟨rfl, rfl, hs⟩
  have hanswer := hends s
  unfold Exec.update
  dsimp only at hs ⊢
  revert hanswer
  cases hf : f s with
  | error e => exact fun he => ⟨rfl, he.explained, rfl, rfl, hs⟩
  | ok t => exact fun _ => ⟨rfl, trivial, rfl, rfl, hformed s t hf hs⟩

variable [Scalar R] [Backend R B]

theorem serves : Serves False EvalError.Explained (InForm (R := R) (B := B)) where
  answer _ he := he.explained
  apply s _ _ := request s _
  measure s _ _ := request s _
  reset s _ _ := request s _
  modularPower s _ _ _ _ _ := request s _
  emit _ _ _ := by
    rintro _ m ⟨rfl, hs⟩
    exact ⟨rfl, trivial, rfl, hs⟩

end InForm

variable [Scalar R] [Backend R B]

/-! Calls -/

/-- Formed bodies are run without an error about their form. -/
def RunsFormed (deeper : Option (BodyRunner R B)) : Prop :=
  ∀ run ∈ deeper, ∀ (s inner : Scope R) (body : Block), inner.definitions = s.definitions →
    Stmt.EachFormed body →
    Lockstep EvalError.Explained (InForm s) Any (run inner body) (run inner body)

namespace RunsFormed

variable {config : Config} {deeper : Option (BodyRunner R B)} (h : RunsFormed deeper) (s : Scope R)

include h

omit [Scalar R] [Backend R B] h in
theorem enter (name : String) :
    Lockstep EvalError.Explained (InForm s) (· ∈ deeper)
      (liftM (s.enter config deeper name) : Run R B (BodyRunner R B))
      (liftM (s.enter config deeper name)) := by
  refine .lift (.ite (fun _ => trivial) fun _ => ?_)
  cases deeper with
  | none => trivial
  | some run => rfl

theorem callGate {gate : GateDef} (hgate : Stmt.EachFormed gate.body) {call : Call}
    (hms : ∀ m ∈ call.modifiers, m.Complete) :
    Lockstep EvalError.Explained (InForm s) Any (Run.callGate config deeper s gate call)
      (Run.callGate config deeper s gate call) := by
  refine (enter s gate.name).bind fun run hrun => ?_
  have hprepared := (s.plain_prepareGate (P := False) config gate fun m hm => .inl (hms m hm)).and_of_ok
    fun p hp => Scope.formed_prepareGate hp hgate
  refine (InForm.serves.lift s hprepared).bind fun p hp => ?_
  exact (h run hrun s p.1 p.2 hp.1 hp.2).bind fun _ _ => .pure trivial

theorem callSubroutine {d : SubroutineDef} (hd : Stmt.EachFormed d.body) (call : Call)
    {args : Run R B (List (Arg R))}
    (hargs : Lockstep EvalError.Explained (InForm s)
      (fun as => ∀ arg ∈ as, arg.Within s.qubits.all) args args) :
    Lockstep EvalError.Explained (InForm s) Any (Run.callSubroutine config deeper s d call args)
      (Run.callSubroutine config deeper s d call args) := by
  have hserves := InForm.serves (R := R) (B := B)
  obtain ⟨name, ms, params, qargs⟩ := call
  cases ms with
  | cons m ms => exact .throw trivial
  | nil =>
      refine (enter s d.name).bind fun run hrun => ?_
      refine .ite (.throw trivial) (.ite (.throw trivial) ?_)
      refine hargs.bind fun as has => ?_
      have hscope := ((Scope.ends_subroutineScope (P := False) d has qargs).mono
        fun _ _ => trivial).and_of_ok fun inner hinner => Scope.definitions_subroutineScope hinner
      refine (hserves.lift s hscope).bind fun inner hinner => ?_
      refine (h run hrun s inner d.body hinner hd).bind fun ended _ => ?_
      obtain ⟨final, flow⟩ := ended
      cases flow with
      | returned v => exact hserves.lift s (final.plain_convertResult d v)
      | next v => exact hserves.lift s (final.plain_convertResult d .none)

end RunsFormed

/-! Values and statements -/

mutual

theorem RunsFormed.value {config : Config} {deeper : Option (BodyRunner R B)}
    (h : RunsFormed deeper) (s : Scope R) : ∀ {e : Expr}, e.Formed →
    Lockstep EvalError.Explained (InForm s) Any (Run.value config deeper s e)
      (Run.value config deeper s e)
  | .call name ms ps qs, he => by
      refine InForm.known fun hs => ?_
      rw [Run.value]
      cases hgate : s.gates.get? name with
      | some gate => exact h.callGate s (hs.gates hgate) he.1
      | none =>
          cases hsubroutine : s.subroutines.get? name with
          | some d =>
              exact h.callSubroutine s (hs.subroutines hsubroutine) _
                (RunsFormed.arguments h s d.params he.2)
          | none =>
              cases StandardGate.ofName? name with
              | some gate =>
                  exact (InForm.serves.applyStandard s gate (fun m hm => .inl (he.1 m hm)) ps
                    qs).bind fun _ _ => .pure trivial
              | none => exact .throw trivial
  | .measure qs, _ => by
      rw [Run.value]
      exact InForm.serves.measureValue s qs
  | .ident _, _ | .index .., _ | .lit _, _ | .binary .., _ | .unary .., _ | .paren _, _ =>
      InForm.serves.looked s config deeper deeper rfl

theorem RunsFormed.arguments {config : Config} {deeper : Option (BodyRunner R B)}
    (h : RunsFormed deeper) (s : Scope R) (params : List TypedName) :
    ∀ {es : List Expr}, Expr.EachFormed es →
    Lockstep EvalError.Explained (InForm s) (fun as => ∀ arg ∈ as, arg.Within s.qubits.all)
      (Run.arguments config deeper s params es) (Run.arguments config deeper s params es)
  | [], _ => by
      rw [Run.arguments]
      exact .pure fun arg harg => absurd harg List.not_mem_nil
  | e :: es, hes => by
      have hserves := InForm.serves (R := R) (B := B)
      cases params with
      | nil =>
          rw [Run.arguments]
          exact .pure fun arg harg => absurd harg List.not_mem_nil
      | cons p ps =>
          rw [Run.arguments]
          have hrest : ∀ arg : Arg R, arg.Within s.qubits.all →
              Lockstep EvalError.Explained (InForm s)
                (fun as => ∀ arg ∈ as, arg.Within s.qubits.all)
                (do return arg :: (← Run.arguments config deeper s ps es))
                (do return arg :: (← Run.arguments config deeper s ps es)) :=
            fun arg harg => (RunsFormed.arguments h s ps hes.2).bind fun as has =>
              .pure (List.forall_mem_cons.2 ⟨harg, has⟩)
          dsimp only
          cases p.type.kind with
          | qubit =>
              refine (hserves.lift s (s.ends_qubitsOf e)).bind fun qs hqs => ?_
              refine (hserves.lift s (s.plain_declaredSize p)).bind fun size _ => ?_
              exact .ite (.throw trivial) (hrest (.qubits qs) hqs)
          | bit =>
              refine (hserves.lift s (s.plain_declaredSize p)).bind fun size _ => ?_
              refine (RunsFormed.value h s hes.1).bind fun v _ => ?_
              exact (hserves.lift s (v.plain_toBits size)).bind fun bs _ => hrest (.bits bs) trivial
          | _ =>
              refine (RunsFormed.value h s hes.1).bind fun v _ => ?_
              refine (hserves.lift s v.plain_toConst).bind fun c _ => ?_
              exact (hserves.lift s (c.plain_coerce _)).bind fun c' _ => hrest (.scalar c') trivial

end

theorem lockstep_declareFormed (d : TypedName) :
    Lockstep EvalError.Explained (Paired (InForm (R := R) (B := B))) Any (Exec.declare d)
      (Exec.declare d) := by
  cases hkind : d.type.kind with
  | qubit =>
      exact lockstep_declare (fun _ he => he.explained) (fun s n => InForm.request s _)
        (fun _ _ _ _ _ hm => hm) hkind
  | bit =>
      unfold Exec.declare
      rw [hkind]
      refine InForm.update (Q := fun _ _ => True)
        (fun s => (s.plain_declaredSize d).bind fun _ _ => trivial) fun s t ht hs => ?_
      obtain ⟨n, -, ht⟩ := bind_ok_iff.1 ht
      cases ht
      exact hs
  | _ =>
      unfold Exec.declare
      rw [hkind]
      refine InForm.update (fun s => (Const.plain_coerce _ _).bind fun c _ =>
        s.ends_setVariable d.name c) fun s t ht hs => ?_
      obtain ⟨c, -, ht⟩ := bind_ok_iff.1 ht
      rw [Scope.definitions_setVariable ht]
      exact hs

omit [Backend R B] in
theorem lockstep_declareConstFormed (type : Option TypeSpec) (name : String) (e : Expr) :
    Lockstep EvalError.Explained (Paired (InForm (R := R) (B := B))) Any
      (Exec.declareConst type name e) (Exec.declareConst type name e) := by
  refine InForm.update (Q := fun _ _ => True) (fun s => (s.plain_fold e).bind fun c _ => ?_)
    fun s t ht hs => ?_
  · cases type with
    | none => trivial
    | some spec => exact (c.plain_coerce _).bind fun _ _ => trivial
  · obtain ⟨c, -, ht⟩ := bind_ok_iff.1 ht
    cases type with
    | none =>
        cases ht
        exact hs
    | some spec =>
        obtain ⟨c', -, ht⟩ := bind_ok_iff.1 ht
        cases ht
        exact hs

namespace RunsFormed

variable {config : Config} {deeper : Option (BodyRunner R B)}

theorem action (h : RunsFormed deeper) {e : Expr} (he : e.Formed) :
    Lockstep EvalError.Explained (Paired InForm) Any
      (Exec.ofRun fun s => Run.value config deeper s e)
      (Exec.ofRun fun s => Run.value config deeper s e) :=
  Contract.ofRun fun s => h.value s he

/-- A value is stored where the statement says. -/
theorem store (h : RunsFormed deeper) {e : Expr} (he : e.Formed) (target : Expr) :
    Lockstep EvalError.Explained (Paired InForm) Any
      (do
        let v ← Exec.ofRun fun s => Run.value config deeper s e
        Exec.update fun s => s.assign target v
        return (Exec.done : Flow R))
      (do
        let v ← Exec.ofRun fun s => Run.value config deeper s e
        Exec.update fun s => s.assign target v
        return (Exec.done : Flow R)) := by
  refine (h.action he).bind fun v _ => ?_
  refine Lockstep.bind (InForm.update (fun s => s.ends_assign target v) fun s t ht hs => ?_)
    fun _ _ => .pure trivial
  rw [Scope.definitions_assign ht]
  exact hs

mutual

theorem stmt (h : RunsFormed deeper) : ∀ {c : Stmt}, c.Formed →
    Lockstep EvalError.Explained (Paired InForm) Any (Exec.stmt config deeper c)
      (Exec.stmt config deeper c)
  | .version _, _ | .includes _, _ => .pure trivial
  | .declare d, _ => (lockstep_declareFormed d).bind fun _ _ => .pure trivial
  | .const type name e, _ =>
      (lockstep_declareConstFormed type name e).bind fun _ _ => .pure trivial
  | .gate name params qargs body, hc => by
      refine Lockstep.bind (InForm.update (fun s => s.ends_addGate _) fun s t ht hs => ?_)
        fun _ _ => .pure trivial
      exact Scope.formed_addGate (d := ⟨name, params, qargs, body⟩) hs hc ht
  | .subroutine name params qargs result body, hc => by
      refine Lockstep.bind (InForm.update (fun s => s.ends_addSubroutine _) fun s t ht hs => ?_)
        fun _ _ => .pure trivial
      exact Scope.formed_addSubroutine (d := ⟨name, params, qargs, result, body⟩) hs hc ht
  | .returns none, _ => .pure trivial
  | .returns (some e), hc => (h.action (hc e rfl)).bind fun _ _ => .pure trivial
  | .arrow _ target, hc => h.store hc target
  | .assign target _, hc => h.store hc target
  | .reset qs, _ =>
      (Contract.ofRun fun s => InForm.serves.resetAll s qs).bind fun _ _ => .pure trivial
  | .print es, _ =>
      (Contract.ofRun fun s => InForm.serves.print s es).bind fun _ _ => .pure trivial
  | .apply gate _ ps qs, hc =>
      (Contract.ofRun fun s => InForm.serves.applyBuiltin s gate (fun m hm => .inl (hc m hm)) ps
        qs).bind fun _ _ => .pure trivial
  | .expr (.call _ _ _ _), hc => (h.action hc.2).bind fun _ _ => .pure trivial
  | .expr (.measure _), hc => (h.action hc.2).bind fun _ _ => .pure trivial
  | .block _, hc => h.stmts hc

theorem stmts (h : RunsFormed deeper) : ∀ {cs : List Stmt}, Stmt.EachFormed cs →
    Lockstep EvalError.Explained (Paired InForm) Any (Exec.stmts config deeper cs)
      (Exec.stmts config deeper cs)
  | [], _ => .pure trivial
  | c :: cs, hcs => by
      refine (h.stmt hcs.1).bind fun flow _ => ?_
      cases flow with
      | returned v => exact .pure trivial
      | next v => exact h.stmts hcs.2

end

end RunsFormed

/-- However many levels of calls are left. -/
theorem runsFormed_runnerAt (config : Config) (n : Nat) :
    RunsFormed (R := R) (B := B) (runnerAt? config n) := by
  induction n with
  | zero => exact nofun
  | succ n ih =>
      rintro run hrun s inner body hdefinitions hbody
      cases hrun
      refine InForm.known fun hs => ?_
      rw [runBody_eq]
      refine lockstep_within (ih.stmts hbody) (fun m m' hm => ⟨hm.1, ?_⟩)
        fun s' m m' hm => ⟨hm.1, hs⟩
      rw [hdefinitions]
      exact hs

/-! Interpreters -/

namespace Interpreter

variable {i : Interpreter R B}

theorem formed_stmt (hi : i.scope.definitions.Formed) {c : Stmt} (hc : c.Formed) :
    Ends EvalError.Explained Any (i.stmt c).1 ∧ (i.stmt c).2.scope.definitions.Formed := by
  have hrun := @RunsFormed.stmt R B _ _ i.config _
    (runsFormed_runnerAt i.config i.config.maxDepth) c hc
  obtain ⟨-, hends, -, -, hscope⟩ := hrun (i.scope, i.machine) (i.scope, i.machine) ⟨rfl, rfl, hi⟩
  rw [stmt_eq]
  unfold stmtWith
  revert hends hscope
  rcases Exec.stmt i.config (runnerAt? i.config i.config.maxDepth) c (i.scope, i.machine) with
    ⟨e | flow, s, m⟩
  · exact fun he hs => ⟨he, hs⟩
  · exact fun _ hs => ⟨trivial, hs⟩

theorem error_of_value {c : Stmt} {e : EvalError} (h : (i.value c).1 = .error e) :
    (i.stmt c).1 = .error e := by
  unfold value at h
  revert h
  rcases i.stmt c with ⟨e' | flow, j⟩
  · intro h
    cases h
    rfl
  · cases flow with
    | next v => exact nofun
    | returned v => exact nofun

theorem formed_stmts (hi : i.scope.definitions.Formed) {cs : List Stmt}
    (hcs : ∀ c ∈ cs, c.Formed) :
    Ends EvalError.Explained Any (stmts cs i).1 ∧ (stmts cs i).2.scope.definitions.Formed := by
  induction cs generalizing i with
  | nil => exact ⟨trivial, hi⟩
  | cons c cs ih =>
      obtain ⟨hc, hcs⟩ := List.forall_mem_cons.1 hcs
      have hstmt := formed_stmt hi hc
      rw [stmts]
      revert hstmt
      rcases i.stmt c with ⟨e | flow, j⟩
      · exact id
      · cases flow with
        | returned v => exact id
        | next v => exact fun hstmt => ih hstmt.2 hcs

/-- The interpreters reached from a fresh one by statements and programs that were made out in
sources, each of which may succeed or fail. -/
inductive Fed : Interpreter R B → Prop
  | start (config : Config) (b : B) : Fed (start config b)
  | stmt {i : Interpreter R B} (source : String) {c : Stmt} (hi : Fed i)
      (hc : c ∈ (Program.recover source).1.statements) : Fed (i.stmt c).2
  | program {i : Interpreter R B} (source : String) (hi : Fed i) :
      Fed (i.program (Program.recover source).1).2
  | takeOutput {i : Interpreter R B} (hi : Fed i) : Fed i.takeOutput.2

theorem formed_recover (source : String) : ∀ c ∈ (Program.recover source).1.statements, c.Formed :=
  fun c hc => ((Program.canonical_recover source).statements c hc).formed

theorem Fed.formed (h : i.Fed) : i.scope.definitions.Formed := by
  induction h with
  | start config b => exact Scope.formed_root
  | stmt source _ hc ih => exact (formed_stmt ih (formed_recover source _ hc)).2
  | program source _ ih => exact (formed_stmts ih (formed_recover source)).2
  | takeOutput _ ih => exact ih

end Interpreter

/-- The errors that tell of a tree no text stands for. -/
def EvalError.Malformed (e : EvalError) : Prop :=
  (∃ text, e.root = .noEffect text) ∨ e.root = .invalidModifier .missingExponent

theorem EvalError.Explained.not_malformed {e : EvalError} (h : e.Explained) : ¬e.Malformed := by
  rintro (⟨text, heq⟩ | heq)
  · exact h.root_ne.1 text heq
  · exact h.root_ne.2 heq

/-- A program that was parsed, run as a whole or statement by statement, with any configuration
and backend and after whatever was parsed and run before, does not fail because of the form of
a statement or a modifier. -/
theorem parsed_program_not_malformed {source : String} {p : Program}
    (hp : Program.parse source = .ok p) {i : Interpreter R B} (hi : i.Fed) :
    (∀ e, (i.program p).1 = .error e → ¬e.Malformed) ∧
      ∀ c ∈ p.statements, ∀ e, ((i.stmt c).1 = .error e ∨ (i.value c).1 = .error e) →
        ¬e.Malformed := by
  obtain rfl : (Program.recover source).1 = p := by rw [recover_of_parse hp]
  have hformed := Interpreter.formed_recover source
  refine ⟨fun e he => ?_, fun c hc e he => ?_⟩
  · exact ((Interpreter.formed_stmts hi.formed hformed).1.of_error he).not_malformed
  · have hstmt := (Interpreter.formed_stmt hi.formed (hformed c hc)).1
    exact (hstmt.of_error (he.elim id Interpreter.error_of_value)).not_malformed

def repeatedCall : Stmt := .expr (.call "g" [.mk .ctrl none, .mk .pow (some (.lit ⟨.int, "200000"⟩))]
  [] [.index "q" (.lit ⟨.int, "0"⟩), .index "q" (.lit ⟨.int, "1"⟩)])

/-- A gate with a `pow` in its body is inverted and controlled, and then repeated too often. -/
def repeatsOften : Program := ⟨[
  .gate "g" [] ["a"] [.expr (.call "x" [.mk .pow (some (.lit ⟨.int, "3"⟩))] [] [.ident "a"])],
  .declare ⟨⟨.qubit, some (.lit ⟨.int, "2"⟩)⟩, "q"⟩,
  .expr (.call "g" [.mk .inv none, .mk .ctrl none] []
    [.index "q" (.lit ⟨.int, "0"⟩), .index "q" (.lit ⟨.int, "1"⟩)]),
  repeatedCall]⟩

/-- The program is parsed, and fails for a reason of its own. -/
theorem repeatsOften_not_malformed :
    Program.parse repeatsOften.text = .ok repeatsOften ∧
    ((Interpreter.simulate {} : Interpreter Float (Simulator Float)).program repeatsOften).1 =
      .error (.inStatement (.unrollLimit "g" 100000) repeatedCall.text) ∧
    ¬(EvalError.inStatement (.unrollLimit "g" 100000) repeatedCall.text).Malformed := by
  have hcanonical : repeatsOften.Canonical := by decide +kernel
  have hparse := Program.parse_text hcanonical
  have herror : ((Interpreter.simulate {} : Interpreter Float (Simulator Float)).program
      repeatsOften).1 = .error (.inStatement (.unrollLimit "g" 100000) repeatedCall.text) := by
    decide +kernel
  exact ⟨hparse, herror, (parsed_program_not_malformed hparse (.start {} _)).1 _ herror⟩

end OpenQasm
