import OpenQasm.Proofs.Sequencing
import OpenQasm.Proofs.Trace.Recorder

/-!
# Recording changes nothing

A recorded run is the plain run once the recorder is forgotten: it gives the same
result, and leaves the same scope, output and backend. Actions on a state with a
recorder are compared with actions on a state without one, step by step.
-/
namespace OpenQasm

/-- Two actions agree on results and on states, seen through `f`. -/
def Agrees {σ τ ε α : Type} (f : σ → τ) (x : ExceptT ε (StateM σ) α) (y : ExceptT ε (StateM τ) α) :
    Prop :=
  ∀ s, y (f s) = ((x s).1, f (x s).2)

namespace Agrees

variable {σ τ ε α β : Type} {f : σ → τ}

theorem pure (a : α) : Agrees f (Pure.pure a : ExceptT ε (StateM σ) α) (Pure.pure a) :=
  fun _ => rfl

theorem throw (e : ε) : Agrees f (MonadExcept.throw e : ExceptT ε (StateM σ) α)
    (MonadExcept.throw e) :=
  fun _ => rfl

theorem lift (x : Except ε α) :
    Agrees f (liftM x : ExceptT ε (StateM σ) α) (liftM x : ExceptT ε (StateM τ) α) := by
  intro s
  cases x <;> rfl

theorem bind {x : ExceptT ε (StateM σ) α} {y : ExceptT ε (StateM τ) α}
    {g : α → ExceptT ε (StateM σ) β} {h : α → ExceptT ε (StateM τ) β} (hxy : Agrees f x y)
    (hgh : ∀ a, Agrees f (g a) (h a)) : Agrees f (x >>= g) (y >>= h) := by
  intro s
  have hy := hxy s
  rw [run_bind, run_bind, hy]
  rcases x s with ⟨result, s'⟩
  cases result with
  | error e => rfl
  | ok a => exact hgh a s'

end Agrees

namespace Recorder

variable {R B α : Type}

theorem agrees_forward (e : Event R) (r : Request B α) :
    Agrees Recorder.backend (forward e r) r := fun _ => rfl

theorem agrees_forM {β : Type} {f : β → Request (Recorder R B) Unit} {g : β → Request B Unit}
    (h : ∀ a, Agrees Recorder.backend (f a) (g a)) (as : List β) :
    Agrees Recorder.backend (as.forM f) (as.forM g) := by
  induction as with
  | nil => exact .pure ()
  | cons a as ih => exact (h a).bind fun _ => ih

end Recorder

/-- The machine without its recorder. -/
def Machine.forget {R B : Type} (m : Machine R (Recorder R B)) : Machine R B :=
  ⟨m.backend.backend, m.output⟩

namespace Traced

variable {R B α : Type}

/-- A recorded action and the plain one it records. -/
abbrev Records (x : Run R (Recorder R B) α) (y : Run R B α) : Prop := Agrees Machine.forget x y

theorem records_request {x : Request (Recorder R B) α} {y : Request B α}
    (h : Agrees Recorder.backend x y) : Records (R := R) (Run.request x) (Run.request y) := by
  intro m
  have hy : y m.forget.backend = _ := h m.backend
  simp only [Run.request, hy]
  rcases x m.backend with ⟨result, t⟩
  cases result <;> rfl

theorem records_inFrame (f : Frame) {x : Run R (Recorder R B) α} {y : Run R B α}
    (h : Records x y) : Records (inFrame f x) y :=
  fun m => h { m with backend := { m.backend with frames := f :: m.backend.frames } }

theorem records_noteLeaf (l : Except EvalError (Leaf R)) :
    Records (B := B) (noteLeaf l) (pure ()) := by
  intro m
  cases l <;> rfl

theorem records_repeatRequest {x : Request (Recorder R B) Unit} {y : Request B Unit}
    (h : Agrees Recorder.backend x y) (n : Nat) :
    Records (R := R) (Run.repeatRequest x n) (Run.repeatRequest y n) := by
  induction n with
  | zero => exact .pure ()
  | succ n ih => exact (records_request h).bind fun _ => ih

/-- How bodies are run, recorded and not. -/
def RecordsRunner : Option (BodyRunner R (Recorder R B)) → Option (BodyRunner R B) → Prop
  | some x, some y => ∀ s body, Records (x s body) (y s body)
  | none, none => True
  | _, _ => False

theorem recordsRunner_framed (f : Frame) {x : Option (BodyRunner R (Recorder R B))}
    {y : Option (BodyRunner R B)} (h : RecordsRunner x y) : RecordsRunner (framed f x) y := by
  cases x with
  | none => exact h
  | some run =>
      cases y with
      | none => exact h
      | some run' => exact fun s body => records_inFrame f (h s body)

variable [Scalar R] [Backend R B]

omit [Scalar R] in
theorem agrees_applyAll (ops : List (Operation (Amplitude R))) :
    Agrees Recorder.backend (Backend.applyAll ops : Request (Recorder R B) Unit)
      (Backend.applyAll ops) :=
  Recorder.agrees_forM (fun op => Recorder.agrees_forward (.apply op) _) ops

/-! Gates, measurements and output -/

theorem records_applyStandard (s : Scope R) (gate : StandardGate) (ms : List Modifier)
    (params qargs : List Expr) :
    Records (B := B) (Run.applyStandard s gate ms params qargs)
      (Run.applyStandard s gate ms params qargs) :=
  (Agrees.lift _).bind fun ops => records_request (agrees_applyAll ops)

theorem records_applyFourier (s : Scope R) (gate : Builtin) (ms : List Modifier)
    (params qargs : List Expr) :
    Records (B := B) (Run.applyFourier s gate ms params qargs)
      (Run.applyFourier s gate ms params qargs) := by
  refine (Agrees.lift _).bind fun c => records_repeatRequest ?_ c.times
  split
  · exact agrees_applyAll _
  · exact agrees_applyAll _

theorem records_applyModularPower (s : Scope R) (ms : List Modifier) (params qargs : List Expr) :
    Records (B := B) (Run.applyModularPower s ms params qargs)
      (Run.applyModularPower s ms params qargs) :=
  (Agrees.lift _).bind fun _ => records_request (Recorder.agrees_forward _ _)

theorem records_applyBuiltin (s : Scope R) (gate : Builtin) (ms : List Modifier)
    (params qargs : List Expr) :
    Records (B := B) (Run.applyBuiltin s gate ms params qargs)
      (Run.applyBuiltin s gate ms params qargs) := by
  cases gate with
  | qft => exact records_applyFourier s .qft ms params qargs
  | iqft => exact records_applyFourier s .iqft ms params qargs
  | cmodexp2 => exact records_applyModularPower s ms params qargs
  | _ => exact records_applyStandard s _ ms params qargs

omit [Scalar R] in
theorem records_measureEach (qs : List QubitId) :
    Records (R := R) (B := B) (Run.measureEach qs) (Run.measureEach qs) := by
  induction qs with
  | nil => exact .pure []
  | cons q qs ih =>
      exact (records_request (Recorder.agrees_forward _ _)).bind fun b => ih.bind fun _ => .pure _

theorem records_measure (s : Scope R) (qargs : List Expr) :
    Records (B := B) (Run.measure s qargs) (Run.measure s qargs) :=
  (Agrees.lift _).bind fun _ => (Agrees.lift _).bind fun qs =>
    (records_measureEach qs).bind fun _ => .pure _

omit [Scalar R] in
theorem records_resetQubits (qs : List QubitId) :
    Records (R := R) (B := B) (qs.forM fun q => Run.request (Backend.reset q))
      (qs.forM fun q => Run.request (Backend.reset q)) := by
  induction qs with
  | nil => exact .pure ()
  | cons q qs ih => exact (records_request (Recorder.agrees_forward _ _)).bind fun _ => ih

theorem records_resetEach (s : Scope R) (qargs : List Expr) :
    Records (B := B) (Run.resetEach s qargs) (Run.resetEach s qargs) := by
  induction qargs with
  | nil => exact .pure ()
  | cons e es ih =>
      exact (Agrees.lift _).bind fun qs => (records_resetQubits qs).bind fun _ => ih

theorem records_reset (s : Scope R) (qargs : List Expr) :
    Records (B := B) (Run.reset s qargs) (Run.reset s qargs) :=
  (Agrees.lift _).bind fun _ => records_resetEach s qargs

theorem records_print (s : Scope R) (args : List Expr) :
    Records (B := B) (Run.print s args) (Run.print s args) := by
  have hemit : ∀ views : List QubitView × List BitView,
      Records (B := B) (do Run.emit (Snapshot.capture views.1 views.2
        (Backend.amplitudes (← get).backend))) (do Run.emit (Snapshot.capture views.1 views.2
        (Backend.amplitudes (← get).backend))) := fun views m => rfl
  rw [Run.print, Run.print]
  split
  · exact (Agrees.pure _).bind hemit
  · exact (Agrees.lift _).bind hemit

omit [Backend R B] in
theorem records_applyLeaf (place : Place) (s : Scope R) (gate : LeafGate) (call : Call)
    {x : Run R (Recorder R B) Unit} {y : Run R B Unit} (h : Records x y) :
    Records (applyLeaf place s gate call x) y := by
  refine records_inFrame _ fun m => ?_
  exact (records_noteLeaf _).bind (fun _ => h) m

/-! Calls -/

omit [Scalar R] [Backend R B] in
/-- Entering a definition is allowed or refused, recorded or not. -/
theorem records_enter (config : Config) {x : Option (BodyRunner R (Recorder R B))}
    {y : Option (BodyRunner R B)} (h : RecordsRunner x y) (s : Scope R) (name : String)
    {k : BodyRunner R (Recorder R B) → Run R (Recorder R B) α} {l : BodyRunner R B → Run R B α}
    (hkl : ∀ run run', (∀ s body, Records (run s body) (run' s body)) →
      Records (k run) (l run')) :
    Records (liftM (s.enter config x name) >>= k) (liftM (s.enter config y name) >>= l) := by
  unfold Scope.enter
  split
  · exact fun _ => rfl
  · cases x with
    | none =>
        cases y with
        | none => exact fun _ => rfl
        | some run => exact absurd h id
    | some run =>
        cases y with
        | none => exact absurd h id
        | some run' => exact hkl run run' h

omit [Backend R B] in
theorem records_callGate (config : Config) {x : Option (BodyRunner R (Recorder R B))}
    {y : Option (BodyRunner R B)} (h : RecordsRunner x y) (s : Scope R) (gate : GateDef)
    (call : Call) :
    Records (Run.callGate config x s gate call) (Run.callGate config y s gate call) := by
  refine records_enter config h s gate.name fun run run' hrun => ?_
  refine (Agrees.lift _).bind fun prepared => ?_
  exact (hrun prepared.1 prepared.2).bind fun _ => .pure _

omit [Backend R B] in
theorem records_callSubroutine (config : Config) {x : Option (BodyRunner R (Recorder R B))}
    {y : Option (BodyRunner R B)} (h : RecordsRunner x y) (s : Scope R) (d : SubroutineDef)
    (call : Call) {args : Run R (Recorder R B) (List (Arg R))} {args' : Run R B (List (Arg R))}
    (hargs : Records args args') :
    Records (Run.callSubroutine config x s d call args)
      (Run.callSubroutine config y s d call args') := by
  unfold Run.callSubroutine
  obtain ⟨name, ms, params, qargs⟩ := call
  cases ms with
  | cons m ms => exact fun _ => rfl
  | nil =>
      refine records_enter config h s d.name fun run run' hrun => ?_
      dsimp only
      split
      · exact fun _ => rfl
      split
      · exact fun _ => rfl
      refine hargs.bind fun as => (Agrees.lift _).bind fun inner => ?_
      refine (hrun inner d.body).bind fun ended => ?_
      rcases ended with ⟨final, flow⟩
      cases flow <;> exact .lift _

/-- Only calls are evaluated in a different way. -/
theorem value_eq (place : Place) (config : Config) (x : Option (BodyRunner R (Recorder R B)))
    (s : Scope R) {e : Expr} (he : ∀ name ms ps qs, e ≠ .call name ms ps qs) :
    value place config x s e = Run.value config none s e := by
  cases e with
  | call name ms ps qs => exact absurd rfl (he name ms ps qs)
  | _ =>
      rw [value]
      exact he

theorem records_plainValue (place : Place) (config : Config)
    (x : Option (BodyRunner R (Recorder R B))) (y : Option (BodyRunner R B)) (s : Scope R)
    {e : Expr} (he : ∀ name ms ps qs, e ≠ .call name ms ps qs) :
    Records (value place config x s e) (Run.value config y s e) := by
  rw [value_eq place config x s he]
  cases e with
  | call name ms ps qs => exact absurd rfl (he name ms ps qs)
  | measure qs =>
      rw [Run.value, Run.value]
      exact records_measure s qs
  | ident name | index name i =>
      rw [Run.value, Run.value]
      split
      · exact (Agrees.lift _).bind fun _ => .pure _
      · exact (Agrees.lift _).bind fun _ => .pure _
  | _ =>
      rw [Run.value, Run.value]
      exact (Agrees.lift _).bind fun _ => .pure _

mutual

theorem records_value (place : Place) (config : Config) {x : Option (BodyRunner R (Recorder R B))}
    {y : Option (BodyRunner R B)} (h : RecordsRunner x y) (s : Scope R) : ∀ e : Expr,
    Records (value place config x s e) (Run.value config y s e)
  | .call name ms ps qs => by
      rw [value, Run.value]
      cases s.gates.get? name with
      | some gate => exact records_callGate config (recordsRunner_framed _ h) s gate _
      | none =>
          cases s.subroutines.get? name with
          | some d =>
              exact records_callSubroutine config (recordsRunner_framed _ h) s d _
                (records_arguments config h s d.params ps)
          | none =>
              cases StandardGate.ofName? name with
              | some gate =>
                  exact (records_applyLeaf place s _ _ (records_applyStandard s gate ms ps qs)).bind
                    fun _ => .pure _
              | none => exact .throw _
  | .measure _ => records_plainValue place config x y s (by simp)
  | .ident _ => records_plainValue place config x y s (by simp)
  | .index _ _ => records_plainValue place config x y s (by simp)
  | .lit _ => records_plainValue place config x y s (by simp)
  | .binary _ _ _ => records_plainValue place config x y s (by simp)
  | .unary _ _ => records_plainValue place config x y s (by simp)
  | .paren _ => records_plainValue place config x y s (by simp)

theorem records_arguments (config : Config) {x : Option (BodyRunner R (Recorder R B))}
    {y : Option (BodyRunner R B)} (h : RecordsRunner x y) (s : Scope R) (params : List TypedName) :
    ∀ es : List Expr, Records (arguments config x s params es) (Run.arguments config y s params es)
  | [] => by
      rw [arguments, Run.arguments]
      exact .pure _
  | e :: es => by
      cases params with
      | nil =>
          rw [arguments, Run.arguments]
          exact .pure _
      | cons p ps =>
          rw [arguments, Run.arguments]
          have harg := records_value .value config h s e
          have hrest : ∀ arg : Arg R, Records
              (do return arg :: (← arguments config x s ps es))
              (do return arg :: (← Run.arguments config y s ps es)) :=
            fun arg => (records_arguments config h s ps es).bind fun _ => .pure _
          cases p.type.kind with
          | qubit =>
              refine (Agrees.lift _).bind fun qs => (Agrees.lift _).bind fun size => ?_
              dsimp only
              split
              · exact fun _ => rfl
              · exact (Agrees.pure _).bind hrest
          | bit =>
              exact (Agrees.lift _).bind fun size => harg.bind fun v =>
                (Agrees.lift _).bind fun _ => (Agrees.pure _).bind hrest
          | _ =>
              exact harg.bind fun v => (Agrees.lift _).bind fun c =>
                (Agrees.lift _).bind fun _ => (Agrees.pure _).bind hrest

end

/-! Statements and programs -/

def forgetBoth (state : Scope R × Machine R (Recorder R B)) : Scope R × Machine R B :=
  (state.1, state.2.forget)

omit [Scalar R] [Backend R B] in
theorem agrees_ofRun {x : Scope R → Run R (Recorder R B) α} {y : Scope R → Run R B α}
    (h : ∀ s, Records (x s) (y s)) : Agrees forgetBoth (Exec.ofRun x) (Exec.ofRun y) := by
  rintro ⟨s, m⟩
  have hy := h s m
  simp only [Exec.ofRun, forgetBoth, hy]
  rcases x s m with ⟨result, m'⟩
  rfl

omit [Scalar R] [Backend R B] in
theorem agrees_update (f : Scope R → Except EvalError (Scope R)) :
    Agrees forgetBoth (Exec.update f : Exec R (Recorder R B) Unit) (Exec.update f) := by
  rintro ⟨s, m⟩
  simp only [Exec.update, forgetBoth]
  cases f s <;> rfl

omit [Scalar R] [Backend R B] in
theorem records_within {x : Exec R (Recorder R B) α} {y : Exec R B α} (h : Agrees forgetBoth x y)
    (s : Scope R) : Records (x.within s) (y.within s) := by
  intro m
  have hy : y (s, m.forget) = _ := h (s, m)
  simp only [Exec.within, hy]
  rcases x (s, m) with ⟨result, s', m'⟩
  cases result <;> rfl

theorem agrees_declare (d : TypedName) :
    Agrees forgetBoth (Exec.declare d : Exec R (Recorder R B) Unit) (Exec.declare d) := by
  unfold Exec.declare
  cases d.type.kind with
  | qubit =>
      refine (agrees_ofRun fun s => ?_).bind fun qs => agrees_update _
      dsimp only
      split
      · exact fun _ => rfl
      · exact (Agrees.lift _).bind fun size => records_request (Recorder.agrees_forward _ _)
  | _ => exact agrees_update _

theorem records_applyBuiltinLeaf (s : Scope R) (gate : Builtin) (ms : List Modifier)
    (params qargs : List Expr) :
    Records (B := B) (applyBuiltin s gate ms params qargs)
      (Run.applyBuiltin s gate ms params qargs) := by
  rw [applyBuiltin]
  split
  · exact records_applyLeaf _ s _ _ (records_applyBuiltin s gate ms params qargs)
  · exact records_applyBuiltin s gate ms params qargs

mutual

theorem agrees_stmt (config : Config) {x : Option (BodyRunner R (Recorder R B))}
    {y : Option (BodyRunner R B)} (h : RecordsRunner x y) : ∀ c : Stmt,
    Agrees forgetBoth (stmt config x c) (Exec.stmt config y c)
  | .version _ => .pure _
  | .includes _ => .pure _
  | .declare d => (agrees_declare d).bind fun _ => .pure _
  | .const _ _ _ => (agrees_update _).bind fun _ => .pure _
  | .gate _ _ _ _ => (agrees_update _).bind fun _ => .pure _
  | .subroutine _ _ _ _ _ => (agrees_update _).bind fun _ => .pure _
  | .returns none => .pure _
  | .returns (some e) =>
      (agrees_ofRun fun s => records_value .value config h s e).bind fun _ => .pure _
  | .arrow e _ =>
      (agrees_ofRun fun s => records_value .value config h s e).bind fun _ =>
        (agrees_update _).bind fun _ => .pure _
  | .assign _ e =>
      (agrees_ofRun fun s => records_value .value config h s e).bind fun _ =>
        (agrees_update _).bind fun _ => .pure _
  | .reset qargs => (agrees_ofRun fun s => records_reset s qargs).bind fun _ => .pure _
  | .print args => (agrees_ofRun fun s => records_print s args).bind fun _ => .pure _
  | .apply gate ms params qargs =>
      (agrees_ofRun fun s => records_applyBuiltinLeaf s gate ms params qargs).bind fun _ => .pure _
  | .expr (.call name ms ps qs) =>
      (agrees_ofRun fun s => records_value .statement config h s (.call name ms ps qs)).bind
        fun _ => .pure _
  | .expr (.measure qargs) =>
      (agrees_ofRun fun s => records_plainValue .statement config none y s (by simp)).bind
        fun _ => .pure _
  | .expr (.ident _) => .throw _
  | .expr (.index _ _) => .throw _
  | .expr (.lit _) => .throw _
  | .expr (.binary _ _ _) => .throw _
  | .expr (.unary _ _) => .throw _
  | .expr (.paren _) => .throw _
  | .block body => agrees_stmts config h body

theorem agrees_stmts (config : Config) {x : Option (BodyRunner R (Recorder R B))}
    {y : Option (BodyRunner R B)} (h : RecordsRunner x y) : ∀ cs : List Stmt,
    Agrees forgetBoth (stmts config x cs) (Exec.stmts config y cs)
  | [] => .pure _
  | c :: cs => by
      refine (agrees_stmt config h c).bind fun flow => ?_
      cases flow with
      | returned v => exact .pure _
      | next v => exact agrees_stmts config h cs

end

theorem recordsRunner_runBody (config : Config) (n : Nat) :
    RecordsRunner (R := R) (B := B) (some (runBody config n))
      (some (OpenQasm.runBody config n)) := by
  have hnone : RecordsRunner (R := R) (B := B) none none := trivial
  induction n with
  | zero => exact fun s body => records_within (agrees_stmts config hnone body) s
  | succ n ih => exact fun s body => records_within (agrees_stmts config ih body) s

theorem recordsRunner_bodyRunner (config : Config) :
    RecordsRunner (R := R) (B := B) (bodyRunner? config) (OpenQasm.bodyRunner? config) := by
  unfold bodyRunner? OpenQasm.bodyRunner?
  cases config.maxDepth with
  | zero => trivial
  | succ n => exact recordsRunner_runBody config n

end Traced

def Interpreter.forget {R B : Type} (i : Interpreter R (Recorder R B)) : Interpreter R B :=
  ⟨i.config, i.scope, i.machine.forget⟩

namespace Traced

variable {R B : Type} [Scalar R] [Backend R B]

theorem topStmt_forget (c : Stmt) (i : Interpreter R (Recorder R B)) :
    i.forget.stmt c = ((topStmt c i).1, (topStmt c i).2.forget) := by
  have h : Exec.stmt i.config (OpenQasm.bodyRunner? i.config) c (i.scope, i.machine.forget) = _ :=
    agrees_stmt i.config (recordsRunner_bodyRunner i.config) c (i.scope, i.machine)
  simp only [Interpreter.stmt, Interpreter.forget, topStmt, h]
  rcases stmt i.config (bodyRunner? i.config) c (i.scope, i.machine) with ⟨result, s, m⟩
  cases result <;> rfl

theorem topStmts_forget (cs : List Stmt) (i : Interpreter R (Recorder R B)) :
    Interpreter.stmts cs i.forget = ((topStmts cs i).1, (topStmts cs i).2.forget) := by
  induction cs generalizing i with
  | nil => rfl
  | cons c cs ih =>
      rw [Interpreter.stmts, topStmts, topStmt_forget c i]
      rcases topStmt c i with ⟨result, j⟩
      cases result with
      | error e => rfl
      | ok flow =>
          cases flow with
          | returned v => rfl
          | next v => exact ih j

/-- A recorded run of a program is its run. -/
theorem program_forget (config : Config) (b : B) (p : Program) :
    (Interpreter.start config b).program p =
      ((program config b p).1, (program config b p).2.forget) :=
  topStmts_forget p.statements (.start config (.watch b))

end Traced

end OpenQasm
