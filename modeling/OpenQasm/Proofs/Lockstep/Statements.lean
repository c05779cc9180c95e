import OpenQasm.Proofs.Lockstep.Results
import OpenQasm.Eval.Interpreter

/-!
# Two runs in lockstep

Two runs of the same statements, on two machines that are related in some way. If the
requests of a scope keep the machines related and are answered alike, so does every
statement, whatever it calls: the two runs end with the same value or the same error and in
the same scope. With both machines the same this is an invariant of a single run.
-/
namespace OpenQasm

/-- From related states, two actions end with the same value or error and in related states. -/
def Lockstep {σ τ ε α : Type} (E : ε → Prop) (Φ : σ → τ → Prop) (Q : α → Prop)
    (x : ExceptT ε (StateM σ) α) (y : ExceptT ε (StateM τ) α) : Prop :=
  ∀ s t, Φ s t → (y t).1 = (x s).1 ∧ Ends E Q (x s).1 ∧ Φ (x s).2 (y t).2

abbrev Any {α : Type} (_ : α) : Prop := True

namespace Lockstep

variable {σ τ ε α β : Type} {E : ε → Prop} {Φ : σ → τ → Prop} {Q : α → Prop} {S : β → Prop}

theorem pure {a : α} (ha : Q a) :
    Lockstep E Φ Q (Pure.pure a : ExceptT ε (StateM σ) α) (Pure.pure a) :=
  fun _ _ h => ⟨rfl, ha, h⟩

theorem throw {e : ε} (he : E e) :
    Lockstep E Φ Q (MonadExcept.throw e : ExceptT ε (StateM σ) α) (MonadExcept.throw e) :=
  fun _ _ h => ⟨rfl, he, h⟩

theorem lift {x : Except ε α} (hx : Ends E Q x) :
    Lockstep E Φ Q (liftM x : ExceptT ε (StateM σ) α) (liftM x) := by
  intro s t h
  cases x with
  | error e => exact ⟨rfl, hx, h⟩
  | ok a => exact ⟨rfl, hx, h⟩

theorem bind {x : ExceptT ε (StateM σ) α} {y : ExceptT ε (StateM τ) α}
    {f : α → ExceptT ε (StateM σ) β} {g : α → ExceptT ε (StateM τ) β} (hxy : Lockstep E Φ Q x y)
    (hfg : ∀ a, Q a → Lockstep E Φ S (f a) (g a)) : Lockstep E Φ S (x >>= f) (y >>= g) := by
  intro s t h
  obtain ⟨hresult, hends, hΦ⟩ := hxy s t h
  rw [run_bind, run_bind]
  revert hresult hends hΦ
  rcases x s with ⟨result, s'⟩
  rcases y t with ⟨result', t'⟩
  rintro rfl hends hΦ
  cases result' with
  | error e => exact ⟨rfl, hends, hΦ⟩
  | ok a => exact hfg a hends s' t' hΦ

theorem forM {f : α → ExceptT ε (StateM σ) Unit} {g : α → ExceptT ε (StateM τ) Unit}
    {as : List α} (h : ∀ a ∈ as, Lockstep E Φ Any (f a) (g a)) :
    Lockstep E Φ Any (as.forM f) (as.forM g) := by
  induction as with
  | nil => exact .pure trivial
  | cons a as ih =>
      exact (h a List.mem_cons_self).bind fun _ _ =>
        ih fun a' ha' => h a' (List.mem_cons_of_mem a ha')

theorem ite {c : Prop} [Decidable c] {x x' : ExceptT ε (StateM σ) α}
    {y y' : ExceptT ε (StateM τ) α} (hx : Lockstep E Φ Q x y) (hx' : Lockstep E Φ Q x' y') :
    Lockstep E Φ Q (if c then x else x') (if c then y else y') := by
  split
  · exact hx
  · exact hx'

end Lockstep

namespace Run

variable {R B : Type}

theorem request_bind {α β : Type} (r : Request B α) (f : α → Request B β) :
    (request (r >>= f) : Run R B β) = request r >>= fun a => request (f a) := by
  funext m
  rw [run_bind, request, request, run_bind]
  rcases r m.backend with ⟨result, b⟩
  cases result with
  | error e => rfl
  | ok a => rfl

theorem request_forM {α : Type} (f : α → Request B Unit) (as : List α) :
    (request (as.forM f) : Run R B Unit) = as.forM fun a => request (f a) := by
  induction as with
  | nil => rfl
  | cons a as ih =>
      have hrest : (fun _ : Unit => (request (as.forM f) : Run R B Unit)) =
          fun _ => as.forM fun a => request (f a) := funext fun _ => ih
      exact (request_bind (f a) fun _ => as.forM f).trans (congrArg _ hrest)

end Run

variable {R B B' : Type} [Scalar R] [Backend R B] [Backend R B']

/-- The same scope, and machines that are related as this scope asks for. -/
def Paired (Φ : Scope R → Machine R B → Machine R B' → Prop) (p : Scope R × Machine R B)
    (q : Scope R × Machine R B') : Prop :=
  q.1 = p.1 ∧ Φ p.1 p.2 q.2

/-- An expression that does something: a call or a measurement. -/
def Expr.isAction : Expr → Bool
  | .call .. => true
  | .measure _ => true
  | _ => false

/-- What keeps two machines related in one scope: requests about its qubits, and output. No
answer of the scope is ruled out by `E`; a missing exponent is one only if `P` holds. -/
structure Serves (P : Prop) (E : EvalError → Prop)
    (Φ : Scope R → Machine R B → Machine R B' → Prop) : Prop where
  answer : ∀ e : EvalError, e.Answer P → E e
  apply : ∀ (s : Scope R) (op : Operation (Amplitude R)), op.qubits ⊆ s.qubits.all →
    Lockstep E (Φ s) Any (Run.request (Backend.apply op)) (Run.request (Backend.apply op))
  measure : ∀ (s : Scope R), ∀ q ∈ s.qubits.all,
    Lockstep E (Φ s) Any (Run.request (Backend.measure q)) (Run.request (Backend.measure q))
  reset : ∀ (s : Scope R), ∀ q ∈ s.qubits.all,
    Lockstep E (Φ s) Any (Run.request (Backend.reset q)) (Run.request (Backend.reset q))
  modularPower : ∀ (s : Scope R) (a n : Nat) (control target : List QubitId),
    control ++ target ⊆ s.qubits.all →
    Lockstep E (Φ s) Any (Run.request (Backend.modularPower a n control target))
      (Run.request (Backend.modularPower a n control target))
  emit : ∀ (s : Scope R) (qubits : List QubitView) (bits : List BitView),
    Lockstep E (Φ s) Any
      (do Run.emit (Snapshot.capture qubits bits (Backend.amplitudes (← get).backend)))
      (do Run.emit (Snapshot.capture qubits bits (Backend.amplitudes (← get).backend)))

/-- What keeps two machines related: requests about qubits of the scope, output, and
declarations of qubits. All errors but the ordinary ones can be ruled out by `E`. -/
structure Contract (E : EvalError → Prop) (Φ : Scope R → Machine R B → Machine R B' → Prop) : Prop
    extends Serves True E Φ where
  ordinary : ∀ e : EvalError, e.Ordinary → E e
  answer := fun e he => ordinary e he.ordinary
  samePlace : ∀ {s s' : Scope R} {m : Machine R B} {m' : Machine R B'}, s.SamePlace s' →
    Φ s m m' → Φ s' m m'
  declare : ∀ d : TypedName, d.type.kind = .qubit →
    Lockstep E (Paired Φ) Any (Exec.declare d) (Exec.declare d)

/-- How bodies are run, wherever a definition may be entered. -/
def RunnersPaired (E : EvalError → Prop) (Φ : Scope R → Machine R B → Machine R B' → Prop) :
    Option (BodyRunner R B) → Option (BodyRunner R B') → Prop
  | some run, some run' => ∀ s name inner body, name ∉ s.chain → s.Opens name inner →
      Lockstep E (Φ s) Any (run inner body) (run' inner body)
  | none, none => True
  | _, _ => False

namespace Serves

variable {P : Prop} {E : EvalError → Prop} {Φ : Scope R → Machine R B → Machine R B' → Prop}
  (h : Serves P E Φ) (s : Scope R)

include h

theorem lift {α : Type} {Q : α → Prop} {x : Except EvalError α}
    (hx : Ends (EvalError.Answer P) Q x) :
    Lockstep E (Φ s) Q (liftM x : Run R B α) (liftM x) :=
  .lift (hx.weaken h.answer)

theorem applyAll {ops : List (Operation (Amplitude R))} (hops : ∀ op ∈ ops, op.qubits ⊆ s.qubits.all) :
    Lockstep E (Φ s) Any (Run.request (Backend.applyAll ops)) (Run.request (Backend.applyAll ops)) := by
  rw [Backend.applyAll, Backend.applyAll, Run.request_forM, Run.request_forM]
  exact .forM fun op hop => h.apply s op (hops op hop)

theorem applyStandard (gate : StandardGate) {ms : List Modifier} (hms : ∀ m ∈ ms, m.Complete ∨ P)
    (params qargs : List Expr) :
    Lockstep E (Φ s) Any (Run.applyStandard s gate ms params qargs)
      (Run.applyStandard s gate ms params qargs) :=
  (h.lift s (s.ends_standardOperations gate hms params qargs)).bind fun _ hops => h.applyAll s hops

omit [Scalar R] [Backend R B] [Backend R B'] h in
theorem repeatRequest {r : Request B Unit} {r' : Request B' Unit}
    (hr : Lockstep E (Φ s) Any (Run.request r) (Run.request r')) (n : Nat) :
    Lockstep E (Φ s) Any (Run.repeatRequest r n) (Run.repeatRequest r' n) := by
  induction n with
  | zero => exact .pure trivial
  | succ n ih => exact hr.bind fun _ _ => ih

theorem applyFourier (gate : Builtin) {ms : List Modifier} (hms : ∀ m ∈ ms, m.Complete ∨ P)
    (params qargs : List Expr) :
    Lockstep E (Φ s) Any (Run.applyFourier s gate ms params qargs)
      (Run.applyFourier s gate ms params qargs) := by
  refine (h.lift s (s.ends_fourierCall gate hms params qargs)).bind fun c hc => ?_
  refine repeatRequest s ?_ c.times
  split
  · exact h.applyAll s fun op hop =>
      List.Subset.trans (Fourier.qubits_of_mem_inverseOperations hop) hc
  · exact h.applyAll s fun op hop => List.Subset.trans (Fourier.qubits_of_mem_operations hop) hc

theorem applyBuiltin (gate : Builtin) {ms : List Modifier} (hms : ∀ m ∈ ms, m.Complete ∨ P)
    (params qargs : List Expr) :
    Lockstep E (Φ s) Any (Run.applyBuiltin s gate ms params qargs)
      (Run.applyBuiltin s gate ms params qargs) := by
  cases gate with
  | qft => exact h.applyFourier s .qft hms params qargs
  | iqft => exact h.applyFourier s .iqft hms params qargs
  | cmodexp2 =>
      exact (h.lift s (s.ends_modularPowerCall ms params qargs)).bind fun c hc =>
        h.modularPower s c.base c.modulus c.control c.target hc
  | _ => exact h.applyStandard s _ hms params qargs

theorem measureEach {qs : List QubitId} (hqs : qs ⊆ s.qubits.all) :
    Lockstep E (Φ s) Any (Run.measureEach qs) (Run.measureEach qs) := by
  induction qs with
  | nil => exact .pure trivial
  | cons q qs ih =>
      obtain ⟨hq, hqs⟩ := List.cons_subset.1 hqs
      exact (h.measure s q hq).bind fun _ _ => (ih hqs).bind fun _ _ => .pure trivial

theorem measureValue (qargs : List Expr) :
    Lockstep E (Φ s) Any (Run.measure s qargs) (Run.measure s qargs) :=
  (h.lift s (s.plain_checkUnitary "measure")).bind fun _ _ =>
    (h.lift s (s.ends_measuredQubits qargs)).bind fun _ hqs =>
      (h.measureEach s hqs).bind fun _ _ => .pure trivial

theorem resetEach (qargs : List Expr) :
    Lockstep E (Φ s) Any (Run.resetEach s qargs) (Run.resetEach s qargs) := by
  induction qargs with
  | nil => exact .pure trivial
  | cons e es ih =>
      refine (h.lift s (s.ends_qubitsOf e)).bind fun qs hqs => ?_
      exact Lockstep.bind (.forM fun q hq => h.reset s q (hqs hq)) fun _ _ => ih

theorem resetAll (qargs : List Expr) :
    Lockstep E (Φ s) Any (Run.reset s qargs) (Run.reset s qargs) :=
  (h.lift s (s.plain_checkUnitary "reset")).bind fun _ _ => h.resetEach s qargs

theorem print (args : List Expr) :
    Lockstep E (Φ s) Any (Run.print s args) (Run.print s args) := by
  rw [Run.print, Run.print]
  split
  · exact Lockstep.bind (Q := Any) (.pure trivial) fun views _ => h.emit s views.1 views.2
  · exact (h.lift s (s.plain_views args)).bind fun views _ => h.emit s views.1 views.2

/-- An expression that is neither a call nor a measurement only looks things up. -/
theorem looked (config : Config) (deeper : Option (BodyRunner R B))
    (deeper' : Option (BodyRunner R B')) {e : Expr} (he : e.isAction = false) :
    Lockstep E (Φ s) Any (Run.value config deeper s e) (Run.value config deeper' s e) := by
  have hfold : ∀ e : Expr, Lockstep E (Φ s) Any
      (do return Value.const (← s.fold e) : Run R B (Value R))
      (do return Value.const (← s.fold e) : Run R B' (Value R)) := fun e =>
    (h.lift s (s.plain_fold e)).bind fun _ _ => .pure trivial
  have hbits : ∀ e : Expr, Lockstep E (Φ s) Any
      (do return Value.bits (← s.bitsOf e) : Run R B (Value R))
      (do return Value.bits (← s.bitsOf e) : Run R B' (Value R)) := fun e =>
    (h.lift s (s.plain_bitsOf e)).bind fun _ _ => .pure trivial
  cases e with
  | call name ms ps qs => cases he
  | measure qs => cases he
  | ident name =>
      rw [Run.value, Run.value]
      exact .ite (hbits _) (hfold _)
  | index name i =>
      rw [Run.value, Run.value]
      exact .ite (hbits _) (hfold _)
  | _ =>
      rw [Run.value, Run.value]
      exact hfold _

end Serves

namespace Contract

variable {E : EvalError → Prop} {Φ : Scope R → Machine R B → Machine R B' → Prop}
  {config : Config} {deeper : Option (BodyRunner R B)} {deeper' : Option (BodyRunner R B')}

section Steps

variable (h : Contract E Φ)

include h

/-! Calls -/

section Calls

variable (hdeeper : RunnersPaired E Φ deeper deeper') (s : Scope R)

include hdeeper

/-- Entering a definition is allowed in both runs or refused in both. -/
theorem enter {α : Type} {Q : α → Prop} (name : String) {k : BodyRunner R B → Run R B α}
    {l : BodyRunner R B' → Run R B' α}
    (hkl : ∀ run run', (∀ inner body, s.Opens name inner →
      Lockstep E (Φ s) Any (run inner body) (run' inner body)) →
      Lockstep E (Φ s) Q (k run) (l run')) :
    Lockstep E (Φ s) Q (liftM (s.enter config deeper name) >>= k)
      (liftM (s.enter config deeper' name) >>= l) := by
  unfold Scope.enter
  by_cases hname : name ∈ s.chain
  · rw [if_pos hname, if_pos hname]
    exact fun m m' hΦ => ⟨rfl, h.ordinary _ trivial, hΦ⟩
  · rw [if_neg hname, if_neg hname]
    cases deeper with
    | none =>
        cases deeper' with
        | none => exact fun m m' hΦ => ⟨rfl, h.ordinary _ trivial, hΦ⟩
        | some run' => exact absurd hdeeper id
    | some run =>
        cases deeper' with
        | none => exact absurd hdeeper id
        | some run' => exact hkl run run' fun inner body => hdeeper s name inner body hname

theorem callGate (gate : GateDef) (call : Call) :
    Lockstep E (Φ s) Any (Run.callGate config deeper s gate call)
      (Run.callGate config deeper' s gate call) := by
  refine h.enter hdeeper s gate.name fun run run' hrun => ?_
  refine (h.lift s (s.ends_prepareGate config gate fun _ _ => .inr trivial)).bind fun p hp => ?_
  exact (hrun p.1 p.2 hp).bind fun _ _ => .pure trivial

theorem callSubroutine (d : SubroutineDef) (call : Call) {args : Run R B (List (Arg R))}
    {args' : Run R B' (List (Arg R))}
    (hargs : Lockstep E (Φ s) (fun as => ∀ arg ∈ as, arg.Within s.qubits.all) args args') :
    Lockstep E (Φ s) Any (Run.callSubroutine config deeper s d call args)
      (Run.callSubroutine config deeper' s d call args') := by
  obtain ⟨name, ms, params, qargs⟩ := call
  cases ms with
  | cons m ms => exact .throw (h.ordinary _ trivial)
  | nil =>
      refine h.enter hdeeper s d.name fun run run' hrun => ?_
      refine .ite (.throw (h.ordinary _ trivial)) (.ite (.throw (h.ordinary _ trivial)) ?_)
      refine hargs.bind fun as has => ?_
      refine (h.lift s (Scope.ends_subroutineScope d has qargs)).bind fun inner hinner => ?_
      refine (hrun inner d.body hinner).bind fun ended _ => ?_
      obtain ⟨final, flow⟩ := ended
      cases flow with
      | returned v => exact h.lift s (final.plain_convertResult d v)
      | next v => exact h.lift s (final.plain_convertResult d .none)

end Calls

/-! Changes of the scope -/

omit [Scalar R] [Backend R B] [Backend R B'] h in
theorem ofRun {α : Type} {Q : α → Prop} {f : Scope R → Run R B α} {g : Scope R → Run R B' α}
    (hfg : ∀ s, Lockstep E (Φ s) Q (f s) (g s)) :
    Lockstep E (Paired Φ) Q (Exec.ofRun f) (Exec.ofRun g) := by
  rintro ⟨_, m⟩ ⟨s, m'⟩ ⟨rfl, hΦ⟩
  obtain ⟨hresult, hends, hΦ'⟩ := hfg s m m' hΦ
  exact ⟨hresult, hends, rfl, hΦ'⟩

theorem update {f : Scope R → Except EvalError (Scope R)}
    (hf : ∀ s, Ends (EvalError.Answer True) s.SamePlace (f s)) :
    Lockstep E (Paired Φ) Any (Exec.update f) (Exec.update f) := by
  rintro ⟨_, m⟩ ⟨s, m'⟩ ⟨rfl, hΦ⟩
  have hends := hf s
  unfold Exec.update
  dsimp only
  revert hends
  cases f s with
  | error e => exact fun he => ⟨rfl, h.ordinary e he.ordinary, rfl, hΦ⟩
  | ok s' => exact fun hsame => ⟨rfl, trivial, rfl, h.samePlace hsame hΦ⟩

theorem declareAny (d : TypedName) :
    Lockstep E (Paired Φ) Any (Exec.declare d) (Exec.declare d) := by
  cases hkind : d.type.kind with
  | qubit => exact h.declare d hkind
  | bit =>
      unfold Exec.declare
      rw [hkind]
      exact h.update fun s => (s.plain_declaredSize d).bind fun _ _ => ⟨rfl, rfl, rfl⟩
  | _ =>
      unfold Exec.declare
      rw [hkind]
      exact h.update fun s => (Const.plain_coerce _ _).bind fun c _ => s.ends_setVariable d.name c

theorem declareConst (type : Option TypeSpec) (name : String) (e : Expr) :
    Lockstep E (Paired Φ) Any (Exec.declareConst type name e) (Exec.declareConst type name e) := by
  refine h.update fun s => (s.plain_fold e).bind fun c _ => ?_
  cases type with
  | none => exact ⟨rfl, rfl, rfl⟩
  | some t => exact (c.plain_coerce _).bind fun _ _ => ⟨rfl, rfl, rfl⟩

end Steps

/-! Values and statements -/

mutual

theorem value (h : Contract E Φ) (hdeeper : RunnersPaired E Φ deeper deeper') (s : Scope R) : ∀ e : Expr,
    Lockstep E (Φ s) Any (Run.value config deeper s e) (Run.value config deeper' s e)
  | .call name ms ps qs => by
      rw [Run.value, Run.value]
      cases s.gates.get? name with
      | some gate => exact h.callGate hdeeper s gate _
      | none =>
          cases s.subroutines.get? name with
          | some d => exact h.callSubroutine hdeeper s d _ (h.arguments hdeeper s d.params ps)
          | none =>
              cases StandardGate.ofName? name with
              | some gate =>
                  exact (h.applyStandard s gate (fun _ _ => .inr trivial) ps qs).bind
                    fun _ _ => .pure trivial
              | none => exact .throw (h.ordinary _ trivial)
  | .measure qs => by
      rw [Run.value, Run.value]
      exact h.measureValue s qs
  | .ident _ | .index .. | .lit _ | .binary .. | .unary .. | .paren _ =>
      h.looked s config deeper deeper' rfl

theorem arguments (h : Contract E Φ) (hdeeper : RunnersPaired E Φ deeper deeper') (s : Scope R)
    (params : List TypedName) : ∀ es : List Expr,
    Lockstep E (Φ s) (fun as => ∀ arg ∈ as, arg.Within s.qubits.all)
      (Run.arguments config deeper s params es) (Run.arguments config deeper' s params es)
  | [] => by
      rw [Run.arguments, Run.arguments]
      exact .pure fun arg harg => absurd harg List.not_mem_nil
  | e :: es => by
      cases params with
      | nil =>
          rw [Run.arguments, Run.arguments]
          exact .pure fun arg harg => absurd harg List.not_mem_nil
      | cons p ps =>
          rw [Run.arguments, Run.arguments]
          have hrest : ∀ arg : Arg R, arg.Within s.qubits.all →
              Lockstep E (Φ s) (fun as => ∀ arg ∈ as, arg.Within s.qubits.all)
                (do return arg :: (← Run.arguments config deeper s ps es))
                (do return arg :: (← Run.arguments config deeper' s ps es)) :=
            fun arg harg => (h.arguments hdeeper s ps es).bind fun as has =>
              .pure (List.forall_mem_cons.2 ⟨harg, has⟩)
          dsimp only
          cases p.type.kind with
          | qubit =>
              refine (h.lift s (s.ends_qubitsOf e)).bind fun qs hqs => ?_
              refine (h.lift s (s.plain_declaredSize p)).bind fun size _ => ?_
              exact .ite (.throw (h.ordinary _ trivial)) (hrest (.qubits qs) hqs)
          | bit =>
              refine (h.lift s (s.plain_declaredSize p)).bind fun size _ => ?_
              refine (h.value hdeeper s e).bind fun v _ => ?_
              exact (h.lift s (v.plain_toBits size)).bind fun bs _ => hrest (.bits bs) trivial
          | _ =>
              refine (h.value hdeeper s e).bind fun v _ => ?_
              refine (h.lift s v.plain_toConst).bind fun c _ => ?_
              exact (h.lift s (c.plain_coerce _)).bind fun c' _ => hrest (.scalar c') trivial

end

mutual

theorem stmt (h : Contract E Φ) (config : Config) (hdeeper : RunnersPaired E Φ deeper deeper') :
    ∀ c : Stmt,
    Lockstep E (Paired Φ) Any (Exec.stmt config deeper c) (Exec.stmt config deeper' c)
  | .version _ => .pure trivial
  | .includes _ => .pure trivial
  | .declare d => (h.declareAny d).bind fun _ _ => .pure trivial
  | .const type name e => (h.declareConst type name e).bind fun _ _ => .pure trivial
  | .gate _ _ _ _ => (h.update fun s => s.ends_addGate _).bind fun _ _ => .pure trivial
  | .subroutine _ _ _ _ _ =>
      (h.update fun s => s.ends_addSubroutine _).bind fun _ _ => .pure trivial
  | .returns none => .pure trivial
  | .returns (some e) => (ofRun fun s => h.value hdeeper s e).bind fun _ _ => .pure trivial
  | .arrow e target =>
      (ofRun fun s => h.value hdeeper s e).bind fun v _ =>
        (h.update fun s => s.ends_assign target v).bind fun _ _ => .pure trivial
  | .assign target e =>
      (ofRun fun s => h.value hdeeper s e).bind fun v _ =>
        (h.update fun s => s.ends_assign target v).bind fun _ _ => .pure trivial
  | .reset qargs => (ofRun fun s => h.resetAll s qargs).bind fun _ _ => .pure trivial
  | .print args => (ofRun fun s => h.print s args).bind fun _ _ => .pure trivial
  | .apply gate _ params qargs =>
      (ofRun fun s => h.applyBuiltin s gate (fun _ _ => .inr trivial) params qargs).bind
        fun _ _ => .pure trivial
  | .expr (.call name ms ps qs) =>
      (ofRun fun s => h.value hdeeper s (.call name ms ps qs)).bind fun _ _ => .pure trivial
  | .expr (.measure qargs) =>
      (ofRun fun s => h.value hdeeper s (.measure qargs)).bind fun _ _ => .pure trivial
  | .expr (.ident _) => .throw (h.ordinary _ trivial)
  | .expr (.index _ _) => .throw (h.ordinary _ trivial)
  | .expr (.lit _) => .throw (h.ordinary _ trivial)
  | .expr (.binary _ _ _) => .throw (h.ordinary _ trivial)
  | .expr (.unary _ _) => .throw (h.ordinary _ trivial)
  | .expr (.paren _) => .throw (h.ordinary _ trivial)
  | .block body => h.stmts config hdeeper body

theorem stmts (h : Contract E Φ) (config : Config) (hdeeper : RunnersPaired E Φ deeper deeper') :
    ∀ cs : List Stmt,
    Lockstep E (Paired Φ) Any (Exec.stmts config deeper cs) (Exec.stmts config deeper' cs)
  | [] => .pure trivial
  | c :: cs => by
      refine (h.stmt config hdeeper c).bind fun flow _ => ?_
      cases flow with
      | returned v => exact .pure trivial
      | next v => exact h.stmts config hdeeper cs

end

end Contract

omit [Scalar R] [Backend R B] [Backend R B'] in
/-- A body that runs in a scope of its own leaves the machines related as the caller asks for, if
they were related so before. -/
theorem lockstep_within {α : Type} {E : EvalError → Prop} {Ψ : Machine R B → Machine R B' → Prop}
    {Φ : Scope R → Machine R B → Machine R B' → Prop} {x : Exec R B α} {y : Exec R B' α}
    (hxy : Lockstep E (Paired Φ) Any x y) {inner : Scope R}
    (hinner : ∀ m m', Ψ m m' → Φ inner m m') (hback : ∀ s m m', Φ s m m' → Ψ m m') :
    Lockstep E Ψ Any (x.within inner) (y.within inner) := by
  intro m m' hΨ
  obtain ⟨hresult, hends, hscope, hΦ⟩ := hxy (inner, m) (inner, m') ⟨rfl, hinner m m' hΨ⟩
  unfold Exec.within
  revert hresult hends hscope hΦ
  rcases x (inner, m) with ⟨result, s, m₁⟩
  rcases y (inner, m') with ⟨result', s', m₁'⟩
  dsimp only
  rintro rfl hends rfl hΦ
  cases result' with
  | error e => exact ⟨rfl, hends, hback _ _ _ hΦ⟩
  | ok a => exact ⟨rfl, trivial, hback _ _ _ hΦ⟩

def runnerAt? (config : Config) : Nat → Option (BodyRunner R B)
  | 0 => none
  | n + 1 => some (runBody config n)

theorem runBody_eq (config : Config) (n : Nat) (s : Scope R) (body : List Stmt) :
    runBody (B := B) config n s body =
      (Exec.stmts config (runnerAt? config n) body).within s := by
  cases n <;> rfl

theorem bodyRunner?_eq (config : Config) :
    bodyRunner? (R := R) (B := B) config = runnerAt? config config.maxDepth := by
  unfold bodyRunner?
  cases config.maxDepth <;> rfl

/-- A declaration of qubits, where it does not matter which qubits a scope has. -/
theorem lockstep_declare {E : EvalError → Prop} {Φ : Scope R → Machine R B → Machine R B' → Prop}
    (hE : ∀ e : EvalError, e.Answer False → E e)
    (hallocate : ∀ s n, Lockstep E (Φ s) Any (Run.request (Backend.allocate n))
      (Run.request (Backend.allocate n)))
    (hqubits : ∀ s name qs m m', Φ s m m' → Φ (s.addQubits name qs) m m') {d : TypedName}
    (hd : d.type.kind = .qubit) :
    Lockstep E (Paired Φ) Any (Exec.declare d) (Exec.declare d) := by
  unfold Exec.declare
  rw [hd]
  refine Lockstep.bind (Q := Any) (Contract.ofRun fun s => ?_) fun qs _ => ?_
  · refine .ite (.throw (hE _ trivial)) ?_
    exact Lockstep.bind (.lift ((s.plain_declaredSize d).weaken hE)) fun size _ => hallocate s size
  · rintro ⟨_, m⟩ ⟨s, m'⟩ ⟨rfl, hΦ⟩
    exact ⟨rfl, trivial, rfl, hqubits s d.name qs m m' hΦ⟩

/-! Top-level statements -/

namespace Interpreter

def stmtWith (deeper : Option (BodyRunner R B)) (c : Stmt) (i : Interpreter R B) :
    Except EvalError (Flow R) × Interpreter R B :=
  match Exec.stmt i.config deeper c (i.scope, i.machine) with
  | (.ok flow, (scope, machine)) => (.ok flow, { i with scope, machine })
  | (.error e, (scope, machine)) => (.error (.inStatement e c.text), { i with scope, machine })

theorem stmt_eq (c : Stmt) (i : Interpreter R B) :
    i.stmt c = i.stmtWith (runnerAt? i.config i.config.maxDepth) c := by
  rw [← bodyRunner?_eq]
  rfl

/-- Interpreters of one configuration in one scope, on machines that are related. -/
structure Paired (Φ : Scope R → Machine R B → Machine R B' → Prop) (i : Interpreter R B)
    (i' : Interpreter R B') : Prop where
  config : i'.config = i.config
  scope : i'.scope = i.scope
  machine : Φ i.scope i.machine i'.machine

end Interpreter

/-- A top-level statement keeps interpreters related. -/
theorem Contract.stmtWith {E : EvalError → Prop}
    {Φ : Scope R → Machine R B → Machine R B' → Prop} (h : Contract E Φ)
    {deeper : Option (BodyRunner R B)} {deeper' : Option (BodyRunner R B')}
    (hdeeper : RunnersPaired E Φ deeper deeper') (c : Stmt) {i : Interpreter R B}
    {i' : Interpreter R B'} (hi : i.Paired Φ i') :
    (i'.stmtWith deeper' c).1 = (i.stmtWith deeper c).1 ∧
      Ends (fun e => ∃ e', E e' ∧ e = .inStatement e' c.text) Any (i.stmtWith deeper c).1 ∧
      (i.stmtWith deeper c).2.Paired Φ (i'.stmtWith deeper' c).2 := by
  obtain ⟨_, _, m⟩ := i
  obtain ⟨config, s, m'⟩ := i'
  obtain ⟨rfl, rfl, hΦ⟩ := hi
  obtain ⟨hresult, hends, hscope, hΦ'⟩ := h.stmt config hdeeper c (s, m) (s, m') ⟨rfl, hΦ⟩
  unfold Interpreter.stmtWith
  dsimp only at hresult hends hscope hΦ' ⊢
  revert hresult hends hscope hΦ'
  rcases Exec.stmt config deeper c (s, m) with ⟨result, s₁, m₁⟩
  rcases Exec.stmt config deeper' c (s, m') with ⟨result', s₁', m₁'⟩
  rintro rfl hends rfl hΦ'
  cases result' with
  | error e => exact ⟨rfl, ⟨e, hends, rfl⟩, rfl, rfl, hΦ'⟩
  | ok flow => exact ⟨rfl, trivial, rfl, rfl, hΦ'⟩

end OpenQasm
