import OpenQasm.Proofs.Trace.Chains
import OpenQasm.Proofs.Trace.Forgetting

/-!
# What a recorder sees

Every entry that a run writes down is sound. The calls being run are the same before
and after each action, and the scope stays one in which the body of the innermost
call runs, so this is kept from statement to statement and from call to call.
-/
namespace OpenQasm

/-- An action that keeps a property of the state, also where it fails. -/
def Keeps {σ ε α : Type} (P : σ → Prop) (x : ExceptT ε (StateM σ) α) : Prop :=
  ∀ s, P s → P (x s).2

namespace Keeps

variable {σ ε α β : Type} {P : σ → Prop}

theorem pure (a : α) : Keeps P (Pure.pure a : ExceptT ε (StateM σ) α) := fun _ h => h

theorem throw (e : ε) : Keeps P (MonadExcept.throw e : ExceptT ε (StateM σ) α) := fun _ h => h

theorem lift (x : Except ε α) : Keeps P (liftM x : ExceptT ε (StateM σ) α) := by
  intro s h
  cases x <;> exact h

theorem bind {x : ExceptT ε (StateM σ) α} {g : α → ExceptT ε (StateM σ) β} (hx : Keeps P x)
    (hg : ∀ a, Keeps P (g a)) : Keeps P (x >>= g) := by
  intro s h
  have hs := hx s h
  rw [run_bind]
  revert hs
  rcases x s with ⟨result, s'⟩
  intro hs
  cases result with
  | error e => exact hs
  | ok a => exact hg a s' hs

theorem lift_bind {x : Except ε α} {g : α → ExceptT ε (StateM σ) β}
    (hg : ∀ a, x = .ok a → Keeps P (g a)) : Keeps P ((liftM x : ExceptT ε (StateM σ) α) >>= g) := by
  cases x with
  | error e => exact fun _ h => h
  | ok a => exact hg a rfl

theorem forM {f : α → ExceptT ε (StateM σ) Unit} {as : List α} (h : ∀ a ∈ as, Keeps P (f a)) :
    Keeps P (as.forM f) := by
  induction as with
  | nil => exact .pure ()
  | cons a as ih =>
      exact (h a List.mem_cons_self).bind fun _ =>
        ih fun a' ha' => h a' (List.mem_cons_of_mem a ha')

end Keeps

variable {R B α : Type}

/-- A recorder inside some calls that has written down sound entries only. -/
structure Recorder.Sound (fs : List Frame) (t : Recorder R B) : Prop where
  frames : t.frames = fs
  log : ∀ entry ∈ t.log, entry.Sound

theorem Recorder.Sound.note {fs : List Frame} {t : Recorder R B} (h : t.Sound fs) {e : Event R}
    (he : (⟨fs, e⟩ : LogEntry R).Sound) : (t.note e).Sound fs := by
  refine ⟨h.frames, fun entry hentry => ?_⟩
  rcases List.mem_append.1 hentry with hentry | hentry
  · exact h.log entry hentry
  · rw [List.mem_singleton.1 hentry, h.frames]
    exact he

theorem Recorder.keeps_forward {fs : List Frame} {e : Event R} (he : (⟨fs, e⟩ : LogEntry R).Sound)
    (r : Request B α) : Keeps (Recorder.Sound fs) (forward e r) := by
  intro t h
  have hnote := h.note he
  exact ⟨hnote.frames, hnote.log⟩

namespace Traced

def SoundIn (fs : List Frame) (m : Machine R (Recorder R B)) : Prop := m.backend.Sound fs

theorem keeps_request {fs : List Frame} {r : Request (Recorder R B) α}
    (h : Keeps (Recorder.Sound fs) r) : Keeps (SoundIn fs) (Run.request (R := R) r) := by
  intro m hm
  have hr := h m.backend hm
  simp only [Run.request]
  revert hr
  rcases r m.backend with ⟨result, t⟩
  intro hr
  cases result <;> exact hr

theorem keeps_inFrame {fs : List Frame} {f : Frame} {x : Run R (Recorder R B) α}
    (h : Keeps (SoundIn (f :: fs)) x) : Keeps (SoundIn fs) (inFrame f x) := by
  intro m hm
  have hx := h { m with backend := { m.backend with frames := f :: m.backend.frames } }
    ⟨congrArg (f :: ·) hm.frames, hm.log⟩
  exact ⟨hm.frames, hx.log⟩

theorem keeps_noteLeaf {fs : List Frame} (l : Except EvalError (Leaf R)) :
    Keeps (SoundIn fs) (noteLeaf l : Run R (Recorder R B) Unit) := by
  intro m hm
  cases l with
  | error e => exact hm
  | ok l => exact hm.note trivial

theorem keeps_repeatRequest {fs : List Frame} {r : Request (Recorder R B) Unit}
    (h : Keeps (Recorder.Sound fs) r) (n : Nat) :
    Keeps (SoundIn fs) (Run.repeatRequest (R := R) r n) := by
  induction n with
  | zero => exact .pure ()
  | succ n ih => exact (keeps_request h).bind fun _ => ih

/-! Gates without a body -/

variable [Scalar R] [Backend R B]

omit [Scalar R] in
theorem keeps_applyAll {fs : List Frame} (hfs : Chained fs)
    {ops : List (Operation (Amplitude R))}
    (hops : ∀ op ∈ ops, ∀ f ∈ fs.head?, f.controls ⊆ op.controls) :
    Keeps (Recorder.Sound fs) (Backend.applyAll ops : Request (Recorder R B) Unit) :=
  .forM fun op hop =>
    have hsound : (⟨fs, .apply op⟩ : LogEntry R).Sound := ⟨hfs, hops op hop⟩
    Recorder.keeps_forward hsound _

/-- Whatever stands in a body is handed what the call of the body hands down. -/
def HandsTo (fs : List Frame) (ms : List Modifier) (qs : List Expr) : Prop :=
  ∀ f ∈ fs.head?, f.Hands ms qs

/-- The scope is one in which the body of the innermost call runs. -/
def Inside (fs : List Frame) (s : Scope R) : Prop := ∀ f ∈ fs.head?, f.Runs s

omit [Scalar R] in
theorem inside_nil (s : Scope R) : Inside [] s := nofun

/-- A further call, once its modifiers resolve. -/
theorem chained_frame {fs : List Frame} (hfs : Chained fs) {s : Scope R} (hs : Inside fs s)
    {place : Place} {call : Call}
    (hands : place = .statement → HandsTo fs call.modifiers call.qargs) {as : List Applied}
    (has : s.applied call.modifiers call.qargs = .ok as) (formals : List String) :
    Chained (s.frame place formals call :: fs) := by
  refine List.isChain_cons.2 ⟨fun f hf => ?_, hfs⟩
  exact (hs f hf).inherits (fun hplace => hands hplace f hf) has formals

section Leaves

variable {fs : List Frame} (hfs : Chained fs) {s : Scope R} (hs : Inside fs s) {place : Place}
  {call : Call} (hands : place = .statement → HandsTo fs call.modifiers call.qargs)

include hfs hs hands

/-- Operations that have the single control qubits of a call. -/
theorem keeps_operations {as : List Applied}
    (has : s.applied call.modifiers call.qargs = .ok as) {ops : List (Operation (Amplitude R))}
    (hops : ∀ op ∈ ops, as.flatMap Applied.controls ⊆ op.controls) :
    Keeps (Recorder.Sound (s.frame place [] call :: fs))
      (Backend.applyAll ops : Request (Recorder R B) Unit) := by
  refine keeps_applyAll (chained_frame hfs hs hands has []) fun op hop f hf => ?_
  obtain rfl : s.frame place [] call = f := by simpa using hf
  rw [Scope.frame_eq call has]
  exact hops op hop

theorem keeps_applyStandard (gate : StandardGate) :
    Keeps (SoundIn (s.frame place [] call :: fs))
      (Run.applyStandard s gate call.modifiers call.params call.qargs :
        Run R (Recorder R B) Unit) := by
  refine .lift_bind fun ops hops => ?_
  obtain ⟨as, has, hcontrols⟩ := Scope.applied_of_standardOperations hops
  exact keeps_request (keeps_operations hfs hs hands has hcontrols)

theorem keeps_applyFourier (gate : Builtin) :
    Keeps (SoundIn (s.frame place [] call :: fs))
      (Run.applyFourier s gate call.modifiers call.params call.qargs :
        Run R (Recorder R B) Unit) := by
  refine .lift_bind fun c hc => keeps_repeatRequest ?_ c.times
  obtain ⟨as, has, hcontrols⟩ := Scope.applied_of_fourierCall hc
  split
  · refine keeps_operations hfs hs hands has fun op hop => ?_
    exact List.Subset.trans hcontrols (Fourier.subset_inverseOperations hop)
  · refine keeps_operations hfs hs hands has fun op hop => ?_
    exact List.Subset.trans hcontrols (Fourier.subset_operations hop)

omit [Backend R B] hfs hs hands in
theorem keeps_applyLeaf {gate : LeafGate} {x : Run R (Recorder R B) Unit}
    (hx : Keeps (SoundIn (s.frame place [] call :: fs)) x) :
    Keeps (SoundIn fs) (applyLeaf place s gate call x) :=
  keeps_inFrame ((keeps_noteLeaf _).bind fun _ => hx)

end Leaves

theorem keeps_applyBuiltin {fs : List Frame} (hfs : Chained fs) {s : Scope R} (hs : Inside fs s)
    (gate : Builtin) {ms : List Modifier} (params : List Expr) {qargs : List Expr}
    (hands : HandsTo fs ms qargs) :
    Keeps (SoundIn fs) (applyBuiltin s gate ms params qargs : Run R (Recorder R B) Unit) := by
  have hcall : Place.statement = .statement →
      HandsTo fs (⟨gate.text, ms, params, qargs⟩ : Call).modifiers
        (⟨gate.text, ms, params, qargs⟩ : Call).qargs := fun _ => hands
  cases gate with
  | cmodexp2 =>
      exact .lift_bind fun c _ =>
        have hsound : (⟨fs, .modularPower c.base c.modulus c.control c.target⟩ :
          LogEntry R).Sound := trivial
        keeps_request (Recorder.keeps_forward hsound _)
  | qft => exact keeps_applyLeaf (keeps_applyFourier hfs hs hcall .qft)
  | iqft => exact keeps_applyLeaf (keeps_applyFourier hfs hs hcall .iqft)
  | _ => exact keeps_applyLeaf (keeps_applyStandard hfs hs hcall _)

/-! Measurements and output -/

omit [Scalar R] in
theorem modifiers_of_checkUnitary {fs : List Frame} {s : Scope R} (hs : Inside fs s)
    {what : String} (h : s.checkUnitary what = .ok ()) : ∀ f ∈ fs.head?, f.modifiers = [] := by
  intro f hf
  refine (hs f hf).modifiers ?_
  unfold Scope.checkUnitary at h
  split at h
  · assumption
  · cases h

omit [Scalar R] in
theorem keeps_measureEach {fs : List Frame} (hfs : Chained fs)
    (hmods : ∀ f ∈ fs.head?, f.modifiers = []) (qs : List QubitId) :
    Keeps (SoundIn fs) (Run.measureEach qs : Run R (Recorder R B) (List Bool)) := by
  induction qs with
  | nil => exact .pure []
  | cons q qs ih =>
      have hsound : (⟨fs, .measure q⟩ : LogEntry R).Sound := ⟨hfs, hmods⟩
      exact (keeps_request (Recorder.keeps_forward hsound _)).bind fun _ =>
        ih.bind fun _ => .pure _

theorem keeps_measure {fs : List Frame} (hfs : Chained fs) {s : Scope R} (hs : Inside fs s)
    (qargs : List Expr) :
    Keeps (SoundIn fs) (Run.measure s qargs : Run R (Recorder R B) (Value R)) :=
  .lift_bind fun _ hunitary => .lift_bind fun qs _ =>
    (keeps_measureEach hfs (modifiers_of_checkUnitary hs hunitary) qs).bind fun _ => .pure _

theorem keeps_resetEach {fs : List Frame} (hfs : Chained fs)
    (hmods : ∀ f ∈ fs.head?, f.modifiers = []) (s : Scope R) (qargs : List Expr) :
    Keeps (SoundIn fs) (Run.resetEach s qargs : Run R (Recorder R B) Unit) := by
  induction qargs with
  | nil => exact .pure ()
  | cons e es ih =>
      refine .lift_bind fun qs _ => Keeps.bind (.forM fun q _ => ?_) fun _ => ih
      have hsound : (⟨fs, .reset q⟩ : LogEntry R).Sound := ⟨hfs, hmods⟩
      exact keeps_request (Recorder.keeps_forward hsound _)

theorem keeps_reset {fs : List Frame} (hfs : Chained fs) {s : Scope R} (hs : Inside fs s)
    (qargs : List Expr) : Keeps (SoundIn fs) (Run.reset s qargs : Run R (Recorder R B) Unit) :=
  .lift_bind fun _ hunitary =>
    keeps_resetEach hfs (modifiers_of_checkUnitary hs hunitary) s qargs

theorem keeps_print {fs : List Frame} (s : Scope R) (args : List Expr) :
    Keeps (SoundIn fs) (Run.print s args : Run R (Recorder R B) Unit) := by
  have hemit : ∀ views : List QubitView × List BitView,
      Keeps (SoundIn fs) (do Run.emit (Snapshot.capture views.1 views.2
        (Backend.amplitudes (← get).backend)) : Run R (Recorder R B) Unit) := fun views m hm => hm
  rw [Run.print]
  split
  · exact (Keeps.pure _).bind hemit
  · exact (Keeps.lift _).bind hemit

/-! Calls -/

/-- How bodies are run: whatever body is run in whatever calls, the log stays sound. -/
def RunnerKeeps (deeper : Option (BodyRunner R (Recorder R B))) : Prop :=
  ∀ run ∈ deeper, ∀ fs s body, Chained fs → Inside fs s → Stmt.EachApplies (HandsTo fs) body →
    Keeps (SoundIn fs) (run s body)

omit [Scalar R] [Backend R B] in
theorem enter_framed {s : Scope R} {config : Config} {f : Frame}
    {deeper : Option (BodyRunner R (Recorder R B))} {name : String}
    {run : BodyRunner R (Recorder R B)} (h : s.enter config (framed f deeper) name = .ok run) :
    ∃ run' ∈ deeper, run = fun inner body => inFrame f (run' inner body) := by
  unfold Scope.enter at h
  split at h
  · cases h
  · cases deeper with
    | none => cases h
    | some run' =>
        cases h
        exact ⟨run', rfl, rfl⟩

/-- The body of a gate runs in a scope where its control qubits have their names. -/
theorem runs_prepared {s : Scope R} {gate : GateDef} {call : Call} {inner : Scope R}
    {body : Block} (p : s.Prepared gate call inner body) (place : Place) :
    (s.frame place gate.qargs call).Runs inner := by
  have hscope := p.scope_eq.trans (Scope.gateScope_eq ..)
  rw [Scope.frame_eq call p.applied]
  refine ⟨by rw [hscope]; rfl, fun hmods => ?_, p.counts, fun arg harg => ?_,
    fun hnames i arg harg => ?_⟩
  · rw [hscope] at hmods
    have hlen := Scope.length_of_applied p.applied
    rw [show call.modifiers = [] from hmods] at hlen
    exact List.length_eq_zero_iff.1 hlen
  · rw [Frame.controlArgs, p.args] at harg
    obtain ⟨q, -, rfl⟩ := List.mem_map.1 harg
    exact ⟨q, rfl⟩
  · have hi : i < (Frame.mk call.name place p.modifiers gate.qargs).controlArgs.length :=
      (List.getElem?_eq_some_iff.1 harg).1
    rw [Frame.controlArgs, p.args, List.getElem?_map, Option.map_eq_some_iff] at harg
    obtain ⟨q, hq, rfl⟩ := harg
    rw [p.scope_eq]
    exact Scope.get?_gateScope_control hq fun hmem => hnames ⟨i, hi, hmem⟩

omit [Backend R B] in
theorem keeps_callGate (config : Config) {deeper : Option (BodyRunner R (Recorder R B))}
    (hdeeper : RunnerKeeps deeper) {fs : List Frame} (hfs : Chained fs) {s : Scope R}
    (hs : Inside fs s) {place : Place} {call : Call}
    (hands : place = .statement → HandsTo fs call.modifiers call.qargs) (gate : GateDef) :
    Keeps (SoundIn fs)
      (Run.callGate config (framed (s.frame place gate.qargs call) deeper) s gate call) := by
  refine .lift_bind fun run hrun => .lift_bind fun prepared hprepared => ?_
  obtain ⟨inner, body⟩ := prepared
  obtain ⟨run', hmem, rfl⟩ := enter_framed hrun
  obtain ⟨⟨p⟩, -⟩ := Scope.prepareGate_ok hprepared
  have hchain := chained_frame hfs hs hands p.applied gate.qargs
  have hbody : Stmt.EachApplies (HandsTo (s.frame place gate.qargs call :: fs)) body := by
    rw [p.body_eq]
    refine Block.applies_mono (fun ms qs h f hf => ?_)
      (Frame.hands_turned ⟨call.name, place, p.modifiers, gate.qargs⟩ gate.body)
    obtain rfl : s.frame place gate.qargs call = f := by simpa using hf
    rwa [Scope.frame_eq call p.applied]
  refine (keeps_inFrame (hdeeper run' hmem _ inner body hchain ?_ hbody)).bind fun _ => .pure _
  intro f hf
  obtain rfl : s.frame place gate.qargs call = f := by simpa using hf
  exact runs_prepared p place

/-- What variables, bits and definitions leave alone in a scope. -/
structure SameCall (s s' : Scope R) : Prop where
  qubits : s'.qubits = s.qubits
  modifiers : s'.modifiers = s.modifiers
  outer : s'.outer = s.outer

omit [Scalar R] in
theorem sameCall_setVariable {s s' : Scope R} {name : String} {c : Const R}
    (h : s.setVariable name c = .ok s') : SameCall s s' := by
  unfold Scope.setVariable at h
  split at h
  · cases h
  · cases h
    exact ⟨rfl, rfl, rfl⟩

omit [Scalar R] in
theorem sameCall_addGate {s s' : Scope R} {d : GateDef} (h : s.addGate d = .ok s') :
    SameCall s s' := by
  unfold Scope.addGate at h
  split at h
  · cases h
    exact ⟨rfl, rfl, rfl⟩
  · cases h

omit [Scalar R] in
theorem sameCall_addSubroutine {s s' : Scope R} {d : SubroutineDef}
    (h : s.addSubroutine d = .ok s') : SameCall s s' := by
  unfold Scope.addSubroutine at h
  split at h
  · cases h
    exact ⟨rfl, rfl, rfl⟩
  · cases h

theorem sameCall_assign {s s' : Scope R} {target : Expr} {v : Value R}
    (h : s.assign target v = .ok s') : SameCall s s' := by
  unfold Scope.assign at h
  obtain ⟨⟨name, index⟩, -, h⟩ := bind_ok_iff.1 h
  dsimp only at h
  split at h
  · obtain ⟨bits, -, h⟩ := bind_ok_iff.1 h
    cases h
    exact ⟨rfl, rfl, rfl⟩
  · split at h
    · obtain ⟨c, -, h⟩ := bind_ok_iff.1 h
      exact sameCall_setVariable h
    split at h
    · cases h
    split at h
    · cases h
    · cases h

omit [Scalar R] in
theorem outer_of_bindArgs {bs : List (TypedName × Arg R)} {s s' : Scope R}
    (h : bs.foldlM (fun t (p, arg) => t.bindArg p.name arg) s = .ok s') : s'.outer = s.outer := by
  induction bs generalizing s with
  | nil =>
      cases h
      rfl
  | cons b bs ih =>
      obtain ⟨p, arg⟩ := b
      obtain ⟨t, ht, h⟩ := bind_ok_iff.1 h
      rw [ih h]
      cases arg with
      | qubits qs =>
          cases ht
          rfl
      | bits bits =>
          cases ht
          rfl
      | scalar c => exact (sameCall_setVariable ht).outer

theorem isGlobal_subroutineScope {s inner : Scope R} {d : SubroutineDef} {args : List (Arg R)}
    {qargs : List Expr} (h : s.subroutineScope d args qargs = .ok inner) :
    inner.isGlobal = false := by
  unfold Scope.subroutineScope at h
  obtain ⟨qubits, -, h⟩ := bind_ok_iff.1 h
  obtain ⟨s₁, hs₁, h⟩ := bind_ok_iff.1 h
  cases h
  have houter := outer_of_bindArgs hs₁
  rw [Scope.foldl_addQubits, Scope.isGlobal, houter]
  rfl

omit [Scalar R] in
/-- A call without modifiers asks nothing of its body. -/
theorem runs_of_modifiers_eq_nil {f : Frame} (hf : f.modifiers = []) {s : Scope R}
    (hs : s.isGlobal = false) : f.Runs s := by
  refine ⟨hs, fun _ => hf, by simp [hf], by simp [Frame.controlArgs, hf], fun _ i arg harg => ?_⟩
  rw [Frame.controlArgs, hf] at harg
  simp at harg

theorem hands_of_modifiers_eq_nil {f : Frame} (hf : f.modifiers = []) (ms : List Modifier)
    (qs : List Expr) : f.Hands ms qs := by
  refine ⟨⟨ms, qs, ?_, ?_⟩, fun _ a ha => ?_⟩
  · rw [hf]
    rfl
  · rw [hf]
    rfl
  · rw [hf] at ha
    cases ha

omit [Backend R B] in
theorem keeps_callSubroutine (config : Config) {deeper : Option (BodyRunner R (Recorder R B))}
    (hdeeper : RunnerKeeps deeper) {fs : List Frame} (hfs : Chained fs) {s : Scope R}
    (hs : Inside fs s) {place : Place} {call : Call}
    (hands : place = .statement → HandsTo fs call.modifiers call.qargs) (d : SubroutineDef)
    {args : Run R (Recorder R B) (List (Arg R))} (hargs : Keeps (SoundIn fs) args) :
    Keeps (SoundIn fs)
      (Run.callSubroutine config (framed (s.frame place d.qargs call) deeper) s d call args) := by
  obtain ⟨name, ms, params, qargs⟩ := call
  cases ms with
  | cons m ms => exact .throw _
  | nil =>
      have hchain := chained_frame hfs hs hands rfl d.qargs
      refine .lift_bind fun run hrun => ?_
      obtain ⟨run', hmem, rfl⟩ := enter_framed hrun
      dsimp only
      split
      · exact .throw _
      split
      · exact .throw _
      refine hargs.bind fun as => .lift_bind fun inner hinner => ?_
      refine (keeps_inFrame (hdeeper run' hmem _ inner d.body hchain ?_ ?_)).bind ?_
      · intro f hf
        obtain rfl : s.frame place d.qargs ⟨name, [], params, qargs⟩ = f := by simpa using hf
        exact runs_of_modifiers_eq_nil rfl (isGlobal_subroutineScope hinner)
      · refine Stmt.eachApplies_iff.2 fun c _ => Stmt.applies_of_forall (fun ms qs f hf => ?_) c
        obtain rfl : s.frame place d.qargs ⟨name, [], params, qargs⟩ = f := by simpa using hf
        exact hands_of_modifiers_eq_nil rfl ms qs
      · rintro ⟨final, flow⟩
        cases flow <;> exact .lift _

theorem keeps_plainValue {fs : List Frame} (hfs : Chained fs) {s : Scope R} (hs : Inside fs s)
    (place : Place) (config : Config) (deeper : Option (BodyRunner R (Recorder R B)))
    {e : Expr} (he : ∀ name ms ps qs, e ≠ .call name ms ps qs) :
    Keeps (SoundIn fs) (value place config deeper s e) := by
  rw [value_eq place config deeper s he]
  cases e with
  | call name ms ps qs => exact absurd rfl (he name ms ps qs)
  | measure qs =>
      rw [Run.value]
      exact keeps_measure hfs hs qs
  | ident name | index name i =>
      rw [Run.value]
      split
      · exact (Keeps.lift _).bind fun _ => .pure _
      · exact (Keeps.lift _).bind fun _ => .pure _
  | _ =>
      rw [Run.value]
      exact (Keeps.lift _).bind fun _ => .pure _

/-- The text of an expression, if it is a call that stands as a statement. -/
def HandsToExpr (fs : List Frame) (place : Place) (e : Expr) : Prop :=
  place = .statement → (Stmt.expr e).Applies (HandsTo fs)

mutual

theorem keeps_value (config : Config) {deeper : Option (BodyRunner R (Recorder R B))}
    (hdeeper : RunnerKeeps deeper) {fs : List Frame} (hfs : Chained fs) {s : Scope R}
    (hs : Inside fs s) (place : Place) : ∀ e : Expr, HandsToExpr fs place e →
    Keeps (SoundIn fs) (value place config deeper s e)
  | .call name ms ps qs, hands => by
      have hcall : place = .statement →
          HandsTo fs (⟨name, ms, ps, qs⟩ : Call).modifiers (⟨name, ms, ps, qs⟩ : Call).qargs :=
        hands
      rw [value]
      cases s.gates.get? name with
      | some gate => exact keeps_callGate config hdeeper hfs hs hcall gate
      | none =>
          cases s.subroutines.get? name with
          | some d =>
              exact keeps_callSubroutine config hdeeper hfs hs hcall d
                (keeps_arguments config hdeeper hfs hs d.params ps)
          | none =>
              cases StandardGate.ofName? name with
              | some gate =>
                  exact (keeps_applyLeaf (keeps_applyStandard hfs hs hcall gate)).bind
                    fun _ => .pure _
              | none => exact .throw _
  | .measure _, _ => keeps_plainValue hfs hs place config deeper (by simp)
  | .ident _, _ => keeps_plainValue hfs hs place config deeper (by simp)
  | .index _ _, _ => keeps_plainValue hfs hs place config deeper (by simp)
  | .lit _, _ => keeps_plainValue hfs hs place config deeper (by simp)
  | .binary _ _ _, _ => keeps_plainValue hfs hs place config deeper (by simp)
  | .unary _ _, _ => keeps_plainValue hfs hs place config deeper (by simp)
  | .paren _, _ => keeps_plainValue hfs hs place config deeper (by simp)

theorem keeps_arguments (config : Config) {deeper : Option (BodyRunner R (Recorder R B))}
    (hdeeper : RunnerKeeps deeper) {fs : List Frame} (hfs : Chained fs) {s : Scope R}
    (hs : Inside fs s) (params : List TypedName) : ∀ es : List Expr,
    Keeps (SoundIn fs) (arguments config deeper s params es)
  | [] => by
      rw [arguments]
      exact .pure _
  | e :: es => by
      cases params with
      | nil =>
          rw [arguments]
          exact .pure _
      | cons p ps =>
          rw [arguments]
          have harg := keeps_value config hdeeper hfs hs .value e nofun
          have hrest : ∀ arg : Arg R, Keeps (SoundIn fs)
              (do return arg :: (← arguments config deeper s ps es)) :=
            fun arg => (keeps_arguments config hdeeper hfs hs ps es).bind fun _ => .pure _
          cases p.type.kind with
          | qubit =>
              refine (Keeps.lift _).bind fun qs => (Keeps.lift _).bind fun size => ?_
              dsimp only
              split
              · exact .throw _
              · exact (Keeps.pure _).bind hrest
          | bit =>
              exact (Keeps.lift _).bind fun size => harg.bind fun v =>
                (Keeps.lift _).bind fun _ => (Keeps.pure _).bind hrest
          | _ =>
              exact harg.bind fun v => (Keeps.lift _).bind fun c =>
                (Keeps.lift _).bind fun _ => (Keeps.pure _).bind hrest

end

/-! Statements and programs -/

/-- A scope of the innermost call and a machine whose recorder is sound. -/
def SoundAt (fs : List Frame) (state : Scope R × Machine R (Recorder R B)) : Prop :=
  Inside fs state.1 ∧ SoundIn fs state.2

omit [Scalar R] [Backend R B] in
theorem keeps_ofRun {fs : List Frame} {x : Scope R → Run R (Recorder R B) α}
    (h : ∀ s, Inside fs s → Keeps (SoundIn fs) (x s)) : Keeps (SoundAt fs) (Exec.ofRun x) :=
  fun (s, m) hstate => ⟨hstate.1, h s hstate.1 m hstate.2⟩

omit [Scalar R] [Backend R B] in
theorem inside_sameCall {fs : List Frame} {s s' : Scope R} (h : SameCall s s')
    (hs : Inside fs s) : Inside fs s' := by
  intro f hf
  obtain ⟨hinside, hmods, hcounted, hsingle, hbound⟩ := hs f hf
  refine ⟨?_, ?_, hcounted, hsingle, ?_⟩
  · rwa [Scope.isGlobal, h.outer]
  · rwa [h.modifiers]
  · rwa [h.qubits]

omit [Scalar R] [Backend R B] in
theorem keeps_update {fs : List Frame} {g : Scope R → Except EvalError (Scope R)}
    (h : ∀ s s', Inside fs s → g s = .ok s' → Inside fs s') :
    Keeps (SoundAt fs) (Exec.update g : Exec R (Recorder R B) Unit) := by
  rintro ⟨s, m⟩ ⟨hs, hm⟩
  simp only [Exec.update]
  cases hg : g s with
  | error e => exact ⟨hs, hm⟩
  | ok s' => exact ⟨h s s' hs hg, hm⟩

omit [Scalar R] [Backend R B] in
theorem keeps_within {fs : List Frame} {x : Exec R (Recorder R B) α} (h : Keeps (SoundAt fs) x)
    {s : Scope R} (hs : Inside fs s) : Keeps (SoundIn fs) (x.within s) := by
  intro m hm
  have hx := (h (s, m) ⟨hs, hm⟩).2
  simp only [Exec.within]
  revert hx
  rcases x (s, m) with ⟨result, s', m'⟩
  intro hx
  cases result <;> exact hx

theorem keeps_declare (fs : List Frame) (d : TypedName) :
    Keeps (SoundAt fs) (Exec.declare d : Exec R (Recorder R B) Unit) := by
  cases hd : d.type.kind with
  | qubit =>
      cases fs with
      | nil =>
          rw [Exec.declare, hd]
          refine (keeps_ofRun fun s _ => ?_).bind fun qs => keeps_update fun s s' _ _ => inside_nil s'
          dsimp only
          split
          · exact .throw _
          · exact (Keeps.lift _).bind fun size =>
              have hsound : (⟨[], .allocate size⟩ : LogEntry R).Sound := trivial
              keeps_request (Recorder.keeps_forward hsound _)
      | cons f fs =>
          rintro ⟨s, m⟩ hstate
          rw [Exec.declare_refused hd (hstate.1 f rfl).inside]
          exact hstate
  | bit =>
      rw [Exec.declare, hd]
      refine keeps_update fun s s' hs h => ?_
      obtain ⟨size, -, h⟩ := bind_ok_iff.1 h
      cases h
      exact inside_sameCall (s := s) ⟨rfl, rfl, rfl⟩ hs
  | _ =>
      rw [Exec.declare, hd]
      refine keeps_update fun s s' hs h => ?_
      obtain ⟨c, -, h⟩ := bind_ok_iff.1 h
      exact inside_sameCall (sameCall_setVariable h) hs

omit [Backend R B] in
theorem keeps_declareConst (fs : List Frame) (type : Option TypeSpec) (name : String) (e : Expr) :
    Keeps (SoundAt fs) (Exec.declareConst type name e : Exec R (Recorder R B) Unit) := by
  refine keeps_update fun s s' hs h => ?_
  obtain ⟨c, -, h⟩ := bind_ok_iff.1 h
  cases type with
  | none =>
      cases h
      exact inside_sameCall (s := s) ⟨rfl, rfl, rfl⟩ hs
  | some t =>
      obtain ⟨c', -, h⟩ := bind_ok_iff.1 h
      cases h
      exact inside_sameCall (s := s) ⟨rfl, rfl, rfl⟩ hs

omit [Backend R B] in
theorem keeps_assign (fs : List Frame) (target : Expr) (v : Value R) :
    Keeps (SoundAt fs) (Exec.update fun s => s.assign target v : Exec R (Recorder R B) Unit) :=
  keeps_update fun _ _ hs h => inside_sameCall (sameCall_assign h) hs

mutual

theorem keeps_stmt (config : Config) {deeper : Option (BodyRunner R (Recorder R B))}
    (hdeeper : RunnerKeeps deeper) {fs : List Frame} (hfs : Chained fs) : ∀ c : Stmt,
    c.Applies (HandsTo fs) → Keeps (SoundAt fs) (stmt config deeper c)
  | .version _, _ => .pure _
  | .includes _, _ => .pure _
  | .declare d, _ => (keeps_declare fs d).bind fun _ => .pure _
  | .const type name e, _ => (keeps_declareConst fs type name e).bind fun _ => .pure _
  | .gate _ _ _ _, _ =>
      (keeps_update fun _ _ hs h => inside_sameCall (sameCall_addGate h) hs).bind fun _ => .pure _
  | .subroutine _ _ _ _ _, _ =>
      (keeps_update fun _ _ hs h => inside_sameCall (sameCall_addSubroutine h) hs).bind
        fun _ => .pure _
  | .returns none, _ => .pure _
  | .returns (some e), _ =>
      (keeps_ofRun fun s hs => keeps_value config hdeeper hfs hs .value e nofun).bind
        fun _ => .pure _
  | .arrow e target, _ =>
      (keeps_ofRun fun s hs => keeps_value config hdeeper hfs hs .value e nofun).bind
        fun v => (keeps_assign fs target v).bind fun _ => .pure _
  | .assign target e, _ =>
      (keeps_ofRun fun s hs => keeps_value config hdeeper hfs hs .value e nofun).bind
        fun v => (keeps_assign fs target v).bind fun _ => .pure _
  | .reset qargs, _ => (keeps_ofRun fun s hs => keeps_reset hfs hs qargs).bind fun _ => .pure _
  | .print args, _ => (keeps_ofRun fun s _ => keeps_print s args).bind fun _ => .pure _
  | .apply gate ms params qargs, hands =>
      (keeps_ofRun fun s hs => keeps_applyBuiltin hfs hs gate params hands).bind fun _ => .pure _
  | .expr (.call name ms ps qs), hands =>
      (keeps_ofRun fun s hs => keeps_value config hdeeper hfs hs .statement _ fun _ => hands).bind
        fun _ => .pure _
  | .expr (.measure qargs), _ =>
      (keeps_ofRun fun s hs =>
        keeps_plainValue (e := .measure qargs) hfs hs .statement config none (by simp)).bind
          fun _ => .pure _
  | .expr (.ident _), _ => .throw _
  | .expr (.index _ _), _ => .throw _
  | .expr (.lit _), _ => .throw _
  | .expr (.binary _ _ _), _ => .throw _
  | .expr (.unary _ _), _ => .throw _
  | .expr (.paren _), _ => .throw _
  | .block body, hands => keeps_stmts config hdeeper hfs body hands

theorem keeps_stmts (config : Config) {deeper : Option (BodyRunner R (Recorder R B))}
    (hdeeper : RunnerKeeps deeper) {fs : List Frame} (hfs : Chained fs) : ∀ cs : List Stmt,
    Stmt.EachApplies (HandsTo fs) cs → Keeps (SoundAt fs) (stmts config deeper cs)
  | [], _ => .pure _
  | c :: cs, hands => by
      refine (keeps_stmt config hdeeper hfs c hands.1).bind fun flow => ?_
      cases flow with
      | returned v => exact .pure _
      | next v => exact keeps_stmts config hdeeper hfs cs hands.2

end

omit [Scalar R] [Backend R B] in
theorem runnerKeeps_none : RunnerKeeps (R := R) (B := B) none := by
  intro run hrun
  cases hrun

theorem runnerKeeps_runBody (config : Config) (n : Nat) :
    RunnerKeeps (R := R) (B := B) (some (runBody config n)) := by
  induction n with
  | zero =>
      rintro _ ⟨⟩ fs s body hfs hs hbody
      exact keeps_within (keeps_stmts config runnerKeeps_none hfs body hbody) hs
  | succ n ih =>
      rintro _ ⟨⟩ fs s body hfs hs hbody
      exact keeps_within (keeps_stmts config ih hfs body hbody) hs

theorem runnerKeeps_bodyRunner (config : Config) :
    RunnerKeeps (R := R) (B := B) (bodyRunner? config) := by
  unfold bodyRunner?
  cases config.maxDepth with
  | zero => exact runnerKeeps_none
  | succ n => exact runnerKeeps_runBody config n

/-- Between top-level statements no call is being run. -/
theorem sound_topStmt (c : Stmt) {i : Interpreter R (Recorder R B)}
    (h : i.machine.backend.Sound []) : (topStmt c i).2.machine.backend.Sound [] := by
  have hands : c.Applies (HandsTo []) := Stmt.applies_of_forall (fun _ _ => nofun) c
  have hrun := keeps_stmt i.config (runnerKeeps_bodyRunner i.config) .nil c hands
    (i.scope, i.machine) ⟨inside_nil i.scope, h⟩
  simp only [topStmt]
  revert hrun
  rcases stmt i.config (bodyRunner? i.config) c (i.scope, i.machine) with ⟨result, s, m⟩
  intro hrun
  cases result <;> exact hrun.2

theorem sound_topStmts (cs : List Stmt) {i : Interpreter R (Recorder R B)}
    (h : i.machine.backend.Sound []) : (topStmts cs i).2.machine.backend.Sound [] := by
  induction cs generalizing i with
  | nil => exact h
  | cons c cs ih =>
      have hc := sound_topStmt c h
      rw [topStmts]
      revert hc
      rcases topStmt c i with ⟨result, j⟩
      intro hc
      cases result with
      | error e => exact hc
      | ok flow =>
          cases flow with
          | returned v => exact hc
          | next v => exact ih hc

/-- Every entry that the run of a program writes down is sound. -/
theorem sound_program (config : Config) (b : B) (p : Program) :
    ∀ entry ∈ (program config b p).2.machine.backend.log, entry.Sound := by
  have hstart : (Recorder.watch b : Recorder R B).Sound [] := ⟨rfl, by simp [Recorder.watch]⟩
  exact (sound_topStmts p.statements hstart).log

end Traced

end OpenQasm
