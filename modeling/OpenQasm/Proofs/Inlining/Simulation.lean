import OpenQasm.Proofs.Inlining.Scopes

/-!
# Running a definition further up

If a definition looks up none of the constants that two scopes may differ in, and neither
does what it calls, then wherever its run in the first scope succeeds, its run in the
second one does the same to the machine. The second run may be nested less deep.
-/
namespace OpenQasm

/-! Actions on two scopes -/

namespace Exec

variable {R B α β : Type}

theorem ran_update {f : Scope R → Except EvalError (Scope R)} {s s' : Scope R}
    {m m' : Machine R B} {a : Unit} :
    update f (s, m) = (.ok a, (s', m')) ↔ f s = .ok s' ∧ m' = m := by
  unfold update
  dsimp only
  cases f s with
  | error e =>
      constructor
      · intro h
        cases h
      · rintro ⟨h, -⟩
        cases h
  | ok t =>
      constructor
      · intro h
        cases h
        exact ⟨rfl, rfl⟩
      · rintro ⟨h, rfl⟩
        cases h
        rfl

/-- From scopes in a relation, the second action does what the first one does if that
succeeds. -/
def Relates (P : Scope R → Scope R → Prop) (Q : α → Scope R → Scope R → Prop)
    (x y : Exec R B α) : Prop :=
  ∀ s s' m a t m', P s s' → x (s, m) = (.ok a, (t, m')) →
    ∃ t', y (s', m) = (.ok a, (t', m')) ∧ Q a t t'

namespace Relates

variable {P : Scope R → Scope R → Prop} {Q : α → Scope R → Scope R → Prop}
  {x y : Exec R B α}

theorem pure {a : α} (h : ∀ s s', P s s' → Q a s s') :
    Relates (B := B) P Q (pure a) (pure a) := by
  intro s s' m b t m' hP hrun
  cases hrun
  exact ⟨s', rfl, h s s' hP⟩

theorem bind {S : β → Scope R → Scope R → Prop} {f g : α → Exec R B β} (hxy : Relates P Q x y)
    (hfg : ∀ a, Relates (Q a) S (f a) (g a)) : Relates P S (x >>= f) (y >>= g) := by
  intro s s' m b t m' hP hrun
  obtain ⟨a, ⟨t₁, m₁⟩, hx, hf⟩ := ran_bind.1 hrun
  obtain ⟨t₁', hy, hQ⟩ := hxy s s' m a t₁ m₁ hP hx
  obtain ⟨t', hg, hS⟩ := hfg a t₁ t₁' m₁ b t m' hQ hf
  exact ⟨t', ran_bind.2 ⟨a, (t₁', m₁), hy, hg⟩, hS⟩

theorem ofRun {f g : Scope R → Run R B α} (h : ∀ s s', P s s' → RunRefines (f s) (g s')) :
    Relates P (fun _ => P) (ofRun f) (ofRun g) := by
  intro s s' m a t m' hP hrun
  obtain ⟨rfl, hf⟩ := ran_ofRun.1 hrun
  exact ⟨s', ran_ofRun.2 ⟨rfl, h t s' hP a m m' hf⟩, hP⟩

theorem update {f g : Scope R → Except EvalError (Scope R)} {S : Scope R → Scope R → Prop}
    (h : ∀ s s' t, P s s' → f s = .ok t → ∃ t', g s' = .ok t' ∧ S t t') :
    Relates (B := B) P (fun _ => S) (update f) (update g) := by
  intro s s' m a t m' hP hrun
  obtain ⟨hf, rfl⟩ := ran_update.1 hrun
  obtain ⟨t', hg, hS⟩ := h s s' t hP hf
  exact ⟨t', ran_update.2 ⟨hg, rfl⟩, hS⟩

end Relates

end Exec

variable {R B : Type} [Scalar R] [Backend R B]

/-! Calls of subroutines -/

/-- A parameter takes arguments of its own kind. -/
def TypedName.Takes (p : TypedName) : Arg R → Prop
  | .qubits _ => p.type.kind = .qubit
  | .bits _ => p.type.kind = .bit
  | .scalar _ => p.type.kind ≠ .qubit ∧ p.type.kind ≠ .bit

theorem takes_of_arguments {config : Config} {deeper : Option (BodyRunner R B)} {s : Scope R}
    {params : List TypedName} {es : List Expr} (hlen : es.length = params.length)
    {m m' : Machine R B} {args : List (Arg R)}
    (h : Run.arguments config deeper s params es m = (.ok args, m')) :
    List.Forall₂ TypedName.Takes params args := by
  induction es generalizing params m args with
  | nil =>
      cases params with
      | nil =>
          cases h
          exact .nil
      | cons p ps => cases hlen
  | cons e es ih =>
      cases params with
      | nil => cases hlen
      | cons p ps =>
          have hrest : ∀ (arg : Arg R) {m₁ : Machine R B}, p.Takes arg →
              (do return arg :: (← Run.arguments config deeper s ps es) : Run R B _) m₁ =
                (.ok args, m') → List.Forall₂ TypedName.Takes (p :: ps) args := by
            intro arg m₁ harg hrun
            obtain ⟨args', m₂, hargs, hrun⟩ := ran_bind.1 hrun
            obtain ⟨rfl, rfl⟩ := ran_pure.1 hrun
            exact .cons harg (ih (by simpa using hlen) hargs)
          rw [Run.arguments] at h
          cases hkind : p.type.kind with
          | qubit =>
              rw [hkind] at h
              obtain ⟨qs, m₁, -, h⟩ := ran_bind.1 h
              obtain ⟨size, m₂, -, h⟩ := ran_bind.1 h
              dsimp only at h
              split at h
              · obtain ⟨_, _, hthrow, -⟩ := ran_bind.1 h
                cases hthrow
              · exact hrest (.qubits qs) hkind h
          | bit =>
              rw [hkind] at h
              obtain ⟨size, m₁, -, h⟩ := ran_bind.1 h
              obtain ⟨val, m₂, -, h⟩ := ran_bind.1 h
              obtain ⟨bs, m₃, -, h⟩ := ran_bind.1 h
              exact hrest (.bits bs) hkind h
          | _ =>
              rw [hkind] at h
              obtain ⟨val, m₁, -, h⟩ := ran_bind.1 h
              obtain ⟨c, m₂, -, h⟩ := ran_bind.1 h
              obtain ⟨c', m₃, -, h⟩ := ran_bind.1 h
              exact hrest (.scalar c') (by simp [TypedName.Takes, hkind]) h

namespace Lifting

variable {L : Lifting} {v w : Visibility} {s s' : Scope R}

omit [Scalar R] in
theorem Calls.gates (h : L.Calls s s') :
    s.gates = L.definitions.gates ∧ s'.gates = L.definitions.gates :=
  ⟨congrArg Definitions.gates h.definitions, congrArg Definitions.gates h.definitions'⟩

omit [Scalar R] in
theorem Calls.subroutines (h : L.Calls s s') :
    s.subroutines = L.definitions.subroutines ∧ s'.subroutines = L.definitions.subroutines :=
  ⟨congrArg Definitions.subroutines h.definitions, congrArg Definitions.subroutines h.definitions'⟩

omit [Scalar R] in
theorem Alike.bindArg (h : L.Alike v s s') {p : TypedName} {arg : Arg R} (harg : p.Takes arg)
    {t : Scope R} (ht : s.bindArg p.name arg = .ok t) :
    ∃ t', s'.bindArg p.name arg = .ok t' ∧ L.Alike (v.declare p) t t' := by
  cases arg with
  | qubits qs =>
      have hkind : p.type.kind = .qubit := harg
      cases ht
      refine ⟨_, rfl, ?_⟩
      rw [Visibility.declare, hkind]
      exact h.addQubits p.name qs
  | bits bs =>
      have hkind : p.type.kind = .bit := harg
      cases ht
      refine ⟨_, rfl, ?_⟩
      rw [Visibility.declare, hkind]
      exact h.addBits p.name bs
  | scalar c =>
      obtain ⟨hqubit, hbit⟩ : p.type.kind ≠ .qubit ∧ p.type.kind ≠ .bit := harg
      obtain ⟨t', ht', halike⟩ := h.setVariable ht
      rw [v.declare_scalar hqubit hbit]
      exact ⟨t', ht', halike⟩

omit [Scalar R] in
theorem Alike.bindArgs {params : List TypedName} {args : List (Arg R)}
    (hargs : List.Forall₂ TypedName.Takes params args) (h : L.Alike v s s') {t : Scope R}
    (ht : (params.zip args).foldlM (fun t (p, arg) => t.bindArg p.name arg) s = .ok t) :
    ∃ t', (params.zip args).foldlM (fun t (p, arg) => t.bindArg p.name arg) s' = .ok t' ∧
      L.Alike (params.foldl Visibility.declare v) t t' := by
  induction hargs generalizing v s s' with
  | nil =>
      cases ht
      exact ⟨s', rfl, h⟩
  | cons harg _ ih =>
      rw [List.zip_cons_cons, List.foldlM_cons] at ht ⊢
      obtain ⟨s₁, hs₁, ht⟩ := bind_ok_iff.1 ht
      obtain ⟨s₁', hs₁', halike⟩ := h.bindArg harg hs₁
      obtain ⟨t', ht', hend⟩ := ih halike ht
      exact ⟨t', bind_ok_iff.2 ⟨s₁', hs₁', ht'⟩, hend⟩

theorem Alike.subroutineScope (h : L.Alike v s s') {d : SubroutineDef} {args : List (Arg R)}
    (hargs : List.Forall₂ TypedName.Takes d.params args) {qs : List Expr}
    (hqs : ∀ e ∈ qs, e.IndexAvoids v.hidden) {inner : Scope R}
    (hinner : s.subroutineScope d args qs = .ok inner) :
    ∃ inner', s'.subroutineScope d args qs = .ok inner' ∧
      L.Alike ((Callee.subroutine d).visibility L.names) inner inner' := by
  unfold Scope.subroutineScope at hinner ⊢
  obtain ⟨qubits, hqubits, hinner⟩ := bind_ok_iff.1 hinner
  obtain ⟨t, ht, hinner⟩ := bind_ok_iff.1 hinner
  cases hinner
  obtain ⟨t', ht', halike⟩ := (h.calls.enclosed d.name).bindArgs hargs ht
  rw [← h.agrees.mapM_qubitsOf_eq hqs] at hqubits
  exact ⟨_, bind_ok_iff.2 ⟨qubits, hqubits, bind_ok_iff.2 ⟨t', ht', rfl⟩⟩,
    List.foldl_rel halike fun b _ _ _ h => h.addQubits b.1 b.2⟩

/-! Bodies -/

/-- A body that the first way of running it ends, the second one ends in the same way. -/
def RunsAlike (L : Lifting) (run run' : BodyRunner R B) : Prop :=
  ∀ ⦃v : Visibility⦄ ⦃s s' t : Scope R⦄ ⦃body : Block⦄ ⦃m m' : Machine R B⦄ ⦃flow : Flow R⦄,
    L.Alike v s s' → body.Allowed L.definitions L.allowed v →
    run s body m = (.ok (t, flow), m') →
    ∃ t', run' s' body m = (.ok (t', flow), m') ∧ L.Alike v t t'

/-- Bodies that can be run in the first way can be run in the second one. -/
def Simulates (L : Lifting) (deeper deeper' : Option (BodyRunner R B)) : Prop :=
  ∀ run, deeper = some run → ∃ run', deeper' = some run' ∧ L.RunsAlike run run'

variable {deeper deeper' : Option (BodyRunner R B)} {config : Config}

omit [Scalar R] [Backend R B] in
theorem Simulates.enter (hsim : L.Simulates deeper deeper') (h : L.Calls s s') {name : String}
    {run : BodyRunner R B} (hrun : s.enter config deeper name = .ok run) :
    name ≠ L.within ∧ ∃ run', s'.enter config deeper' name = .ok run' ∧ L.RunsAlike run run' := by
  unfold Scope.enter at hrun ⊢
  split at hrun
  · cases hrun
  rename_i hname
  cases hdeeper : deeper with
  | none =>
      rw [hdeeper] at hrun
      cases hrun
  | some run₁ =>
      rw [hdeeper] at hrun
      cases hrun
      obtain ⟨run', hrun', halike⟩ := hsim run hdeeper
      refine ⟨?_, run', ?_, halike⟩
      · rintro rfl
        exact hname h.within
      · rw [if_neg fun hmem => hname (h.chain hmem), hrun']

omit [Backend R B] in
/-- A call of a gate from two scopes. If the callee is not known to be one that may be inverted,
no modifier inverts it. -/
theorem refines_callGate (hclosed : L.Closed) (hsim : L.Simulates deeper deeper')
    (h : L.Calls s s') {gate : GateDef} {unordered : Bool}
    (hallowed : L.allowed (.gate gate unordered)) {ms ms' : List Modifier}
    {ps ps' qs qs' : List Expr} (hparts : s.SameParts s' ms ms' ps ps' qs qs')
    (hms : unordered = false → ms.any Modifier.mayInvert = false) (name name' : String) :
    RunRefines (Run.callGate config deeper s gate ⟨name, ms, ps, qs⟩)
      (Run.callGate config deeper' s' gate ⟨name', ms', ps', qs'⟩) := by
  refine .lift_bind_of fun run hrun => ?_
  obtain ⟨hname, run', hrun', halike⟩ := hsim.enter h hrun
  refine ⟨run', hrun', .lift_bind_of fun prepared hprepared => ?_⟩
  obtain ⟨inner, body⟩ := prepared
  obtain ⟨controls, targets, params, hlen, rfl, hprepared'⟩ :=
    hparts.prepareGate hprepared name'
  refine ⟨_, hprepared', .bind_of fun ended m m₁ hbody => ?_⟩
  have hmodifiers : ms = [] → ms' = [] := by
    rintro rfl
    exact List.forall₂_nil_left_iff.1 hparts.modifiers
  have hbodies : body.Allowed L.definitions L.allowed
      ((Callee.gate gate unordered).visibility L.names) :=
    (hclosed _ hallowed hname).1.of_prepareGate hprepared hms
  have hscopes : L.Alike ((Callee.gate gate unordered).visibility L.names)
      (s.gateScope gate ⟨name, ms, ps, qs⟩ controls targets params)
      (s'.gateScope gate ⟨name', ms', ps', qs'⟩ controls targets params) :=
    h.gateScope unordered hmodifiers controls targets hlen
  obtain ⟨t, flow⟩ := ended
  obtain ⟨t', hbody', -⟩ := halike hscopes hbodies hbody
  exact ⟨(t', flow), hbody', .refl _⟩

omit [Backend R B] in
theorem refines_callSubroutine (hclosed : L.Closed) (hsim : L.Simulates deeper deeper')
    (h : L.Alike v s s') {d : SubroutineDef} (hallowed : L.allowed (.subroutine d)) {call : Call}
    (hqs : ∀ e ∈ call.qargs, e.IndexAvoids v.hidden) {args args' : Run R B (List (Arg R))}
    (hargs : RunRefines args args')
    (htakes : call.params.length = d.params.length → ∀ {as m m'}, args m = (.ok as, m') →
      List.Forall₂ TypedName.Takes d.params as) :
    RunRefines (Run.callSubroutine config deeper s d call args)
      (Run.callSubroutine config deeper' s' d call args') := by
  unfold Run.callSubroutine
  obtain ⟨name, ms, params, qargs⟩ := call
  cases ms with
  | cons m ms => exact .throw _ _
  | nil =>
      refine .lift_bind_of fun run hrun => ?_
      obtain ⟨hname, run', hrun', halike⟩ := hsim.enter h.calls hrun
      refine ⟨run', hrun', ?_⟩
      dsimp only at htakes ⊢
      split
      · exact .throw _ _
      rename_i hlen
      split
      · exact .throw _ _
      refine .bind_of fun as m₀ m₁ has => ⟨as, hargs as m₀ m₁ has, ?_⟩
      refine .lift_bind_of fun inner hinner => ?_
      obtain ⟨inner', hinner', hscopes⟩ :=
        h.subroutineScope (htakes (not_not.1 hlen) has) hqs hinner
      refine ⟨inner', hinner', .bind_of fun ended m₂ m₃ hbody => ?_⟩
      obtain ⟨final, flow⟩ := ended
      obtain ⟨hbodies, hresult⟩ := hclosed _ hallowed hname
      obtain ⟨final', hbody', hfinal⟩ := halike hscopes hbodies hbody
      refine ⟨(final', flow), hbody', ?_⟩
      cases flow with
      | next val | returned val =>
          dsimp only
          rw [hfinal.agrees.convertResult_eq hresult]
          exact .refl _

/-! Values -/

omit [Scalar R] in
theorem Alike.checkUnitary (h : L.Alike v s s') (what : String) :
    Refines (s.checkUnitary what) (s'.checkUnitary what) := by
  unfold Scope.checkUnitary
  cases hs : s.modifiers with
  | nil =>
      rw [h.modifiers hs]
      exact .refl _
  | cons m ms => exact .error _ _

theorem Alike.measure (h : L.Alike v s s') {qs : List Expr}
    (hqs : ∀ e ∈ qs, e.IndexAvoids v.hidden) :
    RunRefines (Run.measure (B := B) s qs) (Run.measure s' qs) := by
  unfold Run.measure
  rw [h.agrees.measuredQubits_eq hqs]
  exact (RunRefines.lift (h.checkUnitary "measure")).bind fun _ => .refl _

theorem Alike.reset (h : L.Alike v s s') {qs : List Expr}
    (hqs : ∀ e ∈ qs, e.IndexAvoids v.hidden) :
    RunRefines (Run.reset (B := B) s qs) (Run.reset s' qs) := by
  unfold Run.reset
  rw [h.agrees.resetEach_eq hqs]
  exact (RunRefines.lift (h.checkUnitary "reset")).bind fun _ => .refl _

theorem Alike.print (h : L.Alike v s s') {es : List Expr}
    (hes : ∀ e ∈ es, e.IndexAvoids v.hidden) :
    RunRefines (Run.print (B := B) s es) (Run.print s' es) := by
  rw [h.agrees.print_eq hes]
  exact .refl _

def CallsAllowed (L : Lifting) (xs : List (String × Bool)) : Prop :=
  ∀ x ∈ xs, ∀ c, L.definitions.callee? x = some c → L.allowed c

/-- A call of a gate, with a body or without one, whose parts resolve to the same. -/
theorem refines_gateCall (hclosed : L.Closed) (hsim : L.Simulates deeper deeper')
    (h : L.Calls s s') {ms ms' : List Modifier} {ps ps' qs qs' : List Expr}
    (hparts : s.SameParts s' ms ms' ps ps' qs qs') {name : String}
    (hname : L.definitions.gates.get? name = none → L.definitions.subroutines.get? name = none)
    (unordered : Bool) (hms : unordered = false → ms.any Modifier.mayInvert = false)
    (hallowed : L.CallsAllowed [(name, unordered)]) :
    RunRefines (Run.value config deeper s (.call name ms ps qs))
      (Run.value config deeper' s' (.call name ms' ps' qs')) := by
  rw [Run.value, Run.value, h.gates.1, h.gates.2, h.subroutines.1, h.subroutines.2]
  cases hgate : L.definitions.gates.get? name with
  | some gate =>
      have hcallee : L.definitions.callee? (name, unordered) = some (.gate gate unordered) := by
        rw [Definitions.callee?, hgate]
      exact refines_callGate hclosed hsim h (hallowed _ List.mem_cons_self _ hcallee) hparts hms
        name name
  | none =>
      rw [hname hgate]
      dsimp only
      split
      · exact (Run.refines_applyStandard hparts _).bind fun _ => .refl _
      · exact .throw _ _

/-- A call is evaluated in the same way if its arguments are. -/
theorem refines_call (hclosed : L.Closed) (hsim : L.Simulates deeper deeper')
    (h : L.Alike v s s') {name : String} {ms : List Modifier} {ps qs : List Expr}
    (hclear : (Expr.call name ms ps qs).Clear L.definitions v) (unordered : Bool)
    (hms : unordered = false → ms.any Modifier.mayInvert = false)
    (hallowed : L.CallsAllowed [(name, unordered)])
    (hargs : ∀ d : SubroutineDef, Expr.ArgumentsClear L.definitions v d.params ps →
      RunRefines (Run.arguments config deeper s d.params ps)
        (Run.arguments config deeper' s' d.params ps)) :
    RunRefines (Run.value config deeper s (.call name ms ps qs))
      (Run.value config deeper' s' (.call name ms ps qs)) := by
  rw [Expr.Clear] at hclear
  obtain ⟨hmodifiers, hqs, hps⟩ := hclear
  cases hgate : L.definitions.gates.get? name with
  | some gate =>
      rw [hgate] at hps
      refine refines_gateCall hclosed hsim h.calls (h.sameParts hmodifiers hps hqs)
        (fun hnone => ?_) unordered hms hallowed
      rw [hgate] at hnone
      cases hnone
  | none =>
      rw [hgate] at hps
      cases hsubroutine : L.definitions.subroutines.get? name with
      | none =>
          rw [hsubroutine] at hps
          exact refines_gateCall hclosed hsim h.calls (h.sameParts hmodifiers hps hqs)
            (fun _ => hsubroutine) unordered hms hallowed
      | some d =>
          rw [hsubroutine] at hps
          have hcallee : L.definitions.callee? (name, unordered) = some (.subroutine d) := by
            rw [Definitions.callee?, hgate]
            exact congrArg (Option.map Callee.subroutine) hsubroutine
          rw [Run.value, Run.value, h.calls.gates.1, h.calls.gates.2, h.calls.subroutines.1,
            h.calls.subroutines.2, hgate, hsubroutine]
          exact refines_callSubroutine hclosed hsim h (hallowed _ List.mem_cons_self _ hcallee) hqs
            (hargs d hps) fun hlen => takes_of_arguments hlen

mutual

theorem refines_value (hclosed : L.Closed) (hsim : L.Simulates deeper deeper')
    (h : L.Alike v s s') : ∀ {e : Expr}, e.Clear L.definitions v → L.CallsAllowed e.calls →
    RunRefines (Run.value config deeper s e) (Run.value config deeper' s' e)
  | .measure qs, he, _ => by
      rw [Run.value, Run.value]
      exact h.measure he
  | .call name ms ps qs, he, hcalls => by
      obtain ⟨hname, hps⟩ := List.forall_mem_cons.1 hcalls
      refine refines_call hclosed hsim h he (ms.any Modifier.mayInvert) id ?_ ?_
      · exact List.forall_mem_singleton.2 hname
      · exact fun d hargs => refines_arguments hclosed hsim h hargs hps
  | .ident name, he, _ => by
      rw [Run.value, Run.value, h.bits]
      split
      · rw [h.agrees.bitsOf_eq (e := .ident name) trivial]
        exact .refl _
      · rename_i hbits
        rw [h.agrees.fold_eq (e := .ident name) fun hmem => hbits (h.known name (he hmem))]
        exact .refl _
  | .index name i, he, _ => by
      rw [Run.value, Run.value, h.bits, h.agrees.bitsOf_eq (e := .index name i) he,
        h.agrees.fold_eq (e := .index name i) he]
      exact .refl _
  | .lit l, he, _ => by
      rw [Run.value, Run.value, h.agrees.fold_eq (e := .lit l) he]
      exact .refl _
  | .binary op l r, he, _ => by
      rw [Run.value, Run.value, h.agrees.fold_eq (e := .binary op l r) he]
      exact .refl _
  | .unary op e, he, _ => by
      rw [Run.value, Run.value, h.agrees.fold_eq (e := .unary op e) he]
      exact .refl _
  | .paren e, he, _ => by
      rw [Run.value, Run.value, h.agrees.fold_eq (e := .paren e) he]
      exact .refl _

theorem refines_arguments (hclosed : L.Closed) (hsim : L.Simulates deeper deeper')
    (h : L.Alike v s s') : ∀ {es : List Expr} {params : List TypedName},
    Expr.ArgumentsClear L.definitions v params es → L.CallsAllowed (Expr.callsIn es) →
    RunRefines (Run.arguments config deeper s params es) (Run.arguments config deeper' s' params es)
  | [], _, _, _ => by
      rw [Run.arguments, Run.arguments]
      exact .refl _
  | _ :: _, [], _, _ => by
      rw [Run.arguments, Run.arguments]
      exact .refl _
  | e :: es, p :: ps, hes, hcalls => by
      obtain ⟨he, hrest⟩ := hes
      obtain ⟨hcall, hcalls⟩ := List.forall_mem_append.1 hcalls
      have hlater := refines_arguments hclosed hsim h hrest hcalls
      rw [Run.arguments, Run.arguments]
      split
      · rename_i hkind
        rw [hkind] at he
        rw [h.agrees.qubitsOf_eq he.1, h.agrees.declaredSize_eq he.2]
        refine (RunRefines.refl _).bind fun qs => (RunRefines.refl _).bind fun size => ?_
        dsimp only
        split
        · exact .throw _ _
        · exact hlater.bind fun _ => .refl _
      · rename_i hkind
        rw [hkind] at he
        rw [h.agrees.declaredSize_eq he.1]
        refine (RunRefines.refl _).bind fun size => ?_
        refine (refines_value hclosed hsim h he.2 hcall).bind fun val => ?_
        exact (RunRefines.refl _).bind fun bs => hlater.bind fun _ => .refl _
      · rename_i hqubit hbit
        split at he
        · exact absurd ‹_› hqubit
        · exact absurd ‹_› hbit
        refine (refines_value hclosed hsim h he hcall).bind fun val => ?_
        refine (RunRefines.refl _).bind fun c => (RunRefines.refl _).bind fun c' => ?_
        exact hlater.bind fun _ => .refl _

end

/-! Statements -/

/-- How scopes are alike after statements, which may have been left early. -/
def After (L : Lifting) (v w : Visibility) : Flow R → Scope R → Scope R → Prop
  | .next _ => L.Alike w
  | .returned _ => L.Alike v

theorem relates_declare {d : TypedName} (hd : d.type.kind = .bit → d.type.Avoids v.hidden) :
    Exec.Relates (B := B) (L.Alike v) (fun _ => L.Alike (v.declare d)) (Exec.declare (R := R) d)
      (Exec.declare d) := by
  unfold Exec.declare Visibility.declare
  cases hkind : d.type.kind with
  | qubit =>
      refine Exec.Relates.bind (.ofRun fun s s' h => ?_) fun qs => ?_
      · rw [h.isLocal]
        exact .throw _ _
      · refine .update fun s s' t h ht => ?_
        cases ht
        exact ⟨_, rfl, h.addQubits d.name qs⟩
  | bit =>
      refine .update fun s s' t h ht => ?_
      obtain ⟨size, hsize, ht⟩ := bind_ok_iff.1 ht
      cases ht
      rw [← h.agrees.declaredSize_eq (hd hkind)] at hsize
      exact ⟨_, bind_ok_iff.2 ⟨size, hsize, rfl⟩, h.addBits d.name _⟩
  | _ =>
      refine .update fun s s' t h ht => ?_
      obtain ⟨c, hc, ht⟩ := bind_ok_iff.1 ht
      obtain ⟨t', ht', halike⟩ := h.setVariable ht
      exact ⟨t', bind_ok_iff.2 ⟨c, hc, ht'⟩, halike⟩

omit [Backend R B] in
theorem relates_declareConst {e : Expr} (he : e.Avoids v.hidden) (type : Option TypeSpec)
    (name : String) :
    Exec.Relates (B := B) (L.Alike v) (fun _ => L.Alike (v.scalar name))
      (Exec.declareConst (R := R) type name e) (Exec.declareConst type name e) := by
  unfold Exec.declareConst
  refine .update fun s s' t h ht => ?_
  rw [h.agrees.fold_eq he]
  obtain ⟨c, hc, ht⟩ := bind_ok_iff.1 ht
  cases type with
  | none =>
      cases ht
      exact ⟨_, bind_ok_iff.2 ⟨c, hc, rfl⟩, h.setScalar name ⟨c, false⟩⟩
  | some type =>
      obtain ⟨c', hc', ht⟩ := bind_ok_iff.1 ht
      cases ht
      exact ⟨_, bind_ok_iff.2 ⟨c, hc, bind_ok_iff.2 ⟨c', hc', rfl⟩⟩,
        h.setScalar name ⟨c', false⟩⟩

theorem relates_store (hclosed : L.Closed) (hsim : L.Simulates deeper deeper') {target e : Expr}
    (he : e.Clear L.definitions v) (hcalls : L.CallsAllowed e.calls)
    (htarget : target.IndexAvoids v.hidden) :
    Exec.Relates (L.Alike v) (L.After v v)
      (do
        let val ← Exec.ofRun fun s => Run.value config deeper s e
        Exec.update fun s => s.assign target val
        return Exec.done)
      (do
        let val ← Exec.ofRun fun s => Run.value config deeper' s e
        Exec.update fun s => s.assign target val
        return Exec.done) := by
  refine Exec.Relates.bind (.ofRun fun s s' h => refines_value hclosed hsim h he hcalls) ?_
  intro val
  refine Exec.Relates.bind (.update fun s s' t h ht => h.assign htarget ht) fun _ => ?_
  exact .pure fun _ _ h => h

mutual

theorem relates_stmt (hclosed : L.Closed) (hsim : L.Simulates deeper deeper') :
    ∀ {c : Stmt} {v : Visibility}, v.hidden ⊆ L.names → c.Clear L.definitions v →
      L.CallsAllowed (c.calls v.unordered) →
      Exec.Relates (L.Alike v) (L.After v (c.visibility v)) (Exec.stmt config deeper c)
        (Exec.stmt config deeper' c)
  | .version _, _, _, _, _ => .pure fun _ _ h => h
  | .includes _, _, _, _, _ => .pure fun _ _ h => h
  | .declare _, _, _, hc, _ => (relates_declare hc).bind fun _ => .pure fun _ _ h => h
  | .const type name _, _, _, hc, _ =>
      (relates_declareConst hc type name).bind fun _ => .pure fun _ _ h => h
  | .gate .., _, _, _, _ => by
      refine Exec.Relates.bind (Q := fun _ => L.Alike _) (.update fun s s' t h ht => ?_)
        fun _ => .pure fun _ _ h => h
      rw [Scope.addGate, h.isLocal] at ht
      cases ht
  | .subroutine .., _, _, _, _ => by
      refine Exec.Relates.bind (Q := fun _ => L.Alike _) (.update fun s s' t h ht => ?_)
        fun _ => .pure fun _ _ h => h
      rw [Scope.addSubroutine, h.isLocal] at ht
      cases ht
  | .returns none, _, _, _, _ => .pure fun _ _ h => h
  | .returns (some e), _, _, hc, hcalls =>
      Exec.Relates.bind (.ofRun fun s s' h => refines_value hclosed hsim h hc hcalls)
        fun _ => .pure fun _ _ h => h
  | .arrow _ _, _, _, hc, hcalls => relates_store hclosed hsim hc.1 hcalls hc.2
  | .assign _ _, _, _, hc, hcalls => relates_store hclosed hsim hc.1 hcalls hc.2
  | .reset _, _, _, hc, _ =>
      Exec.Relates.bind (.ofRun fun s s' h => h.reset hc) fun _ => .pure fun _ _ h => h
  | .print _, _, _, hc, _ =>
      Exec.Relates.bind (.ofRun fun s s' h => h.print hc) fun _ => .pure fun _ _ h => h
  | .apply b _ _ _, _, _, hc, _ =>
      Exec.Relates.bind (.ofRun fun s s' h =>
        Run.refines_applyBuiltin (h.sameParts hc.1 hc.2.1 hc.2.2) b) fun _ => .pure fun _ _ h => h
  | .expr (.call name ms ps qs), v, _, hc, hcalls => by
      obtain ⟨hname, hps⟩ := List.forall_mem_cons.1 hcalls
      refine Exec.Relates.bind (.ofRun fun s s' h => ?_) fun _ => .pure fun _ _ h => h
      refine refines_call hclosed hsim h hc (v.unordered || ms.any Modifier.mayInvert) ?_ ?_ ?_
      · exact fun hfalse => (Bool.or_eq_false_iff.1 hfalse).2
      · exact List.forall_mem_singleton.2 hname
      · exact fun d hargs => refines_arguments hclosed hsim h hargs hps
  | .expr (.measure _), _, _, hc, _ => by
      refine Exec.Relates.bind (.ofRun fun s s' h => ?_) fun _ => .pure fun _ _ h => h
      rw [Run.value, Run.value]
      exact h.measure hc
  | .expr (.ident _), _, _, _, _ | .expr (.index _ _), _, _, _, _ | .expr (.lit _), _, _, _, _
  | .expr (.binary ..), _, _, _, _ | .expr (.unary ..), _, _, _, _
  | .expr (.paren _), _, _, _, _ => by
      intro s s' m a t m' h hrun
      cases hrun
  | .block _, _, hv, hc, hcalls => relates_stmts hclosed hsim hv hc hcalls

theorem relates_stmts (hclosed : L.Closed) (hsim : L.Simulates deeper deeper') :
    ∀ {b : List Stmt} {v : Visibility}, v.hidden ⊆ L.names → Stmt.EachClear L.definitions v b →
      L.CallsAllowed (Stmt.callsIn v.unordered b) →
      Exec.Relates (L.Alike v) (L.After v (Stmt.visibilityAfter v b)) (Exec.stmts config deeper b)
        (Exec.stmts config deeper' b)
  | [], _, _, _, _ => .pure fun _ _ h => h
  | c :: cs, v, hv, hb, hcalls => by
      obtain ⟨hc, hcs⟩ := hb
      obtain ⟨hcall, hcalls⟩ := List.forall_mem_append.1 hcalls
      have hfiner := Stmt.visibility_finer v c
      have hrest : Exec.Relates (L.Alike (c.visibility v))
          (L.After v (Stmt.visibilityAfter v (c :: cs))) (Exec.stmts config deeper cs)
          (Exec.stmts config deeper' cs) := by
        rw [← hfiner.unordered] at hcalls
        intro s s' m flow t m' h hrun
        obtain ⟨t', hrun', hafter⟩ := relates_stmts hclosed hsim
          (List.Subset.trans hfiner.hidden hv) hcs hcalls s s' m flow t m' h hrun
        refine ⟨t', hrun', ?_⟩
        cases flow with
        | next val => exact hafter
        | returned val =>
            -- a return may have skipped declarations, so only what was known before is kept
            exact hafter.mono hfiner hv
      refine (relates_stmt hclosed hsim hv hc hcall).bind fun flow => ?_
      cases flow with
      | next val => exact hrest
      | returned val => exact .pure fun _ _ h => h

end

/-! Depth -/

theorem runsAlike_within (hclosed : L.Closed) (hsim : L.Simulates deeper deeper') :
    L.RunsAlike (fun s body => (Exec.stmts config deeper body).within s)
      fun s body => (Exec.stmts config deeper' body).within s := by
  intro v s s' t body m m' flow h hbody hrun
  obtain ⟨t', hrun', hafter⟩ := relates_stmts hclosed hsim h.hidden hbody.clear hbody.calls s s' m
    flow t m' h (Exec.ran_within.1 hrun)
  refine ⟨t', Exec.ran_within.2 hrun', ?_⟩
  cases flow with
  | next val => exact hafter.mono (Stmt.visibilityAfter_finer v body) h.hidden
  | returned val => exact hafter

/-- A body that ends with some levels of calls left ends in the same way with more. -/
theorem runsAlike_runBody (hclosed : L.Closed) {k n : Nat} (hkn : k ≤ n) :
    L.RunsAlike (R := R) (B := B) (runBody config k) (runBody config n) := by
  -- on the depth that is left to the first run, which makes no calls if there is none
  induction k generalizing n with
  | zero =>
      have hnone : ∀ y : Option (BodyRunner R B), L.Simulates none y := fun y run hrun => by
        cases hrun
      cases n with
      | zero => exact runsAlike_within hclosed (hnone _)
      | succ n => exact runsAlike_within hclosed (hnone _)
  | succ k ih =>
      obtain ⟨n, rfl⟩ : ∃ n', n = n' + 1 := ⟨n - 1, by omega⟩
      refine runsAlike_within hclosed fun run hrun => ?_
      cases hrun
      exact ⟨_, rfl, ih (by omega)⟩

end Lifting

end OpenQasm
