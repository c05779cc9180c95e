import OpenQasm.Proofs.Scoping.Agreement

/-!
# Bodies run from two scopes

What a body calls and evaluates ends in the same way in two scopes that differ in names it
does not look up. So do its statements, and after each of them the scopes still differ in
these names only. How many levels of calls are left to the two runs does not matter, unless
one of them runs out.
-/
namespace OpenQasm.Outlook

variable {R B : Type} {O : Outlook} {v w : Visibility} {s s' : Scope R}

/-! Calls -/

/-- Bodies that are run in two ways end in the same way. -/
def RunsBeside (O : Outlook) (run run' : BodyRunner R B) : Prop :=
  ∀ ⦃v : Visibility⦄ ⦃s s' : Scope R⦄ ⦃body : Block⦄, O.Beside v s s' →
    body.Allowed O.definitions O.allowed v →
    RunsSame O.Excused (fun p p' => p'.2 = p.2 ∧ O.Beside v p.1 p'.1) (run s body) (run' s' body)

/-- Bodies that can be run in both ways end in the same way. -/
def Simulates (O : Outlook) (deeper deeper' : Option (BodyRunner R B)) : Prop :=
  ∀ run run', deeper = some run → deeper' = some run' → O.RunsBeside run run'

variable {deeper deeper' : Option (BodyRunner R B)} {config : Config}

/-- If a guard fires in one run, its error is excused. -/
theorem Simulates.enter (hsim : O.Simulates deeper deeper') (s s' : Scope R) (name : String) :
    SameEnd O.Excused O.RunsBeside (s.enter config deeper name)
      (s'.enter config deeper' name) := by
  have hrecursion : O.Excused (.recursion name) := trivial
  have hdepth : O.Excused (.depthLimit config.maxDepth) := trivial
  unfold Scope.enter
  by_cases hname : name ∈ s.chain
  · rw [if_pos hname]
    exact .left hrecursion _
  by_cases hname' : name ∈ s'.chain
  · rw [if_pos hname']
    exact .right hrecursion _
  rw [if_neg hname, if_neg hname']
  cases hrun : deeper with
  | none => exact .left hdepth _
  | some run => cases hrun' : deeper' with
    | none => exact .right hdepth _
    | some run' => exact hsim run run' hrun hrun'

variable [Scalar R]

/-- What a call of a gate runs from two scopes, if it hands over the same. -/
theorem Calls.prepareGate (hclosed : O.Closed) (h : O.Calls s s') {gate : GateDef}
    {unordered : Bool} (hallowed : O.allowed (.gate gate unordered)) {call call' : Call}
    (hhandover : s'.handover config gate call' = s.handover config gate call)
    (hmodifiers : call'.modifiers = call.modifiers)
    (hcall : unordered = false → call.modifiers.any Modifier.mayInvert = false) :
    SameEnd O.Excused (fun p p' => p'.2 = p.2 ∧ ∃ v, O.Beside v p.1 p'.1 ∧
        Block.Allowed O.definitions O.allowed v p.2)
      (s.prepareGate config gate call) (s'.prepareGate config gate call') := by
  have hprepared := s.prepareGate_eq config gate call
  rw [s'.prepareGate_eq, hhandover, hprepared]
  cases hparts : s.handover config gate call with
  | error e => exact .throw e
  | ok p =>
      rw [hparts] at hprepared
      refine ⟨rfl, (Callee.gate gate unordered).visibility O.names, ?_, ?_⟩
      · exact h.gateScope unordered hmodifiers p.controls p.targets
          (Scope.length_params_of_handover hparts)
      · exact (hclosed _ hallowed).1.of_prepareGate hprepared hcall

theorem same_callGate (hclosed : O.Closed) (hsim : O.Simulates deeper deeper')
    (h : O.Calls s s') {gate : GateDef} {unordered : Bool}
    (hallowed : O.allowed (.gate gate unordered)) {call call' : Call}
    (hhandover : s'.handover config gate call' = s.handover config gate call)
    (hmodifiers : call'.modifiers = call.modifiers)
    (hcall : unordered = false → call.modifiers.any Modifier.mayInvert = false) :
    RunsSame O.Excused Eq (Run.callGate config deeper s gate call)
      (Run.callGate config deeper' s' gate call') := by
  refine RunsSame.bind (.lift (hsim.enter s s' gate.name)) fun run run' hrun => ?_
  refine RunsSame.bind
    (.lift (h.prepareGate hclosed hallowed hhandover hmodifiers hcall)) ?_
  rintro ⟨inner, body⟩ ⟨inner', _⟩ ⟨rfl, v, hinner, hbody⟩
  exact (hrun hinner hbody).bind fun _ _ _ => .pure rfl

theorem same_callSubroutine (hclosed : O.Closed) (hsim : O.Simulates deeper deeper')
    (h : O.Beside v s s') {d : SubroutineDef} (hallowed : O.allowed (.subroutine d)) {call : Call}
    (hqs : ∀ e ∈ call.qargs, e.IndexAvoids v.hidden) {args args' : Run R B (List (Arg R))}
    (hargs : call.params.length = d.params.length →
      RunsSame O.Excused (fun as as' => as = as' ∧ List.Forall₂ TypedName.Takes d.params as)
        args args') :
    RunsSame O.Excused Eq (Run.callSubroutine config deeper s d call args)
      (Run.callSubroutine config deeper' s' d call args') := by
  unfold Run.callSubroutine
  obtain ⟨name, ms, params, qargs⟩ := call
  cases ms with
  | cons m ms => exact .throw _
  | nil =>
      refine RunsSame.bind (.lift (hsim.enter s s' d.name)) fun run run' hrun => ?_
      dsimp only at hargs ⊢
      split
      · exact .throw _
      rename_i hlen
      split
      · exact .throw _
      refine (hargs (not_not.1 hlen)).bind ?_
      rintro as _ ⟨rfl, htakes⟩
      refine RunsSame.bind (.lift (h.subroutineScope htakes hqs)) fun inner inner' hinner => ?_
      obtain ⟨hbody, hresult⟩ := hclosed _ hallowed
      refine (hrun hinner hbody).bind ?_
      rintro ⟨final, _⟩ ⟨final', flow⟩ ⟨rfl, hfinal⟩
      cases flow with
      | next val | returned val =>
          dsimp only
          rw [hfinal.convertResult_eq hresult]
          exact .refl _

/-! Values -/

variable [Backend R B]

/-- A call is evaluated in the same way if its arguments are. -/
theorem same_call (hclosed : O.Closed) (hsim : O.Simulates deeper deeper')
    (h : O.Beside v s s') {name : String} {ms : List Modifier} {ps qs : List Expr}
    (hclear : (Expr.call name ms ps qs).Clear O.definitions v) (unordered : Bool)
    (hms : unordered = false → ms.any Modifier.mayInvert = false)
    (hallowed : O.CallsAllowed [(name, unordered)])
    (hargs : ∀ d : SubroutineDef, Expr.ArgumentsClear O.definitions v d.params ps →
      RunsSame O.Excused Eq (Run.arguments config deeper s d.params ps)
        (Run.arguments config deeper' s' d.params ps)) :
    RunsSame O.Excused Eq (Run.value config deeper s (.call name ms ps qs))
      (Run.value config deeper' s' (.call name ms ps qs)) := by
  rw [Expr.Clear] at hclear
  obtain ⟨hmodifiers, hqs, hps⟩ := hclear
  have hcallee := hallowed _ List.mem_cons_self
  rw [Run.value, Run.value, h.calls.gates.1, h.calls.gates.2, h.calls.subroutines.1,
    h.calls.subroutines.2]
  unfold Definitions.callee? at hcallee
  cases hgate : O.definitions.gates.get? name with
  | some gate =>
      rw [hgate] at hps hcallee
      exact same_callGate hclosed hsim h.calls (hcallee _ rfl)
        (h.handover_eq hqs hps hmodifiers config gate name) rfl hms
  | none =>
      rw [hgate] at hps hcallee
      cases hsubroutine : O.definitions.subroutines.get? name with
      | none =>
          rw [hsubroutine] at hps
          dsimp only
          split
          · rw [h.applyStandard_eq hmodifiers hps hqs]
            exact .refl _
          · exact .throw _
      | some d =>
          rw [hsubroutine] at hps hcallee
          refine same_callSubroutine hclosed hsim h (hcallee _ rfl) hqs fun hlen => ?_
          exact (hargs d hps).of_left fun has => takes_of_arguments hlen has

mutual

theorem same_value (hclosed : O.Closed) (hsim : O.Simulates deeper deeper')
    (h : O.Beside v s s') : ∀ {e : Expr}, e.Clear O.definitions v → O.CallsAllowed e.calls →
    RunsSame O.Excused Eq (Run.value config deeper s e) (Run.value config deeper' s' e)
  | .measure qs, he, _ => by
      rw [Run.value, Run.value, h.measure_eq he]
      exact .refl _
  | .call name ms ps qs, he, hcalls => by
      obtain ⟨hname, hps⟩ := List.forall_mem_cons.1 hcalls
      refine same_call hclosed hsim h he (ms.any Modifier.mayInvert) id ?_ ?_
      · exact List.forall_mem_singleton.2 hname
      · exact fun d hargs => same_arguments hclosed hsim h hargs hps
  | .ident name, he, _ => by
      rw [Run.value, Run.value, h.bits]
      split
      · rw [h.bitsOf_eq (e := .ident name) trivial]
        exact .refl _
      · rename_i hbits
        rw [h.fold_eq (e := .ident name) fun hmem => hbits (h.known name (he hmem))]
        exact .refl _
  | .index name i, he, _ => by
      rw [Run.value, Run.value, h.bits, h.bitsOf_eq (e := .index name i) he,
        h.fold_eq (e := .index name i) he]
      exact .refl _
  | .lit l, he, _ => by
      rw [Run.value, Run.value, h.fold_eq (e := .lit l) he]
      exact .refl _
  | .binary op l r, he, _ => by
      rw [Run.value, Run.value, h.fold_eq (e := .binary op l r) he]
      exact .refl _
  | .unary op e, he, _ => by
      rw [Run.value, Run.value, h.fold_eq (e := .unary op e) he]
      exact .refl _
  | .paren e, he, _ => by
      rw [Run.value, Run.value, h.fold_eq (e := .paren e) he]
      exact .refl _

theorem same_arguments (hclosed : O.Closed) (hsim : O.Simulates deeper deeper')
    (h : O.Beside v s s') : ∀ {es : List Expr} {params : List TypedName},
    Expr.ArgumentsClear O.definitions v params es → O.CallsAllowed (Expr.callsIn es) →
    RunsSame O.Excused Eq (Run.arguments config deeper s params es)
      (Run.arguments config deeper' s' params es)
  | [], _, _, _ => by
      rw [Run.arguments, Run.arguments]
      exact .refl _
  | _ :: _, [], _, _ => by
      rw [Run.arguments, Run.arguments]
      exact .refl _
  | e :: es, p :: ps, hes, hcalls => by
      obtain ⟨he, hrest⟩ := hes
      obtain ⟨hcall, hcalls⟩ := List.forall_mem_append.1 hcalls
      have hlater : ∀ arg : Arg R, RunsSame O.Excused Eq
          (do return arg :: (← Run.arguments config deeper s ps es))
          (do return arg :: (← Run.arguments config deeper' s' ps es)) := by
        intro arg
        exact (same_arguments hclosed hsim h hrest hcalls).bind_eq fun args => .refl _
      rw [Run.arguments, Run.arguments]
      split
      · rename_i hkind
        rw [hkind] at he
        rw [h.qubitsOf_eq he.1, h.declaredSize_eq he.2]
        refine .after _ fun qs => .after _ fun size => ?_
        dsimp only
        split
        · exact .throw _
        · exact hlater _
      · rename_i hkind
        rw [hkind] at he
        rw [h.declaredSize_eq he.1]
        refine .after _ fun size => (same_value hclosed hsim h he.2 hcall).bind_eq fun val => ?_
        exact .after _ fun bs => hlater _
      · rename_i hqubit hbit
        split at he
        · exact absurd ‹_› hqubit
        · exact absurd ‹_› hbit
        refine (same_value hclosed hsim h he hcall).bind_eq fun val => ?_
        exact .after _ fun c => .after _ fun c' => hlater _

end

/-! Statements -/

/-- How scopes are beside each other after statements, which may have been left early. -/
def After (O : Outlook) (v w : Visibility) : Flow R → Scope R → Scope R → Prop
  | .next _ => O.Beside w
  | .returned _ => O.Beside v

/-- Statements that end in the same way. -/
def Ended (O : Outlook) (v w : Visibility) (p p' : Scope R × Flow R) : Prop :=
  p'.2 = p.2 ∧ O.After v w p.2 p.1 p'.1

omit [Scalar R] [Backend R B] in
theorem same_ofRun {α : Type} (h : O.Beside v s s') {f g : Scope R → Run R B α}
    (hfg : RunsSame O.Excused Eq (f s) (g s')) :
    RunsSame O.Excused (fun p p' => p'.2 = p.2 ∧ O.Beside v p.1 p'.1) ((Exec.ofRun f).within s)
      ((Exec.ofRun g).within s') := by
  rw [Exec.within_ofRun, Exec.within_ofRun]
  exact hfg.bind_eq fun a => .pure ⟨rfl, h⟩

omit [Scalar R] [Backend R B] in
theorem same_update {f g : Scope R → Except EvalError (Scope R)}
    (hfg : SameEnd O.Excused (O.Beside v) (f s) (g s')) :
    RunsSame O.Excused (fun p p' => p'.2 = p.2 ∧ O.Beside v p.1 p'.1)
      ((Exec.update f : Exec R B Unit).within s) ((Exec.update g).within s') := by
  rw [Exec.within_update, Exec.within_update]
  exact RunsSame.bind (.lift hfg) fun t t' ht => .pure ⟨rfl, ht⟩

omit [Scalar R] [Backend R B] in
theorem same_flow {u : Visibility} {α : Type} {x y : Exec R B α}
    (h : RunsSame O.Excused (fun p p' => p'.2 = p.2 ∧ O.Beside w p.1 p'.1) (x.within s)
      (y.within s')) {flow : α → Flow R}
    (hflow : ∀ a t t', O.Beside w t t' → O.After v u (flow a) t t') :
    RunsSame O.Excused (O.Ended v u) ((do return flow (← x)).within s)
      ((do return flow (← y)).within s') := by
  rw [Exec.within_bind, Exec.within_bind]
  refine h.bind ?_
  rintro ⟨t, _⟩ ⟨t', a⟩ ⟨rfl, ht⟩
  exact .pure ⟨rfl, hflow a t t' ht⟩

theorem same_declare (h : O.Beside v s s') {d : TypedName}
    (hd : d.type.kind = .bit → d.type.Avoids v.hidden) :
    RunsSame O.Excused (fun p p' => p'.2 = p.2 ∧ O.Beside (v.declare d) p.1 p'.1)
      ((Exec.declare d : Exec R B Unit).within s) ((Exec.declare d).within s') := by
  unfold Exec.declare Visibility.declare
  cases hkind : d.type.kind with
  | qubit =>
      dsimp only
      rw [Exec.within_bind, Exec.within_bind, Exec.within_ofRun, Exec.within_ofRun, h.isLocal,
        h.isLocal']
      exact .throw _
  | bit =>
      refine same_update ?_
      rw [h.declaredSize_eq (hd hkind)]
      exact .after _ fun size => h.addBits d.name _
  | _ => exact same_update (.after _ fun c => h.setVariable d.name c)

omit [Backend R B] in
theorem same_declareConst (h : O.Beside v s s') {e : Expr} (he : e.Avoids v.hidden)
    (type : Option TypeSpec) (name : String) :
    RunsSame O.Excused (fun p p' => p'.2 = p.2 ∧ O.Beside (v.scalar name) p.1 p'.1)
      ((Exec.declareConst type name e : Exec R B Unit).within s)
      ((Exec.declareConst type name e).within s') := by
  unfold Exec.declareConst
  refine same_update ?_
  rw [h.fold_eq he]
  refine .after _ fun c => ?_
  cases type with
  | none => exact h.setScalar name ⟨c, false⟩
  | some type => exact .after _ fun c' => h.setScalar name ⟨c', false⟩

theorem same_store (hclosed : O.Closed) (hsim : O.Simulates deeper deeper')
    (h : O.Beside v s s') {target e : Expr} (he : e.Clear O.definitions v)
    (hcalls : O.CallsAllowed e.calls) (htarget : target.IndexAvoids v.hidden) :
    RunsSame O.Excused (O.Ended v v)
      (Exec.within (do
        let val ← Exec.ofRun fun s => Run.value config deeper s e
        Exec.update fun s => s.assign target val
        return Exec.done) s)
      (Exec.within (do
        let val ← Exec.ofRun fun s => Run.value config deeper' s e
        Exec.update fun s => s.assign target val
        return Exec.done) s') := by
  rw [Exec.within_bind, Exec.within_bind]
  refine (same_ofRun h (same_value hclosed hsim h he hcalls)).bind ?_
  rintro ⟨t, _⟩ ⟨t', val⟩ ⟨rfl, ht⟩
  exact same_flow (same_update (ht.assign htarget val)) fun _ _ _ h => h

mutual

theorem same_stmt (hclosed : O.Closed) (hsim : O.Simulates deeper deeper') :
    ∀ {c : Stmt} {v : Visibility} {s s' : Scope R}, O.Beside v s s' → c.Clear O.definitions v →
      O.CallsAllowed (c.calls v.unordered) →
      RunsSame O.Excused (O.Ended v (c.visibility v)) ((Exec.stmt config deeper c).within s)
        ((Exec.stmt config deeper' c).within s')
  | .version _, _, _, _, h, _, _ => .pure ⟨rfl, h⟩
  | .includes _, _, _, _, h, _, _ => .pure ⟨rfl, h⟩
  | .declare _, _, _, _, h, hc, _ => same_flow (same_declare h hc) fun _ _ _ h => h
  | .const type name _, _, _, _, h, hc, _ =>
      same_flow (same_declareConst h hc type name) fun _ _ _ h => h
  | .gate .., v, _, _, h, _, _ => by
      refine same_flow (w := v) (same_update ?_) fun _ _ _ h => h
      rw [Scope.addGate, Scope.addGate, h.isLocal, h.isLocal']
      exact .throw _
  | .subroutine .., v, _, _, h, _, _ => by
      refine same_flow (w := v) (same_update ?_) fun _ _ _ h => h
      rw [Scope.addSubroutine, Scope.addSubroutine, h.isLocal, h.isLocal']
      exact .throw _
  | .returns none, _, _, _, h, _, _ => .pure ⟨rfl, h⟩
  | .returns (some e), _, _, _, h, hc, hcalls =>
      same_flow (same_ofRun h (same_value hclosed hsim h hc hcalls)) fun _ _ _ h => h
  | .arrow _ _, _, _, _, h, hc, hcalls => same_store hclosed hsim h hc.1 hcalls hc.2
  | .assign _ _, _, _, _, h, hc, hcalls => same_store hclosed hsim h hc.1 hcalls hc.2
  | .reset _, _, s, s', h, hc, _ => by
      refine same_flow (same_ofRun h ?_) fun _ _ _ h => h
      rw [h.reset_eq hc]
      exact .refl _
  | .print _, _, _, _, h, hc, _ => by
      refine same_flow (same_ofRun h ?_) fun _ _ _ h => h
      rw [h.print_eq hc]
      exact .refl _
  | .apply b _ _ _, _, _, _, h, hc, _ => by
      refine same_flow (same_ofRun h ?_) fun _ _ _ h => h
      rw [h.applyBuiltin_eq hc.1 hc.2.1 hc.2.2]
      exact .refl _
  | .expr (.call name ms ps qs), v, _, _, h, hc, hcalls => by
      obtain ⟨hname, hps⟩ := List.forall_mem_cons.1 hcalls
      refine same_flow (same_ofRun h ?_) fun _ _ _ h => h
      refine same_call hclosed hsim h hc (v.unordered || ms.any Modifier.mayInvert) ?_ ?_ ?_
      · exact fun hfalse => (Bool.or_eq_false_iff.1 hfalse).2
      · exact List.forall_mem_singleton.2 hname
      · exact fun d hargs => same_arguments hclosed hsim h hargs hps
  | .expr (.measure _), _, _, _, h, hc, _ => by
      refine same_flow (same_ofRun h ?_) fun _ _ _ h => h
      rw [Run.value, Run.value, h.measure_eq hc]
      exact .refl _
  | .expr (.ident _), _, _, _, _, _, _ | .expr (.index _ _), _, _, _, _, _, _
  | .expr (.lit _), _, _, _, _, _, _ | .expr (.binary ..), _, _, _, _, _, _
  | .expr (.unary ..), _, _, _, _, _, _ | .expr (.paren _), _, _, _, _, _, _ => .throw _
  | .block _, _, _, _, h, hc, hcalls => same_stmts hclosed hsim h hc hcalls

theorem same_stmts (hclosed : O.Closed) (hsim : O.Simulates deeper deeper') :
    ∀ {b : List Stmt} {v : Visibility} {s s' : Scope R}, O.Beside v s s' →
      Stmt.EachClear O.definitions v b → O.CallsAllowed (Stmt.callsIn v.unordered b) →
      RunsSame O.Excused (O.Ended v (Stmt.visibilityAfter v b))
        ((Exec.stmts config deeper b).within s) ((Exec.stmts config deeper' b).within s')
  | [], _, _, _, h, _, _ => .pure ⟨rfl, h⟩
  | c :: cs, v, s, s', h, hb, hcalls => by
      obtain ⟨hc, hcs⟩ := hb
      obtain ⟨hcall, hcalls⟩ := List.forall_mem_append.1 hcalls
      have hfiner := Stmt.visibility_finer v c
      rw [← hfiner.unordered] at hcalls
      rw [Exec.stmts, Exec.stmts, Exec.within_bind, Exec.within_bind]
      refine (same_stmt hclosed hsim h hc hcall).bind ?_
      rintro ⟨t, _⟩ ⟨t', flow⟩ ⟨rfl, ht⟩
      cases flow with
      | returned val => exact .pure ⟨rfl, ht⟩
      | next val =>
          refine (same_stmts hclosed hsim ht hcs hcalls).mono ?_
          rintro ⟨t₁, _⟩ ⟨t₁', flow⟩ ⟨rfl, ht₁⟩
          refine ⟨rfl, ?_⟩
          cases flow with
          | next val => exact ht₁
          | returned val =>
              -- a return may have skipped declarations, so only what was known before is kept
              exact Beside.mono hfiner h.hidden ht₁

end

/-! Depth -/

theorem Simulates.runBody (hclosed : O.Closed) {k n : Nat}
    (hsim : O.Simulates (R := R) (B := B) (runnerAt? config k) (runnerAt? config n)) :
    O.RunsBeside (R := R) (B := B) (runBody config k) (runBody config n) := by
  intro v s s' body h hbody
  rw [runBody_eq, runBody_eq]
  refine (same_stmts hclosed hsim h hbody.clear hbody.calls).mono ?_
  rintro ⟨t, _⟩ ⟨t', flow⟩ ⟨rfl, ht⟩
  refine ⟨rfl, ?_⟩
  cases flow with
  | next val => exact Beside.mono (Stmt.visibilityAfter_finer v body) h.hidden ht
  | returned val => exact ht

/-- Bodies end in the same way however many levels of calls are left. -/
theorem simulates_runnerAt (hclosed : O.Closed) (k n : Nat) :
    O.Simulates (R := R) (B := B) (runnerAt? config k) (runnerAt? config n) := by
  -- by the levels left to the first run: the bodies that it calls have one less
  induction k generalizing n with
  | zero =>
      intro run run' hrun
      cases hrun
  | succ k ih =>
      intro run run' hrun hrun'
      cases n with
      | zero => cases hrun'
      | succ n =>
          cases hrun
          cases hrun'
          exact Simulates.runBody hclosed (ih n)

end OpenQasm.Outlook
