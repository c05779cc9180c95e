import OpenQasm.Proofs.Lockstep.Statements
import OpenQasm.Proofs.Renaming.Scopes

/-!
# Running a body with other names for its qubits

A body whose qubits are renamed runs like the body itself, in scopes that differ in these
names. What it calls has names of its own, so from there on nothing is renamed any more. The
gate that has two definitions is not called again below itself: both runs refuse to.
-/
namespace OpenQasm

namespace Swap

variable {R B : Type} {K : Swap} {r : Renaming} {s s' : Scope R}

/-- Bodies are run alike with other names for their qubits. -/
def RunsRenamed (K : Swap) (run : BodyRunner R B) : Prop :=
  ∀ ⦃r : Renaming⦄ ⦃s s' : Scope R⦄ ⦃b b' : Block⦄, K.Inside r s s' →
    r.RenamesBody K.definitions b b' →
    RunsLike (fun p p' => p'.2 = p.2 ∧ K.Inside r p.1 p'.1) (run s b) (run s' b')

/-- Bodies that can be run are run alike. -/
def Simulates (K : Swap) (deeper : Option (BodyRunner R B)) : Prop :=
  ∀ run, deeper = some run → K.RunsRenamed run

variable {deeper : Option (BodyRunner R B)} {config : Config}

/-- The guards let both calls in, or neither. -/
theorem Simulates.enter (hsim : K.Simulates deeper) (h : K.Calls r s s') (name : String) :
    EndsLike (fun run run' => run' = run ∧ K.RunsRenamed run) (s.enter config deeper name)
      (s'.enter config deeper name) := by
  obtain rfl := h.eq
  change EndsLike _ (s.enter config deeper name) (s.enter config deeper name)
  unfold Scope.enter
  split
  · exact .error _ _
  · cases hrun : deeper with
    | none => exact .error _ _
    | some run => exact ⟨rfl, hsim run hrun⟩

variable [Scalar R]

/-- A call of a gate under each of two definitions. -/
theorem callGate_like (hsim : K.Simulates deeper) (h : K.Calls r s s') {w : Renaming}
    {g g' : GateDef} (hgate : w.Renames K.definitions g g')
    (hrunning : K.gate.name ∈ s.chain ++ [g.name]) {qs : List Expr}
    (hspares : w.Spares (qs.length - g.qargs.length))
    (hqs : ∀ x ∈ qs.flatMap Expr.registerNames, r.known x) (name : String) (ms : List Modifier)
    (ps : List Expr) :
    RunsLike Eq (Run.callGate config deeper s g ⟨name, ms, ps, qs⟩)
      (Run.callGate config deeper s' g' ⟨name, ms, ps, qs.map (Expr.renameRegister r.map)⟩) := by
  unfold Run.callGate
  rw [hgate.name]
  refine RunsLike.bind (.lift (hsim.enter h g.name)) ?_
  rintro run _ ⟨rfl, hrun⟩
  refine RunsLike.bind
    (.lift (h.prepareGate hgate hrunning hspares hqs config name ms ps)) ?_
  rintro ⟨inner, b⟩ ⟨inner', b'⟩ ⟨hinner, hb⟩
  exact (hrun hinner hb).bind fun _ _ _ => .refl _

/-- A gate that is being run is not called again. -/
theorem callGate_refused {g : GateDef} (h : g.name ∈ s.chain) (call : Call) :
    Run.callGate (B := B) config deeper s g call = throw (.recursion g.name) := by
  unfold Run.callGate Scope.enter
  rw [if_pos h]
  rfl

theorem callSubroutine_like (hsim : K.Simulates deeper) (h : K.Inside r s s') (d : SubroutineDef)
    (name : String) (ms : List Modifier) {ps ps' : List Expr} (hlen : ps'.length = ps.length)
    {qs : List Expr} (hqs : ∀ x ∈ qs.flatMap Expr.registerNames, r.known x)
    {args args' : Run R B (List (Arg R))} (hargs : RunsLike Eq args args') :
    RunsLike Eq (Run.callSubroutine config deeper s d ⟨name, ms, ps, qs⟩ args)
      (Run.callSubroutine config deeper s' d
        ⟨name, ms, ps', qs.map (Expr.renameRegister r.map)⟩ args') := by
  unfold Run.callSubroutine
  cases ms with
  | cons m ms => exact .throw _ _
  | nil =>
      refine RunsLike.bind (.lift (hsim.enter h.toCalls d.name)) ?_
      rintro run _ ⟨rfl, hrun⟩
      dsimp only
      rw [hlen, List.length_map]
      split
      · exact .throw _ _
      split
      · exact .throw _ _
      refine hargs.bind_eq fun as => ?_
      refine RunsLike.bind (.lift (h.subroutineScope d as hqs)) fun inner inner' hinner => ?_
      refine (hrun hinner (Renaming.renamesBody_none K.definitions d.body)).bind ?_
      rintro ⟨final, _⟩ ⟨final', flow⟩ ⟨rfl, hfinal⟩
      cases flow with
      | next val | returned val =>
          dsimp only
          rw [hfinal.convertResult]
          exact .refl _

/-! Values -/

variable [Backend R B]

/-- A call is evaluated alike if its arguments are. -/
theorem call_like (hsim : K.Simulates deeper) (h : K.Inside r s s') (name : String)
    (ms : List Modifier) {ps qs : List Expr}
    (hqs : ∀ x ∈ qs.flatMap Expr.registerNames, r.known x)
    (hargs : RunsLike Eq (Run.arguments config deeper s (K.definitions.signature name) ps)
      (Run.arguments config deeper s' (K.definitions.signature name)
        (Expr.renameArguments K.definitions r.map (K.definitions.signature name) ps))) :
    RunsLike Eq (Run.value config deeper s (.call name ms ps qs))
      (Run.value config deeper s'
        ((Expr.call name ms ps qs).renameQubits K.definitions r.map)) := by
  have hgates' : s'.gates = K.gates := by rw [h.eq, Scope.gates_withTables]
  have hsubroutines' : s'.subroutines = s.subroutines := by
    rw [h.eq, Scope.subroutines_withTables]
  have hchain : s'.chain = s.chain := by rw [h.eq]; rfl
  rw [Expr.renameQubits, Run.value, Run.value, hgates', hsubroutines', h.gates_eq,
    h.subroutines_eq]
  rcases K.get?_gates name with hsame | ⟨hgate, hother⟩
  · rw [hsame]
    cases hgate : K.definitions.gates.get? name with
    | some g =>
        rw [Definitions.signature_of_gate hgate, Expr.renameArguments_nil]
        exact callGate_like hsim h.toCalls (Renaming.renames_none _ g)
          (List.mem_append_left _ h.running) (.none _) hqs name ms ps
    | none => cases hsubroutine : K.definitions.subroutines.get? name with
      | some d =>
          rw [Definitions.signature_of_subroutine hgate hsubroutine] at hargs ⊢
          exact callSubroutine_like hsim h d name ms
            (Expr.length_renameArguments _ _ _ ps) hqs hargs
      | none =>
          rw [Definitions.signature_of_none hgate hsubroutine, Expr.renameArguments_nil]
          dsimp only
          split
          · exact (h.applyStandard _ ms ps hqs).bind_eq fun _ => .refl _
          · exact .throw _ _
  · rw [hgate, hother]
    dsimp only
    rw [callGate_refused h.running, callGate_refused (by rw [hchain, K.sameName]; exact h.running)]
    exact .throw _ _

/-- What is no call and no measurement names no qubits. -/
theorem value_plain (h : K.Calls r s s') {e : Expr} (he : e.isAction = false) :
    Run.value (B := B) config deeper s' (e.renameQubits K.definitions r.map) =
      Run.value config deeper s e := by
  obtain rfl := h.eq
  cases e with
  | measure qs => cases he
  | call name ms ps qs => cases he
  | _ =>
      simp only [Expr.renameQubits, Run.value, Scope.bits_withTables, Scope.bitsOf_withTables,
        Scope.fold_withTables]

mutual

theorem value_like (hsim : K.Simulates deeper) (h : K.Inside r s s') : ∀ {e : Expr},
    (∀ x ∈ e.qubitNames K.definitions, r.known x) →
    RunsLike Eq (Run.value config deeper s e)
      (Run.value config deeper s' (e.renameQubits K.definitions r.map))
  | .measure qs, he => by
      rw [Expr.renameQubits, Run.value, Run.value]
      exact h.measure he
  | .call name ms ps qs, he => by
      obtain ⟨hqs, hps⟩ := List.forall_mem_append.1 he
      exact call_like hsim h name ms hqs (arguments_like hsim h hps)
  | .ident _, _ | .index _ _, _ | .lit _, _ | .binary _ _ _, _ | .unary _ _, _ | .paren _, _ => by
      rw [value_plain h.toCalls rfl]
      exact .refl _

theorem arguments_like (hsim : K.Simulates deeper) (h : K.Inside r s s') :
    ∀ {es : List Expr} {params : List TypedName},
    (∀ x ∈ Expr.argumentNames K.definitions params es, r.known x) →
    RunsLike Eq (Run.arguments config deeper s params es)
      (Run.arguments config deeper s' params
        (Expr.renameArguments K.definitions r.map params es))
  | [], _, _ => by
      rw [Expr.renameArguments, Run.arguments, Run.arguments]
      exact .refl _
  | _ :: _, [], _ => by
      rw [Expr.renameArguments, Run.arguments, Run.arguments]
      exact .refl _
  | e :: es, p :: ps, hes => by
      obtain ⟨he, hrest⟩ := List.forall_mem_append.1 hes
      have hsize : s'.declaredSize p = s.declaredSize p := by
        rw [h.eq, Scope.declaredSize_withTables]
      have hlater : ∀ arg : Arg R, RunsLike Eq
          (do return arg :: (← Run.arguments config deeper s ps es))
          (do return arg :: (← Run.arguments config deeper s' ps
            (Expr.renameArguments K.definitions r.map ps es))) :=
        fun arg => (arguments_like hsim h hrest).bind_eq fun args => .refl _
      rw [Expr.renameArguments, Run.arguments, Run.arguments]
      cases hkind : p.type.kind with
      | qubit =>
          rw [hkind] at he
          dsimp only
          rw [hsize]
          refine (RunsLike.lift (h.qubitsOf he)).bind_eq fun qs => .after _ fun size => ?_
          split
          · exact .throw _ _
          · exact hlater _
      | bit =>
          rw [hkind] at he
          rw [hsize]
          refine .after _ fun size => (value_like hsim h he).bind_eq fun val => ?_
          exact .after _ fun bs => hlater _
      | _ =>
          rw [hkind] at he
          refine (value_like hsim h he).bind_eq fun val => ?_
          exact .after _ fun c => .after _ fun c' => hlater _

end

/-! Statements -/

/-- Ends with the same value, in scopes that still differ in the names of qubits only. -/
def Ended {α : Type} (K : Swap) (r : Renaming) (p p' : Scope R × α) : Prop :=
  p'.2 = p.2 ∧ K.Inside r p.1 p'.1

omit [Scalar R] [Backend R B] in
theorem ofRun_like {α : Type} (h : K.Inside r s s') {f g : Scope R → Run R B α}
    (hfg : RunsLike Eq (f s) (g s')) :
    RunsLike (K.Ended r) ((Exec.ofRun f).within s) ((Exec.ofRun g).within s') := by
  rw [Exec.within_ofRun, Exec.within_ofRun]
  exact hfg.bind_eq fun a => .pure ⟨rfl, h⟩

omit [Scalar R] [Backend R B] in
theorem update_like {f g : Scope R → Except EvalError (Scope R)}
    (hfg : EndsLike (K.Inside r) (f s) (g s')) :
    RunsLike (K.Ended r) ((Exec.update f : Exec R B Unit).within s)
      ((Exec.update g).within s') := by
  rw [Exec.within_update, Exec.within_update]
  exact RunsLike.bind (.lift hfg) fun t t' ht => .pure ⟨rfl, ht⟩

omit [Scalar R] [Backend R B] in
/-- One action after another, each in the scopes that the one before it leaves. -/
theorem bind_like {α β : Type} {x y : Exec R B α} {f g : α → Exec R B β}
    (h : RunsLike (K.Ended r) (x.within s) (y.within s'))
    (hfg : ∀ a t t', K.Inside r t t' → RunsLike (K.Ended r) ((f a).within t) ((g a).within t')) :
    RunsLike (K.Ended r) ((x >>= f).within s) ((y >>= g).within s') := by
  rw [Exec.within_bind, Exec.within_bind]
  refine h.bind ?_
  rintro ⟨t, _⟩ ⟨t', a⟩ ⟨rfl, ht⟩
  exact hfg a t t' ht

omit [Scalar R] [Backend R B] in
theorem pure_like {α : Type} (h : K.Inside r s s') (a : α) :
    RunsLike (K.Ended r) ((pure a : Exec R B α).within s) ((pure a : Exec R B α).within s') :=
  .pure ⟨rfl, h⟩

theorem declare_like (h : K.Inside r s s') (d : TypedName) :
    RunsLike (K.Ended r) ((Exec.declare d : Exec R B Unit).within s)
      ((Exec.declare d).within s') := by
  have hsize : s'.declaredSize d = s.declaredSize d := by
    rw [h.eq, Scope.declaredSize_withTables]
  have hlocal' : s'.isGlobal = false := by rw [h.eq, Scope.isGlobal_withTables, h.isLocal]
  unfold Exec.declare
  cases d.type.kind with
  | qubit =>
      dsimp only
      rw [Exec.within_bind, Exec.within_bind, Exec.within_ofRun, Exec.within_ofRun, h.isLocal,
        hlocal']
      exact .throw _ _
  | bit =>
      refine update_like ?_
      rw [hsize]
      exact .after _ fun size => h.addBits d.name _
  | _ => exact update_like (.after _ fun c => h.setVariable d.name c)

omit [Backend R B] in
theorem declareConst_like (h : K.Inside r s s') (type : Option TypeSpec) (name : String)
    (e : Expr) :
    RunsLike (K.Ended r) ((Exec.declareConst type name e : Exec R B Unit).within s)
      ((Exec.declareConst type name e).within s') := by
  have hfold : s'.fold = s.fold := by rw [h.eq, Scope.fold_withTables]
  unfold Exec.declareConst
  refine update_like ?_
  rw [hfold]
  refine .after _ fun c => ?_
  cases type with
  | none => exact h.setScalar name ⟨c, false⟩
  | some type => exact .after _ fun c' => h.setScalar name ⟨c', false⟩

omit [Scalar R] [Backend R B] in
/-- A definition below the global scope is refused. -/
theorem definition_like (h : K.Inside r s s') {f : Scope R → Except EvalError (Scope R)}
    (hrefused : ∀ t : Scope R, t.isGlobal = false → (f t).isOk = false) :
    RunsLike (K.Ended r) ((Exec.update f : Exec R B Unit).within s)
      ((Exec.update f).within s') := by
  refine update_like (.of_not_isOk (hrefused s h.isLocal) (hrefused s' ?_))
  rw [h.eq, Scope.isGlobal_withTables, h.isLocal]

theorem store_like (hsim : K.Simulates deeper) (h : K.Inside r s s') {e : Expr}
    (he : ∀ x ∈ e.qubitNames K.definitions, r.known x) (target : Expr) :
    RunsLike (K.Ended r)
      (Exec.within (do
        let val ← Exec.ofRun fun s => Run.value config deeper s e
        Exec.update fun s => s.assign target val
        return Exec.done (R := R)) s)
      (Exec.within (do
        let val ← Exec.ofRun fun s =>
          Run.value config deeper s (e.renameQubits K.definitions r.map)
        Exec.update fun s => s.assign target val
        return Exec.done (R := R)) s') := by
  refine bind_like (ofRun_like h (value_like hsim h he)) fun val t t' ht => ?_
  exact bind_like (update_like (ht.assign target val)) fun _ _ _ ht => pure_like ht _

mutual

theorem stmt_like (hsim : K.Simulates deeper) : ∀ {c : Stmt} {s s' : Scope R},
    K.Inside r s s' → r.Covers K.definitions c →
    RunsLike (K.Ended r) ((Exec.stmt config deeper c).within s)
      ((Exec.stmt config deeper (c.renameQubits K.definitions r.map)).within s')
  | .version _, _, _, h, _ | .includes _, _, _, h, _ | .returns none, _, _, h, _ => pure_like h _
  | .declare d, _, _, h, _ => bind_like (declare_like h d) fun _ _ _ h => pure_like h _
  | .const type name e, _, _, h, _ =>
      bind_like (declareConst_like h type name e) fun _ _ _ h => pure_like h _
  | .gate .., _, _, h, _ => by
      refine bind_like (definition_like h fun t ht => ?_) fun _ _ _ h => pure_like h _
      rw [Scope.addGate, ht]
      rfl
  | .subroutine .., _, _, h, _ => by
      refine bind_like (definition_like h fun t ht => ?_) fun _ _ _ h => pure_like h _
      rw [Scope.addSubroutine, ht]
      rfl
  | .returns (some e), _, _, h, hc =>
      bind_like (ofRun_like h (value_like hsim h hc.names)) fun _ _ _ h => pure_like h _
  | .arrow _ target, _, _, h, hc | .assign target _, _, _, h, hc =>
      store_like hsim h hc.names target
  | .reset _, _, _, h, hc =>
      bind_like (ofRun_like h (h.reset hc.names)) fun _ _ _ h => pure_like h _
  | .print es, _, _, h, hc => by
      refine bind_like (ofRun_like h ?_) fun _ _ _ h => pure_like h _
      rw [h.print (hc.prints rfl)]
      exact .refl _
  | .apply b ms ps _, _, _, h, hc =>
      bind_like (ofRun_like h (h.applyBuiltin b ms ps hc.names)) fun _ _ _ h => pure_like h _
  | .expr (.call ..), _, _, h, hc | .expr (.measure _), _, _, h, hc =>
      bind_like (ofRun_like h (value_like hsim h hc.names)) fun _ _ _ h => pure_like h _
  | .expr (.ident _), _, _, _, _ | .expr (.index _ _), _, _, _, _ | .expr (.lit _), _, _, _, _
  | .expr (.binary ..), _, _, _, _ | .expr (.unary ..), _, _, _, _
  | .expr (.paren _), _, _, _, _ => .throw _ _
  | .block b, _, _, h, hc => by
      rw [Stmt.renameQubits, Exec.stmt, Exec.stmt]
      exact stmts_like hsim h (Renaming.covers_block_iff.1 hc)

theorem stmts_like (hsim : K.Simulates deeper) : ∀ {b : List Stmt} {s s' : Scope R},
    K.Inside r s s' → (∀ c ∈ b, r.Covers K.definitions c) →
    RunsLike (K.Ended r) ((Exec.stmts config deeper b).within s)
      ((Exec.stmts config deeper (Stmt.renameEach K.definitions r.map b)).within s')
  | [], _, _, h, _ => by
      rw [Stmt.renameEach, Exec.stmts]
      exact pure_like h _
  | c :: cs, s, s', h, hb => by
      obtain ⟨hc, hcs⟩ := List.forall_mem_cons.1 hb
      rw [Stmt.renameEach, Exec.stmts, Exec.stmts]
      refine bind_like (stmt_like hsim h hc) fun flow t t' ht => ?_
      cases flow with
      | returned val => exact pure_like ht _
      | next val => exact stmts_like hsim ht hcs

end

/-! Depth -/

/-- Bodies are run alike however many levels of calls are left. -/
theorem simulates_runnerAt (K : Swap) (config : Config) (n : Nat) :
    K.Simulates (R := R) (B := B) (runnerAt? config n) := by
  induction n with
  | zero => exact nofun
  | succ n ih =>
      rintro run hrun r s s' b _ h ⟨rfl, hcovers⟩
      cases hrun
      rw [runBody_eq, runBody_eq, ← Stmt.renameEach_eq_map]
      exact stmts_like ih h hcovers

end Swap

end OpenQasm
