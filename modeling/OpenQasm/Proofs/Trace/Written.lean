import OpenQasm.Proofs.Modifiers.Acceptance
import OpenQasm.Proofs.Modifiers.Reach
import OpenQasm.Proofs.Trace.Invariant

/-!
# Leaves that a run writes down

If the body of a gate only applies gates, and so do the bodies of the gates it comes
to, then a run of the body that succeeds writes down the leaves that the body comes
down to, in order.
-/
namespace OpenQasm

/-! Scopes without the modifiers of their call -/

namespace Scope

variable {R : Type}

theorem sameValues_bare (s : Scope R) : SameValues s s.bare := ⟨rfl, rfl, rfl, rfl⟩

variable [Scalar R]

theorem qubitsOf_bare (s : Scope R) (e : Expr) : s.bare.qubitsOf e = s.qubitsOf e := by
  rw [qubitsOf, qubitsOf, s.sameValues_bare.reference_eq]
  rfl

theorem applied_bare (s : Scope R) (ms : List Modifier) (qs : List Expr) :
    s.bare.applied ms qs = s.applied ms qs := by
  have hresolve : ∀ m qs, s.bare.resolveModifier m qs = s.resolveModifier m qs := by
    intro m qs
    unfold resolveModifier
    rw [s.sameValues_bare.exponent_eq, s.sameValues_bare.controlCount_eq,
      funext s.qubitsOf_bare]
  induction ms generalizing qs with
  | nil => rfl
  | cons m ms ih =>
      rw [applied, applied, hresolve]
      simp only [ih]

theorem Resolves.bare {s : Scope R} {gate : LeafGate} {ms : List Modifier} {ps qs : List Expr}
    {l : Leaf R} (h : s.Resolves gate ms ps qs l) : s.bare.Resolves gate ms ps qs l := by
  unfold Resolves
  rw [s.applied_bare, funext s.qubitsOf_bare, funext s.sameValues_bare.angle_eq]
  exact h

/-- What a call runs does not depend on the modifiers around it. -/
def Prepared.bare {s : Scope R} {gate : GateDef} {call : Call} {inner : Scope R} {body : Block}
    (p : s.Prepared gate call inner body) : s.bare.Prepared gate call inner body :=
  { p with
    fold_params := by rw [funext s.sameValues_bare.fold_eq]; exact p.fold_params
    applied := by rw [s.applied_bare]; exact p.applied
    resolved := by rw [funext s.qubitsOf_bare]; exact p.resolved
    scope_eq := p.scope_eq }

end Scope

/-! Requests and leaves -/

namespace Recorder

variable {R B α : Type}

theorem leaves_note_leaf (l : Leaf R) (t : Recorder R B) :
    (t.note (.leaf l)).leaves = t.leaves ++ [l] := by
  simp [leaves, note]

/-- Operations are no leaves. -/
theorem leaves_apply [Backend R B] (ls : List (Leaf R)) (op : Operation (Amplitude R)) :
    Keeps (fun t : Recorder R B => t.leaves = ls) (Backend.apply op : Request _ Unit) := by
  intro t ht
  have hforward : (Backend.apply op t).2.leaves = (t.note (.apply op)).leaves := rfl
  rw [hforward, ← ht]
  simp [leaves, note]

/-- A recorder refuses what its backend refuses. -/
theorem refusesRepeats [Backend R B] (h : Backend.RefusesRepeats R B) :
    Backend.RefusesRepeats R (Recorder R B) :=
  fun op t hop => h op t.backend hop

end Recorder

/-- Operations that were applied were accepted one by one. -/
theorem Backend.accepted_of_applyAll {R B : Type} [Backend R B]
    (hB : Backend.RefusesRepeats R B) {ops : List (Operation (Amplitude R))} {b b' : B}
    (h : (Backend.applyAll ops : Request B Unit) b = (.ok (), b')) :
    ∀ op ∈ ops, op.qubits.Nodup := by
  induction ops generalizing b with
  | nil => simp
  | cons op ops ih =>
      obtain ⟨_, b₁, hop, hops⟩ := ran_bind.1 h
      refine List.forall_mem_cons.2 ⟨hB op b ?_, ih hops⟩
      rw [hop]

namespace Traced

variable {R B α : Type}

theorem ran_inFrame {f : Frame} {x : Run R (Recorder R B) α} {m m' : Machine R (Recorder R B)}
    {a : α} (h : inFrame f x m = (.ok a, m')) :
    ∃ m₁ m₂, x m₁ = (.ok a, m₂) ∧ m₁.backend.leaves = m.backend.leaves ∧
      m'.backend.leaves = m₂.backend.leaves := by
  unfold inFrame at h
  rcases hx : x { m with backend := { m.backend with frames := f :: m.backend.frames } } with
    ⟨result, m₂⟩
  rw [hx] at h
  cases h
  exact ⟨_, m₂, hx, rfl, rfl⟩

variable [Scalar R]

/-- A gate without a body is written down before it is applied. -/
theorem ran_applyLeaf {place : Place} {s : Scope R} {gate : LeafGate} {call : Call}
    {x : Run R (Recorder R B) Unit} {m m' : Machine R (Recorder R B)}
    (h : applyLeaf place s gate call x m = (.ok (), m')) :
    ∃ m₁ m₂, x m₁ = (.ok (), m₂) ∧ m'.backend.leaves = m₂.backend.leaves ∧
      ∀ l, s.leaf gate call.modifiers call.params call.qargs = .ok l →
        m₁.backend.leaves = m.backend.leaves ++ [l] := by
  obtain ⟨m₁, m₂, hrun, hm₁, hm'⟩ := ran_inFrame h
  obtain ⟨_, m₃, hnote, hx⟩ := ran_bind.1 hrun
  refine ⟨m₃, m₂, hx, hm', fun l hl => ?_⟩
  rw [hl] at hnote
  cases hnote
  rw [← hm₁]
  exact Recorder.leaves_note_leaf l m₁.backend

variable [Backend R B]

/-- What a run of a body has written down: the leaves that the body comes down to. If the
backend refuses repeated qubits, none of them repeats a control, except where nothing was
sent. -/
structure Wrote (s : Scope R) (body : List Stmt) (m m' : Machine R (Recorder R B))
    (ls : List (Leaf R)) : Prop where
  expands : Expands s.bare body ls
  leaves : m'.backend.leaves = m.backend.leaves ++ ls
  accepted : Backend.RefusesRepeats R B → ∀ l ∈ ls, l.idle = true ∨ ¬l.RepeatsControl

theorem Wrote.nil (s : Scope R) (m : Machine R (Recorder R B)) : Wrote s [] m m [] :=
  ⟨.nil, by simp, by simp⟩

theorem Wrote.append {s : Scope R} {body body' : List Stmt} {m m₁ m' : Machine R (Recorder R B)}
    {ls ls' : List (Leaf R)} (h : Wrote s body m m₁ ls) (h' : Wrote s body' m₁ m' ls') :
    Wrote s (body ++ body') m m' (ls ++ ls') := by
  refine ⟨h.expands.append h'.expands, ?_, fun hB => ?_⟩
  · rw [h'.leaves, h.leaves, List.append_assoc]
  · exact List.forall_mem_append.2 ⟨h.accepted hB, h'.accepted hB⟩

/-- What is written down where a gate without a body was applied. -/
structure WroteLeaf (s : Scope R) (gate : LeafGate) (call : Call)
    (m m' : Machine R (Recorder R B)) (l : Leaf R) : Prop where
  resolves : s.Resolves gate call.modifiers call.params call.qargs l
  leaves : m'.backend.leaves = m.backend.leaves ++ [l]
  accepted : Backend.RefusesRepeats R B → l.idle = true ∨ ¬l.RepeatsControl

theorem WroteLeaf.wrote {s : Scope R} {gate : LeafGate} {call : Call}
    {m m' : Machine R (Recorder R B)} {l : Leaf R} (h : WroteLeaf s gate call m m' l) {c : Stmt}
    (hc : Expands s.bare [c] [l]) : Wrote s [c] m m' [l] :=
  ⟨hc, h.leaves, fun hB => List.forall_mem_singleton.2 (h.accepted hB)⟩

omit [Scalar R] in
theorem keeps_leaves_applyAll (ls : List (Leaf R)) (ops : List (Operation (Amplitude R))) :
    Keeps (fun t : Recorder R B => t.leaves = ls) (Backend.applyAll ops : Request _ Unit) :=
  .forM fun op _ => Recorder.leaves_apply ls op

/-- A gate with a matrix that was applied has written one leaf. -/
theorem wrote_standard {place : Place} {s : Scope R} {gate : StandardGate} {call : Call}
    {m m' : Machine R (Recorder R B)}
    (h : applyLeaf place s (.standard gate) call
      (Run.applyStandard s gate call.modifiers call.params call.qargs) m = (.ok (), m')) :
    ∃ l, WroteLeaf s (.standard gate) call m m' l := by
  obtain ⟨m₁, m₂, hrun, hm', hm₁⟩ := ran_applyLeaf h
  obtain ⟨ops, m₃, hlift, hrequest⟩ := ran_bind.1 hrun
  obtain ⟨hops, rfl⟩ := ran_lift.1 hlift
  obtain ⟨l, hl, hresolves, hrepeats⟩ := Scope.leaf_of_standardOperations hops
  have happlied := (ran_request hrequest).1
  refine ⟨l, hresolves, ?_, fun hB => .inr fun hcontrol => ?_⟩
  · have hkept := keeps_leaves_applyAll (B := B) _ ops m₁.backend rfl
    rw [happlied] at hkept
    rw [hm', hkept, hm₁ l hl]
  · obtain ⟨op, hop, hnodup⟩ := hrepeats hcontrol
    exact hnodup (Backend.accepted_of_applyAll (Recorder.refusesRepeats hB) happlied op hop)

omit [Scalar R] [Backend R B] in
/-- A request that was repeated keeps what it keeps, and was granted unless nothing was
asked for. -/
theorem ran_repeatRequest {r : Request (Recorder R B) Unit} {P : Recorder R B → Prop}
    (hr : Keeps P r) {n : Nat} {m m' : Machine R (Recorder R B)}
    (h : Run.repeatRequest r n m = (.ok (), m')) (hm : P m.backend) :
    P m'.backend ∧ (n ≠ 0 → ∃ t t', r t = (.ok (), t')) := by
  induction n generalizing m with
  | zero =>
      cases h
      exact ⟨hm, fun hn => absurd rfl hn⟩
  | succ n ih =>
      obtain ⟨_, m₁, hfirst, hrest⟩ := ran_bind.1 h
      have hgranted := (ran_request hfirst).1
      have hkept := hr m.backend hm
      rw [hgranted] at hkept
      exact ⟨(ih hrest hkept).1, fun _ => ⟨_, _, hgranted⟩⟩

/-- A Fourier transform that was applied has written one leaf. -/
theorem wrote_fourier {place : Place} {s : Scope R} {b : Builtin} {gate : LeafGate} {call : Call}
    {m m' : Machine R (Recorder R B)} (hgate : ∀ g, gate ≠ .standard g)
    (h : applyLeaf place s gate call
      (Run.applyFourier s b call.modifiers call.params call.qargs) m = (.ok (), m')) :
    ∃ l, WroteLeaf s gate call m m' l := by
  obtain ⟨m₁, m₂, hrun, hm', hm₁⟩ := ran_applyLeaf h
  obtain ⟨c, m₃, hlift, hrequest⟩ := ran_bind.1 hrun
  obtain ⟨hc, rfl⟩ := ran_lift.1 hlift
  obtain ⟨l, hl, hresolves, hleaf, htimes, hregister, hrepeats⟩ := Scope.leaf_of_fourierCall hc gate
  obtain ⟨ops, hops, hnodup⟩ : ∃ ops : List (Operation (Amplitude R)),
      (if c.inverse then Backend.inverseFourier c.controls c.register
        else Backend.fourier c.controls c.register : Request (Recorder R B) Unit) =
          Backend.applyAll ops ∧
      (l.RepeatsControl → c.register ≠ [] → ∃ op ∈ ops, ¬op.qubits.Nodup) := by
    split
    · exact ⟨_, rfl, fun hcontrol hne => Fourier.exists_not_nodup_inverse (hrepeats hcontrol hne)⟩
    · exact ⟨_, rfl, hrepeats⟩
  rw [hops] at hrequest
  obtain ⟨hkept, hgranted⟩ :=
    ran_repeatRequest (keeps_leaves_applyAll m₁.backend.leaves ops) hrequest rfl
  refine ⟨l, hresolves, by rw [hm', hkept, hm₁ l hl], fun hB => ?_⟩
  by_cases hidle : l.idle = true
  · exact .inl hidle
  · refine .inr fun hcontrol => ?_
    have hsent : l.power ≠ 0 ∧ l.targets.flatten ≠ [] := by
      unfold Leaf.idle at hidle
      rw [hleaf] at hidle
      cases gate with
      | standard g => exact absurd rfl (hgate g)
      | fourier => simpa using hidle
      | inverseFourier => simpa using hidle
    obtain ⟨op, hop, hrepeat⟩ := hnodup hcontrol (by rw [hregister]; exact hsent.2)
    obtain ⟨t, t', ht⟩ := hgranted (by
      rw [htimes]
      exact Int.natAbs_ne_zero.2 fun h => hsent.1 (Int64.toInt_inj.1 h))
    exact hrepeat (Backend.accepted_of_applyAll (Recorder.refusesRepeats hB) ht op hop)

/-- A built-in gate other than the modular power writes one leaf. -/
theorem wrote_applyBuiltin {s : Scope R} {b : Builtin} (hb : b ≠ .cmodexp2) {ms : List Modifier}
    {ps qs : List Expr} {m m' : Machine R (Recorder R B)}
    (h : applyBuiltin s b ms ps qs m = (.ok (), m')) :
    ∃ l, Wrote s [.apply b ms ps qs] m m' [l] := by
  have hstandard : ∀ gate, LeafGate.ofBuiltin? b = some (.standard gate) →
      applyLeaf .statement s (.standard gate) ⟨b.text, ms, ps, qs⟩
        (Run.applyStandard s gate ms ps qs) m = (.ok (), m') →
      ∃ l, Wrote s [.apply b ms ps qs] m m' [l] := by
    intro gate hgate happly
    obtain ⟨l, hl⟩ := wrote_standard happly
    exact ⟨l, hl.wrote (.apply hgate hl.resolves.bare .nil)⟩
  have hfourier : ∀ gate, LeafGate.ofBuiltin? b = some gate → (∀ g, gate ≠ .standard g) →
      applyLeaf .statement s gate ⟨b.text, ms, ps, qs⟩
        (Run.applyFourier s b ms ps qs) m = (.ok (), m') →
      ∃ l, Wrote s [.apply b ms ps qs] m m' [l] := by
    intro gate hgate hne happly
    obtain ⟨l, hl⟩ := wrote_fourier hne happly
    exact ⟨l, hl.wrote (.apply hgate hl.resolves.bare .nil)⟩
  cases b with
  | cmodexp2 => exact absurd rfl hb
  | qft => exact hfourier .fourier rfl (by simp) h
  | iqft => exact hfourier .inverseFourier rfl (by simp) h
  | _ => exact hstandard _ rfl h

/-! Calls and statements -/

/-- How bodies are run: a body that only applies gates writes its leaves down. -/
def RunnerWrites (deeper : Option (BodyRunner R (Recorder R B))) : Prop :=
  ∀ run ∈ deeper, ∀ (G : GateDef → Prop) (s : Scope R) (body : Block) m m' ended, s.Closed G →
    Stmt.EachOnlyGates (s.Names G) body → run s body m = (.ok ended, m') →
    ∃ ls, Wrote s body m m' ls

/-- A call of a gate with a body writes down what its transformed body comes down to. -/
theorem wrote_callGate {config : Config} {deeper : Option (BodyRunner R (Recorder R B))}
    (hdeeper : RunnerWrites deeper) {G : GateDef → Prop} {s : Scope R} (hs : s.Closed G)
    {gate : GateDef} (hgate : G gate) {f : Frame} {call : Call}
    {m m' : Machine R (Recorder R B)} {v : Value R}
    (h : Run.callGate config (framed f deeper) s gate call m = (.ok v, m')) :
    ∃ inner body ls, Nonempty (s.Prepared gate call inner body) ∧ Wrote inner body m m' ls := by
  obtain ⟨-, run, inner, body, ended, hrun, hprepared, hbody⟩ := Scope.ran_callGate.1 h
  obtain ⟨run', hmem, rfl⟩ := enter_framed hrun
  obtain ⟨⟨p⟩, -⟩ := Scope.prepareGate_ok hprepared
  obtain ⟨m₂, m₃, hran, hm₂, hm₃⟩ := ran_inFrame hbody
  obtain ⟨ls, hwrote⟩ := hdeeper run' hmem G inner body m₂ m₃ ended (p.closed hs)
    (p.onlyGates hs hgate) hran
  refine ⟨inner, body, ls, ⟨p⟩, hwrote.expands, ?_, hwrote.accepted⟩
  rw [hm₃, hwrote.leaves, hm₂]

/-- A call that is a statement writes its leaves down. -/
theorem wrote_call {config : Config} {deeper : Option (BodyRunner R (Recorder R B))}
    (hdeeper : RunnerWrites deeper) {G : GateDef → Prop} {s : Scope R} (hs : s.Closed G)
    {name : String} (hname : s.Names G name) {ms : List Modifier} {ps qs : List Expr}
    {m m' : Machine R (Recorder R B)} {v : Value R}
    (h : value .statement config deeper s (.call name ms ps qs) m = (.ok v, m')) :
    ∃ ls, Wrote s [.expr (.call name ms ps qs)] m m' ls := by
  rw [value] at h
  cases hget : s.gates.get? name with
  | some gate =>
      rw [hget] at h
      have hgate := hname.2 gate hget
      obtain ⟨inner, body, ls, ⟨p⟩, hbody⟩ := wrote_callGate hdeeper hs hgate h
      have hcall := Expands.call (s := s.bare) hget (hs gate hgate).2 p.bare hbody.expands .nil
      rw [List.append_nil] at hcall
      exact ⟨ls, hcall, hbody.leaves, hbody.accepted⟩
  | none =>
      rw [hget, (hname.1 hget).1] at h
      cases hgate : StandardGate.ofName? name with
      | none =>
          rw [hgate] at h
          cases h
      | some gate =>
          rw [hgate] at h
          obtain ⟨_, m₁, happly, hpure⟩ := ran_bind.1 h
          obtain ⟨-, rfl⟩ := ran_pure.1 hpure
          obtain ⟨l, hl⟩ := wrote_standard happly
          exact ⟨[l], hl.wrote (.standard hget hgate hl.resolves.bare .nil)⟩

theorem Wrote.block {s : Scope R} {body : List Stmt} {m m' : Machine R (Recorder R B)}
    {ls : List (Leaf R)} (h : Wrote s body m m' ls) : Wrote s [.block body] m m' ls := by
  have hblock := Expands.block h.expands .nil
  rw [List.append_nil] at hblock
  exact ⟨hblock, h.leaves, h.accepted⟩

mutual

/-- A statement that only applies gates leaves the scope alone, and writes its leaves. -/
theorem wrote_stmt (config : Config) {deeper : Option (BodyRunner R (Recorder R B))}
    (hdeeper : RunnerWrites deeper) {G : GateDef → Prop} {s : Scope R} (hs : s.Closed G) :
    ∀ (c : Stmt) {s' : Scope R} {m m' : Machine R (Recorder R B)} {flow : Flow R},
    c.OnlyGates (s.Names G) → stmt config deeper c (s, m) = (.ok flow, (s', m')) →
    s' = s ∧ (∃ v, flow = .next v) ∧ ∃ ls, Wrote s [c] m m' ls
  | .apply b ms ps qs, s', m, m', flow, hc, h => by
      obtain ⟨_, ⟨s₁, m₁⟩, hrun, hpure⟩ := ran_bind.1 h
      obtain ⟨rfl, hstate⟩ := ran_pure.1 hpure
      cases hstate
      obtain ⟨rfl, happly⟩ := Exec.ran_ofRun.1 hrun
      obtain ⟨l, hl⟩ := wrote_applyBuiltin hc happly
      exact ⟨rfl, ⟨_, rfl⟩, [l], hl⟩
  | .expr (.call name ms ps qs), s', m, m', flow, hc, h => by
      obtain ⟨v, ⟨s₁, m₁⟩, hrun, hpure⟩ := ran_bind.1 h
      obtain ⟨rfl, hstate⟩ := ran_pure.1 hpure
      cases hstate
      obtain ⟨rfl, hcall⟩ := Exec.ran_ofRun.1 hrun
      exact ⟨rfl, ⟨v, rfl⟩, wrote_call hdeeper hs hc hcall⟩
  | .block body, s', m, m', flow, hc, h => by
      obtain ⟨hscope, hflow, ls, hls⟩ := wrote_stmts config hdeeper hs body hc h
      exact ⟨hscope, hflow, ls, hls.block⟩
  | .version _, _, _, _, _, hc, _ | .includes _, _, _, _, _, hc, _
  | .declare _, _, _, _, _, hc, _ | .const .., _, _, _, _, hc, _ | .gate .., _, _, _, _, hc, _
  | .subroutine .., _, _, _, _, hc, _ | .returns _, _, _, _, _, hc, _
  | .arrow .., _, _, _, _, hc, _ | .assign .., _, _, _, _, hc, _ | .reset _, _, _, _, _, hc, _
  | .print _, _, _, _, _, hc, _ | .expr (.measure _), _, _, _, _, hc, _
  | .expr (.ident _), _, _, _, _, hc, _ | .expr (.index ..), _, _, _, _, hc, _
  | .expr (.lit _), _, _, _, _, hc, _ | .expr (.binary ..), _, _, _, _, hc, _
  | .expr (.unary ..), _, _, _, _, hc, _ | .expr (.paren _), _, _, _, _, hc, _ => hc.elim

/-- A body that only applies gates writes the leaves of its statements, in order. -/
theorem wrote_stmts (config : Config) {deeper : Option (BodyRunner R (Recorder R B))}
    (hdeeper : RunnerWrites deeper) {G : GateDef → Prop} {s : Scope R} (hs : s.Closed G) :
    ∀ (cs : List Stmt) {s' : Scope R} {m m' : Machine R (Recorder R B)} {flow : Flow R},
    Stmt.EachOnlyGates (s.Names G) cs →
    stmts config deeper cs (s, m) = (.ok flow, (s', m')) →
    s' = s ∧ (∃ v, flow = .next v) ∧ ∃ ls, Wrote s cs m m' ls
  | [], s', m, m', flow, _, h => by
      obtain ⟨rfl, hstate⟩ := ran_pure.1 h
      cases hstate
      exact ⟨rfl, ⟨_, rfl⟩, [], .nil s m⟩
  | c :: cs, s', m, m', flow, hcs, h => by
      obtain ⟨flow₁, ⟨s₁, m₁⟩, hfirst, hrest⟩ := ran_bind.1 h
      obtain ⟨hscope, ⟨v, rfl⟩, ls, hls⟩ := wrote_stmt config hdeeper hs c hcs.1 hfirst
      rw [hscope] at hrest
      obtain ⟨hscope', hflow, ls', hls'⟩ := wrote_stmts config hdeeper hs cs hcs.2 hrest
      exact ⟨hscope', hflow, ls ++ ls', hls.append hls'⟩

end

theorem runnerWrites_none : RunnerWrites (R := R) (B := B) none := by
  intro run hrun
  cases hrun

theorem runnerWrites_runBody (config : Config) (n : Nat) :
    RunnerWrites (R := R) (B := B) (some (runBody config n)) := by
  induction n with
  | zero =>
      rintro _ ⟨⟩ G s body m m' ⟨s', flow⟩ hs hbody h
      exact (wrote_stmts config runnerWrites_none hs body hbody (Exec.ran_within.1 h)).2.2
  | succ n ih =>
      rintro _ ⟨⟩ G s body m m' ⟨s', flow⟩ hs hbody h
      exact (wrote_stmts config ih hs body hbody (Exec.ran_within.1 h)).2.2

end Traced

end OpenQasm
