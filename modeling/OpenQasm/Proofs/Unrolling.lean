import OpenQasm.Proofs.Modifiers.Handover
import OpenQasm.Proofs.Quantum.Statements

/-!
# Modifiers of a gate and of a gate that only applies it

Modifiers are implemented twice. For a gate without a body they come down to one power of
its matrix; for a gate with a body the body is inverted, repeated and given controls. A
gate whose body is a single application of a gate without a body can be written both
ways: either way the qubits go through the same change.
-/
namespace OpenQasm

open Operation

/-- The gate with a body that only applies the gate that a word stands for. -/
def GateWord.wrapper (w : GateWord) (name : String) (params qargs : List String) : GateDef :=
  ⟨name, params, qargs, [w.stmt [] (params.map .ident) (qargs.map .ident)]⟩

/-! The body of a modified wrapper -/

namespace GateWord

variable (w : GateWord)

theorem inv_stmt (ms : List Modifier) (ps qs : List Expr) :
    (w.stmt ms ps qs).inv = w.stmt (ms ++ [Modifier.inv]) ps qs := by
  cases w with
  | builtin b => rfl
  | named name => rfl

theorem addAll_stmt (gs : List (Modifier × List Expr)) (ms : List Modifier) (ps qs : List Expr) :
    (w.stmt ms ps qs).addAll gs = w.stmt (gs.map Prod.fst ++ ms) ps (gs.flatMap Prod.snd ++ qs) := by
  cases w with
  | builtin b => exact Stmt.addAll_apply gs b ms ps qs
  | named name => exact Stmt.addAll_call gs name ms ps qs

/-- An application of a gate under `j` inversions. -/
def inverted (j : Nat) (ps qs : List Expr) : Stmt :=
  w.stmt (List.replicate j Modifier.inv) ps qs

theorem inv_replicate_inverted (k j : Nat) (ps qs : List Expr) :
    Block.inv (List.replicate k (w.inverted j ps qs)) =
      List.replicate k (w.inverted (j + 1) ps qs) := by
  rw [Block.inv, List.map_replicate, List.reverse_replicate, inverted, inv_stmt,
    ← List.replicate_succ']
  rfl

theorem pow_replicate_inverted (n k j : Nat) (ps qs : List Expr) :
    Block.pow n (List.replicate k (w.inverted j ps qs)) =
      List.replicate (n * k) (w.inverted j ps qs) := by
  rw [Block.pow_eq, List.flatten_replicate_replicate]

/-- Turning a single application repeats it under inversions; their parity and the number
of repetitions make up the exponent that the same modifiers fold to. -/
theorem turned_stmt (as : List Applied) (ps qs : List Expr) :
    ∃ k j : Nat, Block.turned as [w.stmt [] ps qs] = List.replicate k (w.inverted j ps qs) ∧
      Applied.exponent as = (-1) ^ j * k := by
  induction as with
  | nil => exact ⟨1, 0, rfl, rfl⟩
  | cons a as ih =>
      obtain ⟨k, j, hturned, hexponent⟩ := ih
      rw [Applied.exponent_cons, hexponent]
      cases a with
      | control on args => exact ⟨k, j, hturned, Int.one_mul _⟩
      | inverse =>
          refine ⟨k, j + 1, ?_, ?_⟩
          · rw [Block.turned, hturned, inv_replicate_inverted]
          · rw [Applied.factor, pow_succ']
            ring
      | power p =>
          rw [Applied.factor, Block.turned, hturned, inv_replicate_inverted,
            pow_replicate_inverted, pow_replicate_inverted]
          by_cases hp : p < 0
          · refine ⟨p.natAbs * k, j + 1, if_pos hp, ?_⟩
            have habs : (p.natAbs : Int) = -p := by omega
            rw [Nat.cast_mul, habs, pow_succ']
            ring
          · refine ⟨p.natAbs * k, j, if_neg hp, ?_⟩
            have habs : (p.natAbs : Int) = p := by omega
            rw [Nat.cast_mul, habs]
            ring

end GateWord

namespace Scope

variable {R : Type} [Scalar R]

theorem applied_replicate_inv (s : Scope R) (j : Nat) (qs : List Expr) :
    s.applied (List.replicate j Modifier.inv) qs = .ok (List.replicate j .inverse) := by
  induction j with
  | zero => rfl
  | succ j ih => exact applied_cons_ok_iff.2 ⟨.inverse, _, rfl, ih, rfl⟩

end Scope

theorem Applied.exponent_replicate_inverse (j : Nat) :
    exponent (List.replicate j .inverse) = (-1) ^ j := by
  induction j with
  | zero => rfl
  | succ j ih => rw [List.replicate_succ, exponent_cons, ih, factor, pow_succ']

/-- An exponent of fewer than 2^63 repetitions is not cut off. -/
theorem toInt_ofInt_repetitions (j : Nat) {k : Nat} (hk : k < 2 ^ 63) :
    (Int64.ofInt ((-1) ^ j * k)).toInt = (-1) ^ j * k := by
  rcases neg_one_pow_eq_or Int j with h | h
  · rw [h]
    exact Int64.toInt_ofInt_of_le (by omega) (by omega)
  · rw [h]
    exact Int64.toInt_ofInt_of_le (by omega) (by omega)

/-! Operations on single qubits -/

/-- Single qubits are one run. -/
theorem broadcast_single (qs : List QubitId) : broadcast (qs.map fun q => [q]) = .ok [qs] := by
  have hlength : ∀ arg ∈ qs.map (fun q => [q]), arg.length = 1 := by simp
  have hmax : ((qs.map fun q => [q]).map List.length).max?.getD 1 = 1 := by
    cases h : ((qs.map fun q => [q]).map List.length).max? with
    | none => rfl
    | some n =>
        obtain ⟨arg, harg, rfl⟩ := List.mem_map.1 (List.max?_mem h)
        exact hlength arg harg
  have hfind : (qs.map fun q => [q]).find? (fun arg => arg.length ≠ 1 ∧ arg.length ≠ 1) = none := by
    simp
  have hrun : (qs.map fun q => [q]).filterMap (fun arg => if arg.length = 1 then arg[0]? else arg[0]?) =
      qs := by
    rw [List.filterMap_map]
    exact List.filterMap_some
  unfold broadcast
  dsimp only
  rw [hmax, hfind]
  exact congrArg (fun run => Except.ok [run]) hrun

namespace Scope

variable {R : Type} [Scalar R]

/-- A gate with a matrix, applied to single qubits, is one operation. -/
theorem standardOperations_single {s : Scope R} {gate : StandardGate} {ms : List Modifier}
    {ps qs : List Expr} {ops : List (Operation (Amplitude R))}
    (h : s.standardOperations gate ms ps qs = .ok ops) {as : List Applied}
    (has : s.applied ms qs = .ok as) {angles : List R} (hangles : ps.mapM s.angle = .ok angles)
    {ids : List QubitId} (hids : qs.mapM s.qubitsOf = .ok (ids.map fun q => [q])) :
    ops = [operation ((gate.matrix angles).raised (Int64.ofInt (Applied.exponent as)).toInt)
      (as.flatMap Applied.polarity ++ List.replicate gate.controlCount true) ids] := by
  obtain ⟨folded, angles', args, runs, hfolded, hangles', hlen, hargs, hruns, rfl⟩ :=
    standardOperations_ok h
  rw [hangles] at hangles'
  cases hangles'
  rw [hids] at hargs
  cases hargs
  rw [broadcast_single] at hruns
  cases hruns
  obtain ⟨as', has', hcontrols, hpower, -⟩ :=
    applied_of_foldModifiers hfolded hids (by rw [List.length_nil]; omega)
  rw [has] at has'
  cases has'
  rw [List.nil_append] at hcontrols
  rw [Int64.one_mul] at hpower
  rw [hcontrols, hpower]
  rfl

/-! The scope of a wrapper -/

theorem exists_single {s : Scope R} {qs : List Expr}
    (h : ∀ e ∈ qs, ∃ q, s.qubitsOf e = .ok [q]) :
    ∃ ids : List QubitId, qs.mapM s.qubitsOf = .ok (ids.map fun q => [q]) := by
  induction qs with
  | nil => exact ⟨[], rfl⟩
  | cons e qs ih =>
      obtain ⟨⟨q, hq⟩, hqs⟩ := List.forall_mem_cons.1 h
      obtain ⟨ids, hids⟩ := ih hqs
      exact ⟨q :: ids, mapM_cons_ok_iff.2 ⟨_, _, hq, hids, rfl⟩⟩

theorem mapM_ident {s : Scope R} {names : List String} {vs : List (List QubitId)}
    (h : List.Forall₂ (fun x v => s.qubits.get? x = some v) names vs) :
    (names.map Expr.ident).mapM s.qubitsOf = .ok vs := by
  induction h with
  | nil => rfl
  | cons hx _ ih => exact mapM_cons_ok_iff.2 ⟨_, _, qubitsOf_ident hx, ih, rfl⟩

/-- The angles of parameters are those of the constants they fold to. -/
theorem mapM_angle {s : Scope R} {ps : List Expr} {cs : List (Const R)}
    (h : ps.mapM s.fold = .ok cs) : ps.mapM s.angle = cs.mapM Const.toReal := by
  induction ps generalizing cs with
  | nil =>
      rw [mapM_nil_ok_iff.1 h]
      rfl
  | cons p ps ih =>
      obtain ⟨c, cs', hc, hcs, rfl⟩ := mapM_cons_ok_iff.1 h
      rw [List.mapM_cons, List.mapM_cons, ih hcs, angle, hc]
      rfl

theorem mapM_fold_ident {s : Scope R} {names : List String} {cs : List (Const R)}
    (h : List.Forall₂ (fun x c => s.scalars.get? x = some ⟨c, false⟩) names cs) :
    (names.map Expr.ident).mapM s.fold = .ok cs := by
  induction h with
  | nil => rfl
  | cons hx _ ih =>
      refine mapM_cons_ok_iff.2 ⟨_, _, ?_, ih, rfl⟩
      rw [fold, const?, List.findSome?_cons, hx]
      rfl

/-- In the body of a gate, what is applied to all formals under the controls of the call and
some inversions is one operation on the qubits of the call. -/
theorem standardOperations_formals {s inner : Scope R} {g : GateDef} (hparams : g.params.Nodup)
    (hqargs : g.qargs.Nodup) (hformals : ∀ x ∈ g.qargs, ¬IsControlName x) {call : Call}
    {body : Block} (p : s.Prepared g call inner body) {angles : List R}
    (hangles : call.params.mapM s.angle = .ok angles) {ids : List QubitId}
    (hids : call.qargs.mapM s.qubitsOf = .ok (ids.map fun q => [q])) {gate : StandardGate}
    {j : Nat} {ops : List (Operation (Amplitude R))}
    (h : inner.standardOperations gate
      ((Applied.groups 0 p.modifiers).map Prod.fst ++ List.replicate j Modifier.inv)
      (g.params.map .ident) ((Applied.groups 0 p.modifiers).flatMap Prod.snd ++ g.qargs.map .ident) =
        .ok ops) :
    ops = [operation ((gate.matrix angles).raised ((-1) ^ j))
      (p.modifiers.flatMap Applied.polarity ++ List.replicate gate.controlCount true) ids] := by
  obtain ⟨consts, as, controls, targets, hfold, hlen, _, hargs, hcounted, hresolved, htargets, rfl,
    _⟩ := p
  have hbound := bound_gateScope (s := s) hformals hargs call targets consts
  have hqubits := mapM_ident (forall2_gateScope_qubits hqargs htargets s call controls consts)
  have hconsts := mapM_fold_ident (forall2_gateScope_scalars hparams
    ((length_of_mapM hfold).trans hlen) s call controls targets)
  have hbound0 : ∀ i arg, (as.flatMap Applied.args)[i]? = some arg →
      (s.gateScope g call controls targets consts).qubits.get? (controlName (0 + i)) =
        some arg := by
    intro i arg harg
    rw [Nat.zero_add]
    exact hbound i arg harg
  have happlied := (applied_groups hcounted hbound0).2
    ⟨_, applied_replicate_inv _ j (g.qargs.map .ident), rfl⟩
  have hangles' := (mapM_angle hconsts).trans ((mapM_angle hfold).symm.trans hangles)
  have hall : ids.map (fun q => [q]) = as.flatMap Applied.args ++ targets := by
    rw [hids] at hresolved
    rw [hargs]
    exact Except.ok.inj hresolved
  have hids' := mapM_append_ok_iff.2 ⟨_, _, mapM_groups hbound0, hqubits, hall⟩
  have hpolarity : (List.replicate j Applied.inverse).flatMap Applied.polarity = [] := by
    simp [Applied.polarity]
  have hops := standardOperations_single h happlied hangles' hids'
  have hsign := toInt_ofInt_repetitions j (show 1 < 2 ^ 63 by decide)
  rw [Nat.cast_one, mul_one] at hsign
  rwa [Applied.exponent_filter_control, Applied.exponent_replicate_inverse, hsign,
    List.flatMap_append, Applied.flatMap_filter_control Applied.polarity rfl fun _ => rfl,
    hpolarity, List.append_nil] at hops

end Scope

theorem GateWord.means_gateScope {R : Type} {s inner : Scope R} {w : GateWord} {gate : LeafGate}
    (h : w.Means s gate) {g : GateDef} {call : Call} {controls : List QubitId}
    {targets : List (List QubitId)} {params : List (Const R)}
    (hinner : inner = s.gateScope g call controls targets params) : w.Means inner gate := by
  subst hinner
  rw [Scope.gateScope_eq]
  cases w with
  | builtin b => exact h
  | named name => exact h

/-! Runs of the body -/

namespace Exec

variable {R : Type} [Scalar R]

/-- A repeated application of a gate without a body goes through the same operations again. -/
theorem ran_replicate {config : Config} {deeper : Option (BodyRunner R (Simulator R))}
    {w : GateWord} {gate : LeafGate} {s s' : Scope R} (hw : w.Means s gate) {ms : List Modifier}
    {ps qs : List Expr} {k : Nat} {m m' : Machine R (Simulator R)} {flow : Flow R}
    (h : stmts config deeper (List.replicate k (w.stmt ms ps qs)) (s, m) = (.ok flow, (s', m'))) :
    ∃ ops, (k = 0 ∨ s.leafOperations gate ms ps qs = .ok ops) ∧
      (∀ op ∈ (List.replicate k ops).flatten, op.Fits m.backend.state.qubits) ∧
      m' = m.applyAll (List.replicate k ops).flatten := by
  induction k generalizing m with
  | zero =>
      cases h
      exact ⟨[], .inl rfl, by simp, rfl⟩
  | succ k ih =>
      rw [List.replicate_succ, stmts] at h
      obtain ⟨_, ⟨s₁, m₁⟩, hfirst, hrest⟩ := ran_bind.1 h
      obtain ⟨rfl, rfl, ops, hops, hfits, rfl⟩ := ran_gateWord hw hfirst
      obtain ⟨ops', hops', hfits', rfl⟩ := ih hrest
      have hqubits : (m.applyAll ops).backend.state.qubits = m.backend.state.qubits :=
        Operation.qubits_applyAll ops m.backend.state
      rw [hqubits] at hfits'
      have hsame : (List.replicate k ops').flatten = (List.replicate k ops).flatten := by
        rcases hops' with rfl | hops'
        · rfl
        · rw [hops] at hops'
          cases hops'
          rfl
      rw [hsame] at hfits' ⊢
      refine ⟨ops, .inr hops, ?_, ?_⟩
      · rw [List.replicate_succ, List.flatten_cons]
        exact List.forall_mem_append.2 ⟨hfits, hfits'⟩
      · rw [List.replicate_succ, List.flatten_cons, Machine.applyAll_append]

end Exec

variable {R : Type}

/-- An operation whose matrix is raised to a power is repeated as often. -/
theorem Scope.actAll_raised [ExactScalar R] {u : Unitary (Amplitude R)} {polarity : List Bool}
    {ids : List QubitId} {e : Int} {n : Nat} (h : (operation (u.raised e) polarity ids).Fits n)
    {sign : Int} (hsign : sign = 1 ∨ sign = -1) {k : Nat} (he : e = sign * k)
    (f : Nat → Amplitude R) :
    actAll [operation (u.raised e) polarity ids] f =
      actAll (List.replicate k (operation (u.raised sign) polarity ids)) f := by
  have hqubits : u.qubits = (ids.drop polarity.length).length := by
    rw [← Unitary.qubits_raised u e]
    exact h.targets
  have hnodup : (operation (u.raised sign) polarity ids).qubits.Nodup := h.nodup
  subst he
  exact (actAll_replicate hnodup (Unitary.toMatrix_raised_sign hqubits hsign k) f).symm

/-- A gate with a matrix and the gate with a body that only applies it agree under all
modifiers: from one state, both applied to the same single qubits with the same parameters,
they leave the same scope and the same machine. -/
theorem wrapped_gate_agrees [ExactScalar R] (config : Config) (n : Nat) {s s₁ s₂ : Scope R}
    {w : GateWord} {gate : StandardGate} (hw : w.Means s (.standard gate)) {name : String}
    {params qargs : List String} (hparams : params.Nodup) (hqargs : qargs.Nodup)
    (hformals : ∀ x ∈ qargs, ¬IsControlName x)
    (hname : s.gates.get? name = some (w.wrapper name params qargs)) {ms : List Modifier}
    {ps qs : List Expr} (hqs : ∀ e ∈ qs, ∃ q, s.qubitsOf e = .ok [q])
    {m m₁ m₂ : Machine R (Simulator R)} {flow₁ flow₂ : Flow R}
    (hfolded : Exec.stmt config (some (runBody config n)) (w.stmt ms ps qs) (s, m) =
      (.ok flow₁, (s₁, m₁)))
    (hunrolled : Exec.stmt config (some (runBody config n)) (.expr (.call name ms ps qs)) (s, m) =
      (.ok flow₂, (s₂, m₂))) :
    s₁ = s₂ ∧ m₁ = m₂ := by
  obtain ⟨rfl, -, ops, hops, hfits, rfl⟩ := Exec.ran_gateWord hw hfolded
  obtain ⟨rfl, -, inner, body, ended, -, hprepared, hrun⟩ := Scope.ran_call hname hunrolled
  obtain ⟨⟨p⟩, hshort⟩ := Scope.prepareGate_ok hprepared
  obtain ⟨deeper, hbody⟩ := Scope.ran_runBody hrun
  obtain ⟨ids, hids⟩ := Scope.exists_single hqs
  obtain ⟨-, angles, -, -, -, hangles, -⟩ := Scope.standardOperations_ok hops
  refine ⟨rfl, ?_⟩
  have hop := Scope.standardOperations_single hops p.applied hangles hids
  subst hop
  obtain ⟨k, j, hturned, hexponent⟩ := w.turned_stmt p.modifiers (params.map .ident) (qargs.map .ident)
  have hshape : body = (Block.turned p.modifiers
      [w.stmt [] (params.map .ident) (qargs.map .ident)]).addAll (Applied.groups 0 p.modifiers) :=
    p.body_eq
  rw [hturned, Block.addAll_eq_map, List.map_replicate, GateWord.inverted,
    GateWord.addAll_stmt] at hshape
  rw [hshape, List.length_replicate] at hshort
  rw [hexponent, toInt_ofInt_repetitions j hshort] at hfits ⊢
  rw [hshape] at hbody
  obtain ⟨ops', hops', hfits', rfl⟩ := 
    Exec.ran_replicate (GateWord.means_gateScope hw p.scope_eq) hbody
  have hrepeated : (List.replicate k ops').flatten =
      List.replicate k (Scope.operation ((gate.matrix angles).raised ((-1) ^ j))
        (p.modifiers.flatMap Applied.polarity ++ List.replicate gate.controlCount true) ids) := by
    rcases hops' with rfl | hops'
    · rfl
    · rw [Scope.standardOperations_formals hparams hqargs hformals p hangles hids hops',
        List.flatten_replicate_singleton]
  rw [hrepeated] at hfits' ⊢
  refine Machine.applyAll_congr hfits hfits' fun f => ?_
  exact Scope.actAll_raised (hfits _ List.mem_cons_self) (neg_one_pow_eq_or ℤ j) rfl f

noncomputable def withWrapper : Scope ℝ :=
  { Scope.root with
    qubits := ⟨[("q", [0, 1, 2])]⟩
    gates := ⟨[("w", (GateWord.named "rx").wrapper "w" ["t"] ["a"])]⟩ }

def mixedModifiers : List Modifier :=
  [.mk .negctrl none, .mk .inv none, .mk .ctrl none,
    .mk .pow (some (.unary .neg (.lit ⟨.int, "3"⟩)))]

def wrapperArgs : List Expr := ["0", "1", "2"].map fun i => .index "q" (.lit ⟨.int, i⟩)

noncomputable def ranWithWrapper (c : Stmt) :
    Except EvalError (Flow ℝ) × (Scope ℝ × Machine ℝ (Simulator ℝ)) :=
  Exec.stmt {} (some (runBody {} 0)) c (withWrapper, zeroMachine 3)

theorem wrapped_rx_agrees :
    (ranWithWrapper ((GateWord.named "rx").stmt mixedModifiers [.ident "pi"] wrapperArgs)).1.isOk ∧
    (ranWithWrapper (.expr (.call "w" mixedModifiers [.ident "pi"] wrapperArgs))).1.isOk ∧
    (ranWithWrapper ((GateWord.named "rx").stmt mixedModifiers [.ident "pi"] wrapperArgs)).2 =
      (ranWithWrapper (.expr (.call "w" mixedModifiers [.ident "pi"] wrapperArgs))).2 := by
  have hfolded : (ranWithWrapper
      ((GateWord.named "rx").stmt mixedModifiers [.ident "pi"] wrapperArgs)).1.isOk := by
    decide +kernel
  have hunrolled : (ranWithWrapper
      (.expr (.call "w" mixedModifiers [.ident "pi"] wrapperArgs))).1.isOk := by
    decide +kernel
  obtain ⟨flow₁, hflow₁⟩ := exists_of_isOk hfolded
  obtain ⟨flow₂, hflow₂⟩ := exists_of_isOk hunrolled
  have hmeans : (GateWord.named "rx").Means withWrapper (.standard .rx) :=
    ⟨rfl, rfl, .rx, rfl, rfl⟩
  have hformals : ∀ x ∈ ["a"], ¬IsControlName x := by
    unfold IsControlName
    decide
  have hqubits : ∀ e ∈ wrapperArgs, ∃ q, withWrapper.qubitsOf e = .ok [q] := by
    intro e he
    simp only [wrapperArgs, List.map_cons, List.map_nil, List.mem_cons, List.not_mem_nil,
      or_false] at he
    rcases he with rfl | rfl | rfl
    · exact ⟨0, rfl⟩
    · exact ⟨1, rfl⟩
    · exact ⟨2, rfl⟩
  obtain ⟨hscope, hmachine⟩ := wrapped_gate_agrees {} 0 hmeans (by decide) (by decide) hformals
    rfl hqubits hflow₁ hflow₂
  exact ⟨hfolded, hunrolled, Prod.ext hscope hmachine⟩

end OpenQasm
