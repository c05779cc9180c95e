import OpenQasm.Proofs.Modifiers.Expansion

/-!
# Calls under further controls

The same body is run by a call and by the same call under further controls, which
are bound in front of those that the first call has. What the body comes down to is
the same in both, but for the further controls. A text may use the name of a control
qubit, which then stands for another qubit under the further controls; but then the
leaf that is reached has the control qubit twice.
-/
namespace OpenQasm

/-- Scopes with the same constants, bits and definitions. -/
structure SameValues {R : Type} (s s' : Scope R) : Prop where
  scalars : s'.scalars = s.scalars
  outer : s'.outer = s.outer
  bits : s'.bits = s.bits
  gates : s'.gates = s.gates

namespace SameValues

variable {R : Type} [Scalar R] {s s' : Scope R}

omit [Scalar R] in
theorem const?_eq (h : SameValues s s') (name : String) : s'.const? name = s.const? name := by
  rw [Scope.const?, Scope.const?, h.scalars, h.outer]

theorem fold_eq (h : SameValues s s') : ∀ e : Expr, s'.fold e = s.fold e
  | .lit _ => rfl
  | .ident name => by rw [Scope.fold, Scope.fold, h.const?_eq, h.bits]
  | .index name i => by rw [Scope.fold, Scope.fold, fold_eq h i, h.bits]
  | .binary op l r => by rw [Scope.fold, Scope.fold, fold_eq h l, fold_eq h r]
  | .unary op e => by rw [Scope.fold, Scope.fold, fold_eq h e]
  | .paren e => by rw [Scope.fold, Scope.fold, fold_eq h e]
  | .call _ _ _ _ => rfl
  | .measure _ => rfl

theorem angle_eq (h : SameValues s s') (e : Expr) : s'.angle e = s.angle e := by
  rw [Scope.angle, Scope.angle, h.fold_eq]

theorem exponent_eq (h : SameValues s s') (m : Modifier) : s'.exponent m = s.exponent m := by
  unfold Scope.exponent
  cases m.arg with
  | none => rfl
  | some e => simp only [h.fold_eq]

theorem controlCount_eq (h : SameValues s s') (m : Modifier) :
    s'.controlCount m = s.controlCount m := by
  unfold Scope.controlCount
  cases m.arg with
  | none => rfl
  | some e => simp only [h.fold_eq]

theorem reference_eq (h : SameValues s s') (e : Expr) : s'.reference e = s.reference e := by
  cases e with
  | index name i => rw [Scope.reference, Scope.reference, h.fold_eq]
  | _ => rfl

end SameValues

/-- Qubits that are the same, or a single qubit of a list against another one. -/
def Close (ds : List (List QubitId)) (v v' : List QubitId) : Prop :=
  v = v' ∨ ∃ q q', v = [q] ∧ v' = [q'] ∧ [q] ∈ ds

namespace Close

variable {ds es : List (List QubitId)} {v v' : List QubitId} {vs vs' : List (List QubitId)}

theorem length_eq (h : Close ds v v') : v.length = v'.length := by
  rcases h with rfl | ⟨q, q', rfl, rfl, -⟩
  · rfl
  · rfl

theorem mono (hds : ds ⊆ es) (h : Close ds v v') : Close es v v' := by
  rcases h with rfl | ⟨q, q', rfl, rfl, hq⟩
  · exact .inl rfl
  · exact .inr ⟨q, q', rfl, rfl, hds hq⟩

theorem map_length_eq (h : List.Forall₂ (Close ds) vs vs') :
    vs'.map List.length = vs.map List.length := by
  induction h with
  | nil => rfl
  | cons hv _ ih => rw [List.map_cons, List.map_cons, hv.length_eq, ih]

/-- Either all qubits are the same, or one of the list occurs. -/
theorem eq_or_mem (h : List.Forall₂ (Close ds) vs vs') : vs = vs' ∨ ∃ q, [q] ∈ vs ∧ [q] ∈ ds := by
  induction h with
  | nil => exact .inl rfl
  | cons hv _ ih =>
      rcases hv with rfl | ⟨q, q', rfl, -, hq⟩
      · rcases ih with rfl | ⟨q, hq, hds⟩
        · exact .inl rfl
        · exact .inr ⟨q, List.mem_cons_of_mem _ hq, hds⟩
      · exact .inr ⟨q, List.mem_cons_self, hq⟩

end Close

theorem RegisterTable.select_single {t : RegisterTable QubitId} {name : String}
    {index : Option Int64} {q : QubitId} {v : List QubitId} (hname : t.get? name = some [q])
    (h : t.select name index = .ok v) : v = [q] := by
  unfold select at h
  rw [hname] at h
  cases index with
  | none =>
      cases h
      rfl
  | some i =>
      dsimp only at h
      split at h
      · rename_i a ha
        cases h
        obtain ⟨k, -, hk⟩ := Option.bind_eq_some_iff.1 ha
        rw [List.mem_singleton.1 (List.mem_of_getElem? hk)]
      · cases h

/-- Two scopes see every argument as close ones. -/
structure SeesClose {R : Type} (ds : List (List QubitId)) (s s' : Scope R) : Prop extends
    SameValues s s' where
  names : ∀ x v, s.qubits.get? x = some v → ∃ v', s'.qubits.get? x = some v' ∧ Close ds v v'

namespace SeesClose

variable {R : Type} [Scalar R] {ds : List (List QubitId)} {s s' : Scope R}

theorem qubitsOf (h : SeesClose ds s s') {e : Expr} {v v' : List QubitId}
    (hv : s.qubitsOf e = .ok v) (hv' : s'.qubitsOf e = .ok v') : Close ds v v' := by
  unfold Scope.qubitsOf at hv hv'
  rw [h.reference_eq] at hv'
  obtain ⟨⟨name, index⟩, href, hv⟩ := bind_ok_iff.1 hv
  obtain ⟨_, href', hv'⟩ := bind_ok_iff.1 hv'
  rw [href] at href'
  cases href'
  cases hw : s.qubits.get? name with
  | none =>
      simp only [RegisterTable.select, hw] at hv
      cases hv
  | some w =>
      obtain ⟨w', hw', hclose⟩ := h.names name w hw
      rcases hclose with rfl | ⟨q, q', rfl, rfl, hq⟩
      · have hsame : s.qubits.select name index = s'.qubits.select name index := by
          simp only [RegisterTable.select, hw, hw']
        dsimp only at hv hv'
        rw [hsame, hv'] at hv
        cases hv
        exact .inl rfl
      · rw [RegisterTable.select_single hw hv, RegisterTable.select_single hw' hv']
        exact .inr ⟨q, q', rfl, rfl, hq⟩

theorem mapM_qubitsOf (h : SeesClose ds s s') {es : List Expr} {vs vs' : List (List QubitId)}
    (hvs : es.mapM s.qubitsOf = .ok vs) (hvs' : es.mapM s'.qubitsOf = .ok vs') :
    List.Forall₂ (Close ds) vs vs' := by
  induction es generalizing vs vs' with
  | nil =>
      rw [mapM_nil_ok_iff.1 hvs, mapM_nil_ok_iff.1 hvs']
      exact .nil
  | cons e es ih =>
      obtain ⟨v, ws, hv, hws, rfl⟩ := mapM_cons_ok_iff.1 hvs
      obtain ⟨v', ws', hv', hws', rfl⟩ := mapM_cons_ok_iff.1 hvs'
      exact .cons (h.qubitsOf hv hv') (ih hws hws')

end SeesClose

/-- Modifiers that differ at most in the qubits of their arguments. -/
inductive Applied.Like : Applied → Applied → Prop
  | control (on : Bool) {args args' : List (List QubitId)} (h : args.length = args'.length) :
      Like (control on args) (control on args')
  | inverse : Like inverse inverse
  | power (k : Int) : Like (power k) (power k)

namespace Applied

variable {as as' : List Applied}

theorem Like.length_args {a a' : Applied} (h : a.Like a') : a.args.length = a'.args.length := by
  cases h with
  | control on h => exact h
  | inverse => rfl
  | power k => rfl

theorem length_args_of_like (h : List.Forall₂ Like as as') :
    (as.flatMap args).length = (as'.flatMap args).length := by
  induction h with
  | nil => rfl
  | cons ha _ ih => rw [List.flatMap_cons, List.flatMap_cons, List.length_append,
      List.length_append, ha.length_args, ih]

theorem exponent_of_like (h : List.Forall₂ Like as as') : exponent as = exponent as' := by
  induction h with
  | nil => rfl
  | cons ha _ ih =>
      rw [exponent_cons, exponent_cons, ih]
      cases ha <;> rfl

theorem turned_of_like (h : List.Forall₂ Like as as') (b : Block) :
    Block.turned as b = Block.turned as' b := by
  induction h with
  | nil => rfl
  | cons ha _ ih =>
      cases ha with
      | control on _ => exact ih
      | inverse => exact congrArg Block.inv ih
      | power k => rw [Block.turned, Block.turned, ih]

/-- Like modifiers with the same arguments are the same. -/
theorem eq_of_like (h : List.Forall₂ Like as as') (hargs : as.flatMap args = as'.flatMap args) :
    as = as' := by
  induction h with
  | nil => rfl
  | cons ha _ ih =>
      rw [List.flatMap_cons, List.flatMap_cons] at hargs
      obtain ⟨hfirst, hrest⟩ := List.append_inj hargs ha.length_args
      rw [ih hrest]
      cases ha with
      | control on _ =>
          rw [args, args] at hfirst
          rw [hfirst]
      | inverse => rfl
      | power k => rfl

theorem map_snd_pairs (as : List Applied) : (as.flatMap pairs).map Prod.snd = as.flatMap args := by
  induction as with
  | nil => rfl
  | cons a as ih =>
      have hfirst : a.pairs.map Prod.snd = a.args := by
        cases a with
        | control on args => exact (List.map_map ..).trans (List.map_id' args)
        | inverse => rfl
        | power k => rfl
      rw [List.flatMap_cons, List.map_append, ih, List.flatMap_cons, hfirst]

end Applied

namespace SeesClose

variable {R : Type} [Scalar R] {ds : List (List QubitId)} {s s' : Scope R}

theorem resolveModifier (h : SeesClose ds s s') {m : Modifier} {qs : List Expr} {a a' : Applied}
    (ha : s.resolveModifier m qs = .ok a) (ha' : s'.resolveModifier m qs = .ok a') :
    a.Like a' := by
  cases hm : m.isControl with
  | true =>
      obtain ⟨n, args, hn, hargs, rfl⟩ := (Scope.resolveModifier_control hm).1 ha
      obtain ⟨n', args', hn', hargs', rfl⟩ := (Scope.resolveModifier_control hm).1 ha'
      rw [h.controlCount_eq, hn] at hn'
      cases hn'
      exact .control _ (h.mapM_qubitsOf hargs hargs').length_eq
  | false =>
      obtain ⟨kind, arg⟩ := m
      cases kind with
      | ctrl => cases hm
      | negctrl => cases hm
      | inv =>
          cases ha
          cases ha'
          exact .inverse
      | pow =>
          obtain ⟨k, hk, ha⟩ := bind_ok_iff.1 ha
          obtain ⟨k', hk', ha'⟩ := bind_ok_iff.1 ha'
          rw [h.exponent_eq, hk] at hk'
          cases hk'
          cases ha
          cases ha'
          exact .power _

theorem applied (h : SeesClose ds s s') {ms : List Modifier} {qs : List Expr}
    {as as' : List Applied} (has : s.applied ms qs = .ok as) (has' : s'.applied ms qs = .ok as') :
    List.Forall₂ Applied.Like as as' := by
  induction ms generalizing qs as as' with
  | nil =>
      cases has
      cases has'
      exact .nil
  | cons m ms ih =>
      obtain ⟨a, bs, ha, hbs, rfl⟩ := Scope.applied_cons_ok_iff.1 has
      obtain ⟨a', bs', ha', hbs', rfl⟩ := Scope.applied_cons_ok_iff.1 has'
      have hlike := h.resolveModifier ha ha'
      rw [← hlike.length_args] at hbs'
      exact .cons hlike (ih hbs hbs')

end SeesClose

/-! Leaves under further controls -/

/-- A control qubit is taken for two arguments of a leaf. -/
def Leaf.RepeatsControl {R : Type} (l : Leaf R) : Prop :=
  ∃ q, [q] ∈ l.controls.map Prod.snd ∧ 2 ≤ (l.controls.map Prod.snd ++ l.targets).count [q]

/-- A leaf, and the same one under further controls unless it repeats a control. -/
structure Leaf.Similar {R : Type} (cs : List (Bool × List QubitId)) (l l' : Leaf R) : Prop where
  gate : l'.gate = l.gate
  power : l'.power = l.power
  targets : l'.targets.map List.length = l.targets.map List.length
  controlled : l' = l.controlled cs ∨ l.RepeatsControl

/-- The scopes in which two calls run the same body, the second one under further
controls `cs`. -/
structure Linked {R : Type} (cs : List (Bool × List QubitId)) (as as' : List Applied)
    (s s' : Scope R) : Prop extends SeesClose (as.flatMap Applied.args) s s' where
  counted : ∀ a ∈ as, a.Counted
  counted' : ∀ a ∈ as', a.Counted
  bound : ∀ i arg, (as.flatMap Applied.args)[i]? = some arg →
    s.qubits.get? (controlName i) = some arg
  bound' : ∀ i arg, (as'.flatMap Applied.args)[i]? = some arg →
    s'.qubits.get? (controlName i) = some arg
  length_le : (as.flatMap Applied.args).length ≤ (as'.flatMap Applied.args).length
  controls : as'.flatMap Applied.pairs = cs ++ as.flatMap Applied.pairs ∨
    ∃ q, 2 ≤ (as.flatMap Applied.args).count [q]

namespace Applied

variable (as bs : List Applied)

theorem flatMap_args_handed :
    (as.filter isControl ++ bs).flatMap args = as.flatMap args ++ bs.flatMap args := by
  rw [List.flatMap_append, flatMap_filter_control args rfl fun _ => rfl]

theorem flatMap_pairs_handed :
    (as.filter isControl ++ bs).flatMap pairs = as.flatMap pairs ++ bs.flatMap pairs := by
  rw [List.flatMap_append, flatMap_filter_control pairs rfl fun _ => rfl]

theorem turned_filter_control (b : Block) :
    Block.turned (as.filter isControl ++ bs) b = Block.turned bs b := by
  induction as with
  | nil => rfl
  | cons a as ih =>
      cases a with
      | control on args => exact ih
      | inverse => exact ih
      | power k => exact ih

theorem exponent_filter_control :
    exponent (as.filter isControl ++ bs) = exponent bs := by
  induction as with
  | nil => rfl
  | cons a as ih =>
      cases a with
      | control on args =>
          rw [List.filter_cons_of_pos rfl, List.cons_append, exponent_cons, ih,
            factor, Int.one_mul]
      | inverse => exact ih
      | power k => exact ih

end Applied

namespace Scope

variable {R : Type} [Scalar R]

theorem mapM_groups {s : Scope R} {as : List Applied} {start : Nat}
    (hbound : ∀ i arg, (as.flatMap Applied.args)[i]? = some arg →
      s.qubits.get? (controlName (start + i)) = some arg) :
    ((Applied.groups start as).flatMap Prod.snd).mapM s.qubitsOf =
      .ok (as.flatMap Applied.args) := by
  induction as generalizing start with
  | nil => rfl
  | cons a as ih =>
      cases a with
      | inverse => exact ih hbound
      | power k => exact ih hbound
      | control on args =>
          rw [Applied.groups, List.flatMap_cons, List.flatMap_cons]
          refine mapM_append_ok_iff.2 ⟨args, as.flatMap Applied.args, ?_, ih ?_, rfl⟩
          · refine mapM_controlNames fun i arg harg => hbound i arg ?_
            rw [List.flatMap_cons, Applied.args,
              List.getElem?_append_left (List.getElem?_eq_some_iff.1 harg).1]
            exact harg
          · intro i arg harg
            rw [Nat.add_assoc]
            refine hbound (args.length + i) arg ?_
            simpa [Applied.args, List.getElem?_append_right] using harg

/-- An application that was handed controls down resolves to these and its own. -/
theorem handed_ok {s : Scope R} {as : List Applied} (hcounted : ∀ a ∈ as, a.Counted)
    (hbound : ∀ i arg, (as.flatMap Applied.args)[i]? = some arg →
      s.qubits.get? (controlName i) = some arg)
    {ms : List Modifier} {qs : List Expr} {bs : List Applied} {vs : List (List QubitId)}
    (hbs : s.applied ((Applied.groups 0 as).map Prod.fst ++ ms)
      ((Applied.groups 0 as).flatMap Prod.snd ++ qs) = .ok bs)
    (hvs : ((Applied.groups 0 as).flatMap Prod.snd ++ qs).mapM s.qubitsOf = .ok vs) :
    ∃ ys ws, s.applied ms qs = .ok ys ∧ qs.mapM s.qubitsOf = .ok ws ∧
      bs = as.filter Applied.isControl ++ ys ∧ vs = as.flatMap Applied.args ++ ws := by
  have hbound0 : ∀ i arg, (as.flatMap Applied.args)[i]? = some arg →
      s.qubits.get? (controlName (0 + i)) = some arg := by simpa using hbound
  obtain ⟨ys, hys, rfl⟩ := (applied_groups hcounted hbound0).1 hbs
  obtain ⟨us, ws, hus, hws, rfl⟩ := mapM_append_ok_iff.1 hvs
  rw [mapM_groups hbound0] at hus
  cases hus
  exact ⟨ys, ws, hys, hws, rfl, rfl⟩

end Scope

theorem forall2_of_append {α β : Type} {r : α → β → Prop} {as bs : List α} {as' bs' : List β}
    (h : List.Forall₂ r (as ++ bs) (as' ++ bs')) (hlen : as.length = as'.length) :
    List.Forall₂ r as as' ∧ List.Forall₂ r bs bs' := by
  have hfirst := List.forall₂_take_append _ _ _ h
  have hrest := List.forall₂_drop_append _ _ _ h
  rw [List.take_left' hlen] at hfirst
  rw [List.drop_left' hlen] at hrest
  exact ⟨hfirst, hrest⟩

/-- A qubit of a list that occurs in another one is counted twice in both. -/
theorem two_le_count {vs ws : List (List QubitId)} {q : QubitId} (hv : [q] ∈ vs) (hw : [q] ∈ ws) :
    2 ≤ (vs ++ ws).count [q] := by
  have h1 := List.count_pos_iff.2 hv
  have h2 := List.count_pos_iff.2 hw
  rw [List.count_append]
  omega

namespace Linked

variable {R : Type} [Scalar R] {cs : List (Bool × List QubitId)} {as as' : List Applied}
  {s s' : Scope R}

/-- Leaves of the same text, in the body of a call and of the call under further controls. -/
theorem similar (h : Linked cs as as' s s') {gate : LeafGate} {ms : List Modifier}
    {ps qs : List Expr} {l l' : Leaf R}
    (hl : s.Resolves gate ((Applied.groups 0 as).map Prod.fst ++ ms) ps
      ((Applied.groups 0 as).flatMap Prod.snd ++ qs) l)
    (hl' : s'.Resolves gate ((Applied.groups 0 as').map Prod.fst ++ ms) ps
      ((Applied.groups 0 as').flatMap Prod.snd ++ qs) l') : l.Similar cs l' := by
  obtain ⟨bs, params, targets, hbs, hparams, hargs, rfl⟩ := hl
  obtain ⟨bs', params', targets', hbs', hparams', hargs', rfl⟩ := hl'
  obtain ⟨ys, ws, hys, hws, rfl, hvs⟩ := Scope.handed_ok h.counted h.bound hbs hargs
  obtain ⟨ys', ws', hys', hws', rfl, hvs'⟩ := Scope.handed_ok h.counted' h.bound' hbs' hargs'
  have hlike := h.applied hys hys'
  have hclose := h.mapM_qubitsOf hws hws'
  obtain rfl : params = params' := by
    have hangle : s'.angle = s.angle := funext h.angle_eq
    rw [hangle, hparams] at hparams'
    exact Except.ok.inj hparams'
  rw [Applied.flatMap_args_handed, List.append_assoc] at hvs hvs'
  obtain rfl := List.append_cancel_left hvs
  obtain rfl := List.append_cancel_left hvs'
  have hlen := Applied.length_args_of_like hlike
  have hsnd : ((as.filter Applied.isControl ++ ys).flatMap Applied.pairs).map Prod.snd =
      as.flatMap Applied.args ++ ys.flatMap Applied.args := by
    rw [Applied.map_snd_pairs, Applied.flatMap_args_handed]
  refine ⟨rfl, ?_, Close.map_length_eq (forall2_of_append hclose hlen).2, ?_⟩
  · rw [Applied.exponent_filter_control, Applied.exponent_filter_control, Applied.exponent_of_like hlike]
  rcases h.controls with hcontrols | ⟨q, hq⟩
  · rcases Close.eq_or_mem hclose with hsame | ⟨q, hq, hds⟩
    · obtain ⟨hargs, rfl⟩ := List.append_inj hsame hlen
      obtain rfl := Applied.eq_of_like hlike hargs
      left
      rw [Leaf.controlled, Applied.flatMap_pairs_handed, Applied.flatMap_pairs_handed, hcontrols,
        List.append_assoc, Applied.exponent_filter_control, Applied.exponent_filter_control]
    · right
      refine ⟨q, ?_, ?_⟩
      · rw [hsnd]
        exact List.mem_append_left _ hds
      · rw [hsnd, List.append_assoc]
        exact two_le_count hds hq
  · right
    refine ⟨q, ?_, ?_⟩
    · rw [hsnd]
      exact List.mem_append_left _ (List.count_pos_iff.1 (by omega))
    · rw [hsnd, List.append_assoc, List.count_append]
      omega

end Linked

/-! Scopes of bodies under further controls -/

theorem close_setAll {ds : List (List QubitId)} {names : List String}
    {t t' : Table (List QubitId)} {vs vs' : List (List QubitId)}
    (ht : ∀ x v, t.get? x = some v → ∃ v', t'.get? x = some v' ∧ Close ds v v')
    (h : List.Forall₂ (Close ds) vs vs') (x : String) (v : List QubitId)
    (hx : (t.setAll (names.zip vs)).get? x = some v) :
    ∃ v', (t'.setAll (names.zip vs')).get? x = some v' ∧ Close ds v v' := by
  induction names generalizing t t' vs vs' with
  | nil => exact ht x v hx
  | cons n names ih =>
      cases h with
      | nil => exact ht x v hx
      | @cons w w' ws ws' hw hws =>
          refine @ih (t.set n w) (t'.set n w') ws ws' (fun y u hy => ?_) hws hx
          rw [Table.get?_set] at hy ⊢
          split at hy
          · rename_i hyn
            cases hy
            exact ⟨w', if_pos hyn, hw⟩
          · rename_i hyn
            rw [if_neg hyn]
            exact ht y u hy

theorem close_controlBindings {ds : List (List QubitId)} {controls controls' : List QubitId}
    (hds : ds = controls.map fun q => [q]) (hlen : controls.length ≤ controls'.length)
    (x : String) (v : List QubitId)
    (hx : (Table.empty.setAll (controlBindings controls)).get? x = some v) :
    ∃ v', (Table.empty.setAll (controlBindings controls')).get? x = some v' ∧ Close ds v v' := by
  rcases Table.mem_of_get?_setAll hx with hmem | hnone
  · obtain ⟨i, q, hq, heq⟩ := name_of_mem_controlBindings hmem
    cases heq
    have hi : i < controls'.length :=
      Nat.lt_of_lt_of_le (List.getElem?_eq_some_iff.1 hq).1 hlen
    refine ⟨[controls'.get ⟨i, hi⟩], get?_controlBindings (List.getElem?_eq_getElem hi),
      .inr ⟨q, _, rfl, rfl, ?_⟩⟩
    rw [hds]
    exact List.mem_map_of_mem (List.mem_of_getElem? hq)
  · cases hnone

section Scopes

variable {R : Type} [Scalar R] {cs : List (Bool × List QubitId)} {s s' : Scope R}

omit [Scalar R] in
theorem bound_gateScope {gate : GateDef} (hformals : ∀ x ∈ gate.qargs, ¬IsControlName x)
    {as : List Applied} {controls : List QubitId}
    (hargs : as.flatMap Applied.args = controls.map fun q => [q]) (call : Call)
    (targets : List (List QubitId)) (params : List (Const R)) (i : Nat) (arg : List QubitId)
    (harg : (as.flatMap Applied.args)[i]? = some arg) :
    (s.gateScope gate call controls targets params).bare.qubits.get? (controlName i) =
      some arg := by
  rw [hargs, List.getElem?_map, Option.map_eq_some_iff] at harg
  obtain ⟨q, hq, rfl⟩ := harg
  exact Scope.get?_gateScope_control hq fun hmem =>
    hformals _ hmem (isControlName_controlName i)

omit [Scalar R] in
/-- Bodies of the same gate, called with close arguments. -/
theorem linked_gateScope (hvalues : SameValues s s') {gate : GateDef}
    (hformals : ∀ x ∈ gate.qargs, ¬IsControlName x) {as as' : List Applied}
    {controls controls' : List QubitId} {targets targets' : List (List QubitId)}
    (hargs : as.flatMap Applied.args = controls.map fun q => [q])
    (hargs' : as'.flatMap Applied.args = controls'.map fun q => [q])
    (hcounted : ∀ a ∈ as, a.Counted) (hcounted' : ∀ a ∈ as', a.Counted)
    (hlen : controls.length ≤ controls'.length)
    (hcontrols : as'.flatMap Applied.pairs = cs ++ as.flatMap Applied.pairs ∨
      ∃ q, 2 ≤ (as.flatMap Applied.args).count [q])
    (htargets : List.Forall₂ (Close (as.flatMap Applied.args)) targets targets')
    (call call' : Call) (params : List (Const R)) :
    Linked cs as as' (s.gateScope gate call controls targets params).bare
      (s'.gateScope gate call' controls' targets' params).bare where
  scalars := by rw [Scope.gateScope_eq, Scope.gateScope_eq]; rfl
  outer := by
    rw [Scope.gateScope_eq, Scope.gateScope_eq]
    exact congrArg₂ List.cons hvalues.scalars hvalues.outer
  bits := by rw [Scope.gateScope_eq, Scope.gateScope_eq]; rfl
  gates := by
    rw [Scope.gateScope_eq, Scope.gateScope_eq]
    exact hvalues.gates
  names := by
    rw [Scope.gateScope_eq, Scope.gateScope_eq]
    exact close_setAll (close_controlBindings hargs hlen) htargets
  counted := hcounted
  counted' := hcounted'
  bound := bound_gateScope hformals hargs call targets params
  bound' := bound_gateScope hformals hargs' call' targets' params
  length_le := by rwa [hargs, hargs', List.length_map, List.length_map]
  controls := hcontrols

/-- A call that stands in the body of both calls. -/
theorem Linked.call {as as' : List Applied} (h : Linked cs as as' s s') {gate : GateDef}
    (hformals : ∀ x ∈ gate.qargs, ¬IsControlName x) {name : String} {ms : List Modifier}
    {ps qs : List Expr} {inner inner' : Scope R} {body body' : Block}
    (p : s.Prepared gate ⟨name, (Applied.groups 0 as).map Prod.fst ++ ms, ps,
      (Applied.groups 0 as).flatMap Prod.snd ++ qs⟩ inner body)
    (p' : s'.Prepared gate ⟨name, (Applied.groups 0 as').map Prod.fst ++ ms, ps,
      (Applied.groups 0 as').flatMap Prod.snd ++ qs⟩ inner' body') :
    ∃ bs bs' b, body = Block.addAll (Applied.groups 0 bs) b ∧
      body' = Block.addAll (Applied.groups 0 bs') b ∧ Linked cs bs bs' inner.bare inner'.bare := by
  obtain ⟨params, bs, controls, targets, hfold, -, hbs, hargs, hcounted, hres, -, rfl, rfl⟩ := p
  obtain ⟨params', bs', controls', targets', hfold', -, hbs', hargs', hcounted', hres', -, rfl,
    rfl⟩ := p'
  obtain ⟨ys, ws, hys, hws, rfl, hvs⟩ := Scope.handed_ok h.counted h.bound hbs hres
  obtain ⟨ys', ws', hys', hws', rfl, hvs'⟩ := Scope.handed_ok h.counted' h.bound' hbs' hres'
  have hlike := h.applied hys hys'
  have hclose := h.mapM_qubitsOf hws hws'
  have hlen := Applied.length_args_of_like hlike
  obtain rfl : params = params' := by
    have hsame : s'.fold = s.fold := funext h.fold_eq
    rw [hsame, hfold] at hfold'
    exact Except.ok.inj hfold'
  have hall := hargs
  have hall' := hargs'
  rw [Applied.flatMap_args_handed] at hall hall'
  rw [← hall, List.append_assoc] at hvs
  rw [← hall', List.append_assoc] at hvs'
  obtain rfl := List.append_cancel_left hvs
  obtain rfl := List.append_cancel_left hvs'
  obtain ⟨hown, htargets⟩ := forall2_of_append hclose hlen
  refine ⟨_, _, Block.turned ys gate.body, ?_, ?_, linked_gateScope h.toSameValues hformals hargs
    hargs' hcounted hcounted' ?_ ?_ ?_ _ _ params⟩
  · rw [Applied.turned_filter_control]
  · rw [Applied.turned_filter_control, Applied.turned_of_like hlike]
  · have hle := h.length_le
    have hc := congrArg List.length hall
    have hc' := congrArg List.length hall'
    simp only [List.length_append, List.length_map] at hc hc'
    omega
  · rw [Applied.flatMap_pairs_handed, Applied.flatMap_pairs_handed, Applied.flatMap_args_handed]
    rcases h.controls with hcontrols | ⟨q, hq⟩
    · rcases Close.eq_or_mem hown with hsame | ⟨q, hq, hds⟩
      · obtain rfl := Applied.eq_of_like hlike hsame
        left
        rw [hcontrols, List.append_assoc]
      · exact .inr ⟨q, two_le_count hds hq⟩
    · refine .inr ⟨q, ?_⟩
      rw [List.count_append]
      omega
  · refine htargets.imp fun v v' hv => hv.mono ?_
    rw [hargs, ← hall]
    exact List.subset_append_left _ _

end Scopes

/-! Bodies under further controls -/

namespace Stmt

def addAll (gs : List (Modifier × List Expr)) (c : Stmt) : Stmt :=
  gs.foldr (fun g c => c.add g.1 g.2) c

variable {gs : List (Modifier × List Expr)} {c : Stmt}

theorem addAll_apply (gs : List (Modifier × List Expr)) (b : Builtin) (ms : List Modifier)
    (ps qs : List Expr) : (Stmt.apply b ms ps qs).addAll gs =
      .apply b (gs.map Prod.fst ++ ms) ps (gs.flatMap Prod.snd ++ qs) := by
  induction gs with
  | nil => rfl
  | cons g gs ih =>
      rw [addAll, List.foldr_cons, ← addAll, ih, List.flatMap_cons, List.append_assoc]
      rfl

theorem addAll_call (gs : List (Modifier × List Expr)) (name : String) (ms : List Modifier)
    (ps qs : List Expr) : (Stmt.expr (.call name ms ps qs)).addAll gs =
      .expr (.call name (gs.map Prod.fst ++ ms) ps (gs.flatMap Prod.snd ++ qs)) := by
  induction gs with
  | nil => rfl
  | cons g gs ih =>
      rw [addAll, List.foldr_cons, ← addAll, ih, List.flatMap_cons, List.append_assoc]
      rfl

theorem addAll_block (gs : List (Modifier × List Expr)) (b : List Stmt) :
    (Stmt.block b).addAll gs = .block (b.map (addAll gs)) := by
  induction gs with
  | nil => exact congrArg Stmt.block (List.map_id' b).symm
  | cons g gs ih =>
      rw [addAll, List.foldr_cons, ← addAll, ih, add_block, List.map_map]
      rfl

/-- Statements that apply no gate get no controls. -/
theorem addAll_cases (gs : List (Modifier × List Expr)) (c : Stmt) :
    (∃ b ms ps qs, c = .apply b ms ps qs) ∨ (∃ name ms ps qs, c = .expr (.call name ms ps qs)) ∨
      (∃ b, c = .block b) ∨ c.addAll gs = c := by
  have hsame : (∀ m qs, c.add m qs = c) → c.addAll gs = c := by
    intro hadd
    induction gs with
    | nil => rfl
    | cons g gs ih => rw [addAll, List.foldr_cons, ← addAll, ih, hadd]
  cases c with
  | apply b ms ps qs => exact .inl ⟨b, ms, ps, qs, rfl⟩
  | block b => exact .inr (.inr (.inl ⟨b, rfl⟩))
  | expr e =>
      cases e with
      | call name ms ps qs => exact .inr (.inl ⟨name, ms, ps, qs, rfl⟩)
      | _ => exact .inr (.inr (.inr (hsame fun _ _ => rfl)))
  | _ => exact .inr (.inr (.inr (hsame fun _ _ => rfl)))

theorem addAll_eq_apply {b : Builtin} {ms : List Modifier} {ps qs : List Expr}
    (h : c.addAll gs = .apply b ms ps qs) : ∃ ms' qs', c = .apply b ms' ps qs' ∧
      ms = gs.map Prod.fst ++ ms' ∧ qs = gs.flatMap Prod.snd ++ qs' := by
  rcases addAll_cases gs c with ⟨b', ms', ps', qs', rfl⟩ | ⟨name, ms', ps', qs', rfl⟩ | ⟨b', rfl⟩ |
    hsame
  · rw [addAll_apply] at h
    cases h
    exact ⟨ms', qs', rfl, rfl, rfl⟩
  · rw [addAll_call] at h
    cases h
  · rw [addAll_block] at h
    cases h
  · rw [hsame] at h
    subst h
    rw [addAll_apply] at hsame
    injection hsame with _ hms _ hqs
    exact ⟨ms, qs, rfl, hms.symm, hqs.symm⟩

theorem addAll_eq_call {name : String} {ms : List Modifier} {ps qs : List Expr}
    (h : c.addAll gs = .expr (.call name ms ps qs)) : ∃ ms' qs', c = .expr (.call name ms' ps qs') ∧
      ms = gs.map Prod.fst ++ ms' ∧ qs = gs.flatMap Prod.snd ++ qs' := by
  rcases addAll_cases gs c with ⟨b', ms', ps', qs', rfl⟩ | ⟨name', ms', ps', qs', rfl⟩ | ⟨b', rfl⟩ |
    hsame
  · rw [addAll_apply] at h
    cases h
  · rw [addAll_call] at h
    cases h
    exact ⟨ms', qs', rfl, rfl, rfl⟩
  · rw [addAll_block] at h
    cases h
  · rw [hsame] at h
    subst h
    rw [addAll_call] at hsame
    injection hsame with hcall
    injection hcall with _ hms _ hqs
    exact ⟨ms, qs, rfl, hms.symm, hqs.symm⟩

theorem addAll_eq_block {b : List Stmt} (h : c.addAll gs = .block b) :
    ∃ b', c = .block b' ∧ b = b'.map (addAll gs) := by
  rcases addAll_cases gs c with ⟨b', ms', ps', qs', rfl⟩ | ⟨name', ms', ps', qs', rfl⟩ | ⟨b', rfl⟩ |
    hsame
  · rw [addAll_apply] at h
    cases h
  · rw [addAll_call] at h
    cases h
  · rw [addAll_block] at h
    cases h
    exact ⟨b', rfl, rfl⟩
  · rw [hsame] at h
    subst h
    rw [addAll_block] at hsame
    injection hsame with hb
    exact ⟨b, rfl, hb.symm⟩

end Stmt

theorem Block.addAll_eq_map (gs : List (Modifier × List Expr)) (b : Block) :
    b.addAll gs = b.map (Stmt.addAll gs) := by
  induction gs with
  | nil => exact (List.map_id' b).symm
  | cons g gs ih =>
      rw [addAll, List.foldr_cons, ← addAll, ih, Block.add, List.map_map]
      rfl

variable {R : Type} [Scalar R]

/-- The leaves of a body are those of the body under further controls, with these
controls in front. -/
theorem Expands.similar {cs : List (Bool × List QubitId)} {as as' : List Applied}
    {s s' : Scope R} (hlink : Linked cs as as' s s') {b : Block} {ls ls' : List (Leaf R)}
    (h : Expands s (b.map (Stmt.addAll (Applied.groups 0 as))) ls)
    (h' : Expands s' (b.map (Stmt.addAll (Applied.groups 0 as'))) ls') :
    List.Forall₂ (Leaf.Similar cs) ls ls' := by
  -- both bodies come from `b`, so the second expansion is read off along the first; a call
  -- hands its own controls on, so they and the scopes change from call to call
  generalize hbody : b.map (Stmt.addAll (Applied.groups 0 as)) = body at h
  induction h generalizing as as' s' b ls' with
  | nil =>
      obtain rfl := List.map_eq_nil_iff.1 hbody
      cases h'
      exact .nil
  | apply hgate hl hcs ih =>
      obtain ⟨c, b, rfl, hc, rfl⟩ := List.map_eq_cons_iff.1 hbody
      obtain ⟨ms, qs, rfl, rfl, rfl⟩ := Stmt.addAll_eq_apply hc
      rw [List.map_cons, Stmt.addAll_apply] at h'
      obtain ⟨l', ls', hl', hcs', rfl⟩ := of_apply hgate h'
      exact .cons (hlink.similar hl hl') (ih hlink hcs' rfl)
  | standard hname hgate hl hcs ih =>
      obtain ⟨c, b, rfl, hc, rfl⟩ := List.map_eq_cons_iff.1 hbody
      obtain ⟨ms, qs, rfl, rfl, rfl⟩ := Stmt.addAll_eq_call hc
      rw [List.map_cons, Stmt.addAll_call] at h'
      rw [← hlink.gates] at hname
      obtain ⟨l', ls', hl', hcs', rfl⟩ := of_standard hname hgate h'
      exact .cons (hlink.similar hl hl') (ih hlink hcs' rfl)
  | call hname hformals p hb hcs ihb ih =>
      obtain ⟨c, b, rfl, hc, rfl⟩ := List.map_eq_cons_iff.1 hbody
      obtain ⟨ms, qs, rfl, rfl, rfl⟩ := Stmt.addAll_eq_call hc
      rw [List.map_cons, Stmt.addAll_call] at h'
      rw [← hlink.gates] at hname
      obtain ⟨inner', body', p', ls₁, ls₂, hb', hcs', rfl⟩ := of_call hname h'
      obtain ⟨bs, bs', b', rfl, rfl, hinner⟩ := hlink.call hformals p p'
      rw [Block.addAll_eq_map] at hb'
      exact List.rel_append (ihb hinner hb' (Block.addAll_eq_map _ _).symm) (ih hlink hcs' rfl)
  | block hb hcs ihb ih =>
      obtain ⟨c, b, rfl, hc, rfl⟩ := List.map_eq_cons_iff.1 hbody
      obtain ⟨b', rfl, rfl⟩ := Stmt.addAll_eq_block hc
      rw [List.map_cons, Stmt.addAll_block] at h'
      obtain ⟨ls₁, ls₂, hb', hcs', rfl⟩ := of_block h'
      exact List.rel_append (ihb hlink hb' rfl) (ih hlink hcs' rfl)

end OpenQasm
