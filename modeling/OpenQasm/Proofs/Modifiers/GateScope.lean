import OpenQasm.Proofs.Modifiers.Bodies
import Mathlib.Data.List.Basic
import Mathlib.Data.List.Forall2

/-!
# The scope of a gate's body

In the scope of its body a gate finds its control qubits under names of their own
and its other qubits under the names of its definition. Names bound later hide
names bound earlier.
-/
namespace OpenQasm

namespace Table

variable {α : Type}

theorem lookup_map_replace (entries : List (String × α)) (n x : String) (v : α) :
    (entries.map fun (m, w) => if m = n then (m, v) else (m, w)).lookup x =
      if x = n then (entries.lookup x).map fun _ => v else entries.lookup x := by
  induction entries with
  | nil => simp
  | cons e es ih =>
      obtain ⟨m, w⟩ := e
      by_cases hm : m = n
      · by_cases hx : x = m
        · subst hx
          simp [hm]
        · have hne : (x == m) = false := by simpa using hx
          simp only [List.map_cons, hm, if_true]
          rw [← hm, List.lookup_cons, hne, List.lookup_cons, hne]
          simpa [hm] using ih
      · by_cases hx : x = m
        · subst hx
          simp [hm]
        · have hne : (x == m) = false := by simpa using hx
          simp only [List.map_cons, hm, if_false]
          rw [List.lookup_cons, hne, List.lookup_cons, hne]
          exact ih

theorem get?_set (t : Table α) (n x : String) (v : α) :
    (t.set n v).get? x = if x = n then some v else t.get? x := by
  unfold set contains get?
  split
  · rename_i hsome
    simp only [lookup_map_replace]
    split
    · rename_i hx
      subst hx
      obtain ⟨w, hw⟩ := Option.isSome_iff_exists.1 hsome
      simp [hw]
    · rfl
  · rename_i hnone
    simp only [Bool.not_eq_true, Option.isSome_eq_false_iff, Option.isNone_iff_eq_none] at hnone
    simp only [List.lookup_append]
    split
    · rename_i hx
      subst hx
      simp [hnone]
    · rename_i hx
      have hne : (x == n) = false := by simpa using hx
      simp [List.lookup_cons, hne]

/-- A name that is new comes last. -/
theorem names_set (t : Table α) (n : String) (v : α) :
    (t.set n v).names = if t.contains n then t.names else t.names ++ [n] := by
  unfold set
  split
  · rw [names, List.map_map]
    refine List.map_congr_left fun r _ => ?_
    dsimp only [Function.comp_apply]
    split <;> rfl
  · rw [names, List.map_append]
    rfl

theorem contains_iff_mem_names {t : Table α} {x : String} :
    t.contains x = true ↔ x ∈ t.names := by
  rw [contains, get?, Option.isSome_iff_exists]
  constructor
  · rintro ⟨v, hv⟩
    obtain ⟨before, after, heq, -⟩ := List.lookup_eq_some_iff.1 hv
    rw [names, heq]
    simp
  · intro hx
    obtain ⟨r, hr, rfl⟩ := List.mem_map.1 hx
    cases hlook : t.entries.lookup r.1 with
    | some v => exact ⟨v, rfl⟩
    | none => simpa using List.lookup_eq_none_iff.1 hlook r hr

/-- Bind several names, one after the other. -/
def setAll (t : Table α) (bs : List (String × α)) : Table α :=
  bs.foldl (fun t b => t.set b.1 b.2) t

theorem get?_setAll_of_not_mem {t : Table α} {bs : List (String × α)} {x : String}
    (h : ∀ b ∈ bs, b.1 ≠ x) : (t.setAll bs).get? x = t.get? x := by
  induction bs generalizing t with
  | nil => rfl
  | cons b bs ih =>
      have hb : x ≠ b.1 := fun hx => h b List.mem_cons_self hx.symm
      rw [setAll, List.foldl_cons]
      have hrest := @ih (t.set b.1 b.2) fun b' hb' => h b' (List.mem_cons_of_mem b hb')
      rw [setAll] at hrest
      rw [hrest, get?_set, if_neg hb]

/-- Distinct names that are bound one after the other all keep their values. -/
theorem forall2_setAll_zip {t : Table α} {names : List String} {vs : List α}
    (hnames : names.Nodup) (hlen : vs.length = names.length) :
    List.Forall₂ (fun x v => (t.setAll (names.zip vs)).get? x = some v) names vs := by
  induction names generalizing t vs with
  | nil =>
      rw [List.eq_nil_of_length_eq_zero hlen]
      exact .nil
  | cons x names ih =>
      cases vs with
      | nil => simp at hlen
      | cons v vs =>
          obtain ⟨hx, hnames⟩ := List.nodup_cons.1 hnames
          refine .cons ?_ (@ih (t.set x v) vs hnames (by simpa using hlen))
          have hlater : ∀ b ∈ names.zip vs, b.1 ≠ x := by
            intro b hb hname
            rw [← hname] at hx
            exact hx (List.of_mem_zip hb).1
          have hget := get?_setAll_of_not_mem (t := t.set x v) hlater
          rw [get?_set, if_pos rfl] at hget
          exact hget

theorem exists_get?_setAll {t : Table α} {bs : List (String × α)} {x : String}
    (h : ∃ b ∈ bs, b.1 = x) : ∃ v, (t.setAll bs).get? x = some v := by
  induction bs generalizing t with
  | nil =>
      obtain ⟨b, hb, -⟩ := h
      cases hb
  | cons b bs ih =>
      by_cases hrest : ∃ b' ∈ bs, b'.1 = x
      · exact ih hrest
      · push Not at hrest
        obtain ⟨b', hb', rfl⟩ := h
        obtain rfl : b' = b :=
          (List.mem_cons.1 hb').resolve_right fun hmem => hrest b' hmem rfl
        have hget := get?_setAll_of_not_mem (t := t.set b'.1 b'.2) hrest
        rw [get?_set, if_pos rfl] at hget
        exact ⟨b'.2, hget⟩

/-- What a name is bound to stands in the list, or was there before. -/
theorem mem_of_get?_setAll {t : Table α} {bs : List (String × α)} {x : String} {v : α}
    (h : (t.setAll bs).get? x = some v) : (x, v) ∈ bs ∨ t.get? x = some v := by
  induction bs generalizing t with
  | nil => exact .inr h
  | cons b bs ih =>
      rcases ih (t := t.set b.1 b.2) h with hmem | hget
      · exact .inl (List.mem_cons_of_mem b hmem)
      · rw [get?_set] at hget
        split at hget
        · rename_i hx
          cases hget
          exact .inl (by rw [hx]; exact List.mem_cons_self)
        · exact .inr hget

end Table

/-! Names of controls -/

theorem toString_injective {i j : Nat} (h : toString i = toString j) : i = j := by
  have hlist : Nat.toDigits 10 i = Nat.toDigits 10 j := by
    have := congrArg String.toList h
    simpa [Nat.toString_eq_ofList_toDigits] using this
  have hi := Nat.ofDigitChars_toDigits (b := 10) (n := i) (by decide) (by decide)
  rw [hlist, Nat.ofDigitChars_toDigits (by decide) (by decide)] at hi
  exact hi.symm

theorem controlName_injective {i j : Nat} (h : controlName i = controlName j) : i = j := by
  unfold controlName at h
  exact toString_injective (String.append_right_inj controlStem |>.1 h)

/-- A name that control qubits may be bound under. -/
def IsControlName (x : String) : Prop := controlStem.toList <+: x.toList

theorem isControlName_controlName (i : Nat) : IsControlName (controlName i) := by
  rw [IsControlName, controlName, String.toList_append]
  exact List.prefix_append _ _

def controlBindings (controls : List QubitId) : List (String × List QubitId) :=
  controls.zipIdx.map fun (q, i) => (controlName i, [q])

theorem get?_setAll_controls {t : Table (List QubitId)} {controls : List QubitId} {k i : Nat}
    {q : QubitId} (h : controls[i]? = some q) :
    (t.setAll ((controls.zipIdx k).map fun (q, i) => (controlName i, [q]))).get?
      (controlName (k + i)) = some [q] := by
  induction controls generalizing t k i with
  | nil => simp at h
  | cons c cs ih =>
      rw [List.zipIdx_cons, List.map_cons, Table.setAll, List.foldl_cons]
      cases i with
      | zero =>
          obtain rfl : c = q := by simpa using h
          have hlater : ∀ b ∈ (cs.zipIdx (k + 1)).map (fun (q, i) => (controlName i, [q])),
              b.1 ≠ controlName (k + 0) := by
            intro b hb hname
            obtain ⟨⟨q', j⟩, hmem, rfl⟩ := List.mem_map.1 hb
            have hj := List.le_snd_of_mem_zipIdx hmem
            have := controlName_injective hname
            omega
          have hget := Table.get?_setAll_of_not_mem (t := t.set (controlName k) [c]) hlater
          rw [Table.setAll] at hget
          rw [hget, Table.get?_set]
          exact if_pos rfl
      | succ i =>
          have hrest := @ih (t.set (controlName k) [c]) (k + 1) i (by simpa using h)
          rw [Table.setAll] at hrest
          rw [show k + (i + 1) = k + 1 + i by omega]
          exact hrest

theorem get?_controlBindings {controls : List QubitId} {i : Nat} {q : QubitId}
    (h : controls[i]? = some q) :
    (Table.empty.setAll (controlBindings controls)).get? (controlName i) = some [q] := by
  have := get?_setAll_controls (t := Table.empty) (k := 0) h
  rwa [Nat.zero_add] at this

theorem name_of_mem_controlBindings {controls : List QubitId} {b : String × List QubitId}
    (h : b ∈ controlBindings controls) :
    ∃ i q, controls[i]? = some q ∧ b = (controlName i, [q]) := by
  obtain ⟨⟨q, i⟩, hmem, rfl⟩ := List.mem_map.1 h
  exact ⟨i, q, by simpa [List.mk_mem_zipIdx_iff_getElem?] using hmem, rfl⟩

namespace Scope

variable {R : Type} [Scalar R]

omit [Scalar R] in
theorem foldl_addQubits (s : Scope R) (bs : List (String × List QubitId)) :
    bs.foldl (fun t b => t.addQubits b.1 b.2) s = { s with qubits := s.qubits.setAll bs } := by
  induction bs generalizing s with
  | nil => rfl
  | cons b bs ih => exact ih (s.addQubits b.1 b.2)

omit [Scalar R] in
theorem foldl_setConst (s : Scope R) (bs : List (String × Const R)) :
    bs.foldl (fun t b => t.setConst b.1 b.2) s =
      { s with scalars := s.scalars.setAll (bs.map fun b => (b.1, ⟨b.2, false⟩)) } := by
  induction bs generalizing s with
  | nil => rfl
  | cons b bs ih => exact ih (s.setConst b.1 b.2)

omit [Scalar R] in
/-- What the body of a gate can refer to. -/
theorem gateScope_eq (s : Scope R) (gate : GateDef) (call : Call) (controls : List QubitId)
    (targets : List (List QubitId)) (params : List (Const R)) :
    s.gateScope gate call controls targets params =
      { s.enclosed gate.name call.modifiers with
        qubits := (Table.empty.setAll (controlBindings controls)).setAll (gate.qargs.zip targets)
        scalars := Table.empty.setAll ((gate.params.zip params).map fun b => (b.1, ⟨b.2, false⟩)) } := by
  have hcontrols : controls.zipIdx.foldl
      (fun t (q, i) => t.addQubits (controlName i) [q]) (s.enclosed gate.name call.modifiers) =
      (controlBindings controls).foldl (fun t b => t.addQubits b.1 b.2)
        (s.enclosed gate.name call.modifiers) := by
    rw [controlBindings, List.foldl_map]
  rw [gateScope, hcontrols]
  dsimp only
  rw [foldl_addQubits, foldl_addQubits, foldl_setConst]
  rfl

omit [Scalar R] in
/-- A control qubit is found under its name, unless a formal of the gate hides it. -/
theorem get?_gateScope_control {s : Scope R} {gate : GateDef} {call : Call}
    {controls : List QubitId} {targets : List (List QubitId)} {params : List (Const R)} {i : Nat}
    {q : QubitId} (hq : controls[i]? = some q) (hi : controlName i ∉ gate.qargs) :
    (s.gateScope gate call controls targets params).qubits.get? (controlName i) = some [q] := by
  have hformals : ∀ b ∈ gate.qargs.zip targets, b.1 ≠ controlName i := by
    intro b hb hname
    rw [← hname] at hi
    exact hi (List.of_mem_zip hb).1
  rw [gateScope_eq]
  exact (Table.get?_setAll_of_not_mem hformals).trans (get?_controlBindings hq)

omit [Scalar R] in
/-- Distinct formals stand for the arguments of the call. -/
theorem forall2_gateScope_qubits {gate : GateDef} (hformals : gate.qargs.Nodup)
    {targets : List (List QubitId)} (hlen : targets.length = gate.qargs.length) (s : Scope R)
    (call : Call) (controls : List QubitId) (params : List (Const R)) :
    List.Forall₂
      (fun x v => (s.gateScope gate call controls targets params).qubits.get? x = some v)
      gate.qargs targets := by
  rw [gateScope_eq]
  exact Table.forall2_setAll_zip hformals hlen

omit [Scalar R] in
theorem forall2_gateScope_scalars {gate : GateDef} (hformals : gate.params.Nodup)
    {params : List (Const R)} (hlen : params.length = gate.params.length) (s : Scope R)
    (call : Call) (controls : List QubitId) (targets : List (List QubitId)) :
    List.Forall₂
      (fun x c => (s.gateScope gate call controls targets params).scalars.get? x =
        some ⟨c, false⟩) gate.params params := by
  have hbindings : (gate.params.zip params).map (fun b => (b.1, (⟨b.2, false⟩ : Binding R))) =
      gate.params.zip (params.map fun c => ⟨c, false⟩) := by
    rw [List.zip_map_right]
    rfl
  have hvalues : (params.map fun c => (⟨c, false⟩ : Binding R)).length = gate.params.length := by
    rw [List.length_map, hlen]
  have hall := Table.forall2_setAll_zip (t := Table.empty) hformals hvalues
  rw [List.forall₂_map_right_iff] at hall
  rw [gateScope_eq, hbindings]
  exact hall

/-- What a call of a gate runs: a call whose parts all resolve, its control qubits being
single ones. -/
structure Prepared (s : Scope R) (gate : GateDef) (call : Call) (inner : Scope R)
    (body : Block) where
  params : List (Const R)
  modifiers : List Applied
  controls : List QubitId
  targets : List (List QubitId)
  fold_params : call.params.mapM s.fold = .ok params
  length_params : call.params.length = gate.params.length
  applied : s.applied call.modifiers call.qargs = .ok modifiers
  args : modifiers.flatMap Applied.args = controls.map fun q => [q]
  counts : ∀ a ∈ modifiers, a.Counted
  resolved : call.qargs.mapM s.qubitsOf = .ok (controls.map (fun q => [q]) ++ targets)
  length_targets : targets.length = gate.qargs.length
  scope_eq : inner = s.gateScope gate call controls targets params
  body_eq : body = (Block.turned modifiers gate.body).addAll (Applied.groups 0 modifiers)

omit [Scalar R] in
theorem foldl_controls (counted : List (Modifier × Nat)) (n : Nat) :
    counted.foldl (fun total c => total + c.snd) n = n + totalControls counted := by
  induction counted generalizing n with
  | nil => rfl
  | cons c counted ih =>
      rw [List.foldl_cons, ih, Nat.add_assoc]
      rfl

omit [Scalar R] in
theorem checkExpansion_ok_iff {gate : GateDef} {controls : Nat} {body : Block} :
    gate.checkExpansion controls body = .ok () ↔
      controls + gate.qargs.length < Nat.pow 2 64 ∧ body.length < Nat.pow 2 63 := by
  unfold GateDef.checkExpansion
  split
  · rename_i hfits
    exact iff_of_true rfl hfits
  · rename_i hlarge
    exact iff_of_false nofun hlarge

/-- A call that is prepared is of a size that memory holds, so its counts are not cut off. -/
theorem prepareGate_ok {s : Scope R} {config : Config} {gate : GateDef} {call : Call}
    {inner : Scope R} {body : Block} (h : s.prepareGate config gate call = .ok (inner, body)) :
    Nonempty (s.Prepared gate call inner body) ∧ body.length < Nat.pow 2 63 := by
  unfold prepareGate at h
  split at h
  · cases h
  rename_i hparams
  obtain ⟨params, hfold, h⟩ := bind_ok_iff.1 h
  obtain ⟨counted, hcounted, h⟩ := bind_ok_iff.1 h
  dsimp only at h
  split at h
  · cases h
  rename_i hlen
  obtain ⟨controls, hcontrols, h⟩ := bind_ok_iff.1 h
  obtain ⟨targets, htargets, h⟩ := bind_ok_iff.1 h
  obtain ⟨body', hbody, h⟩ := bind_ok_iff.1 h
  obtain ⟨⟨⟩, hfits, h⟩ := bind_ok_iff.1 h
  cases h
  rw [foldl_controls, Nat.zero_add] at hlen hcontrols htargets hfits
  obtain ⟨hnames, hshort⟩ := checkExpansion_ok_iff.1 hfits
  have htotal : totalControls counted < Nat.pow 2 64 :=
    Nat.lt_of_le_of_lt (Nat.le_add_right _ _) hnames
  rw [wordOf_of_lt htotal] at hlen hcontrols htargets
  rw [wordOf_of_lt hnames] at hlen
  push Not at hparams hlen
  obtain ⟨as, has, hargs, hcounts, hshape⟩ :=
    applied_of_modifyBody hcounted (by omega) hcontrols hbody
  refine ⟨⟨params, as, controls, targets, hfold, hparams, has, hargs, hcounts, ?_, ?_, rfl,
    hshape⟩, hshort⟩
  · have hall := mapM_append_ok_iff.2
      ⟨_, _, mapM_singleQubit_ok_iff.1 hcontrols, htargets, rfl⟩
    rwa [List.take_append_drop] at hall
  · rw [length_of_mapM htargets, List.length_drop]
    omega

/-- A call of a gate succeeds if it is let in, its parts resolve and its body runs. -/
theorem ran_callGate {B : Type} [Backend R B] {config : Config}
    {deeper : Option (BodyRunner R B)} {s : Scope R} {gate : GateDef} {call : Call}
    {m m' : Machine R B} {v : Value R} :
    Run.callGate config deeper s gate call m = (.ok v, m') ↔ v = .none ∧
      ∃ run inner body ended, s.enter config deeper gate.name = .ok run ∧
        s.prepareGate config gate call = .ok (inner, body) ∧
        run inner body m = (.ok ended, m') := by
  unfold Run.callGate
  constructor
  · intro h
    obtain ⟨run, _, henter, h⟩ := ran_bind.1 h
    obtain ⟨hrun, rfl⟩ := ran_lift.1 henter
    obtain ⟨⟨inner, body⟩, _, hprepare, h⟩ := ran_bind.1 h
    obtain ⟨hprepared, rfl⟩ := ran_lift.1 hprepare
    obtain ⟨ended, m₁, hbody, hpure⟩ := ran_bind.1 h
    obtain ⟨rfl, rfl⟩ := ran_pure.1 hpure
    exact ⟨rfl, run, inner, body, ended, hrun, hprepared, hbody⟩
  · rintro ⟨rfl, run, inner, body, ended, hrun, hprepared, hbody⟩
    refine ran_bind.2 ⟨run, m, ran_lift.2 ⟨hrun, rfl⟩, ?_⟩
    refine ran_bind.2 ⟨(inner, body), m, ran_lift.2 ⟨hprepared, rfl⟩, ?_⟩
    exact ran_bind.2 ⟨ended, m', hbody, rfl⟩

/-- A statement that calls a gate keeps the scope and has no value. -/
theorem ran_call {B : Type} [Backend R B] {config : Config} {run : BodyRunner R B} {s s' : Scope R}
    {name : String} {gate : GateDef} (hname : s.gates.get? name = some gate) {ms : List Modifier}
    {ps qs : List Expr} {m m' : Machine R B} {flow : Flow R}
    (h : Exec.stmt config (some run) (.expr (.call name ms ps qs)) (s, m) =
      (.ok flow, (s', m'))) :
    s' = s ∧ flow = Exec.done ∧ ∃ inner body ended, gate.name ∉ s.chain ∧
      s.prepareGate config gate ⟨name, ms, ps, qs⟩ = .ok (inner, body) ∧
      run inner body m = (.ok ended, m') := by
  rw [Exec.stmt] at h
  obtain ⟨v, ⟨s₁, m₁⟩, hrun, hdone⟩ := ran_bind.1 h
  cases hdone
  obtain ⟨rfl, hrun⟩ := Exec.ran_ofRun.1 hrun
  rw [Run.value, hname] at hrun
  obtain ⟨rfl, run', inner, body, ended, henter, hprepared, hbody⟩ := ran_callGate.1 hrun
  refine ⟨rfl, rfl, inner, body, ended, ?_⟩
  unfold enter at henter
  split at henter
  · cases henter
  · rename_i hchain
    cases henter
    exact ⟨hchain, hprepared, hbody⟩

/-- A body is run as its statements are, with whatever depth is left. -/
theorem ran_runBody {B : Type} [Backend R B] {config : Config} {n : Nat} {s : Scope R}
    {body : Block} {m m' : Machine R B} {ended : Scope R × Flow R}
    (h : runBody config n s body m = (.ok ended, m')) :
    ∃ deeper, Exec.stmts config deeper body (s, m) = (.ok ended.2, (ended.1, m')) := by
  cases n with
  | zero => exact ⟨none, Exec.ran_within.1 h⟩
  | succ n => exact ⟨some (runBody config n), Exec.ran_within.1 h⟩

/-! Controls handed down -/

theorem qubitsOf_ident {s : Scope R} {x : String} {qs : List QubitId}
    (h : s.qubits.get? x = some qs) : s.qubitsOf (.ident x) = .ok qs := by
  simp [qubitsOf, reference, RegisterTable.select, h]

theorem mapM_controlNames {s : Scope R} {start : Nat} {args : List (List QubitId)}
    (h : ∀ i arg, args[i]? = some arg → s.qubits.get? (controlName (start + i)) = some arg) :
    (controlNames start args.length).mapM s.qubitsOf = .ok args := by
  induction args generalizing start with
  | nil => rfl
  | cons arg args ih =>
      have hnames : controlNames start (args.length + 1) =
          .ident (controlName start) :: controlNames (start + 1) args.length := by
        rw [controlNames, List.range_succ_eq_map, List.map_cons, List.map_map]
        refine congrArg _ (List.map_congr_left fun i _ => ?_)
        rw [Function.comp_apply, Nat.succ_eq_add_one, Nat.add_comm i, Nat.add_assoc]
      rw [List.length_cons, hnames]
      refine mapM_cons_ok_iff.2 ⟨arg, args, qubitsOf_ident (h 0 arg rfl), ih ?_, rfl⟩
      intro i arg' harg
      have := h (i + 1) arg' (by simpa using harg)
      rwa [Nat.add_comm i, ← Nat.add_assoc] at this

theorem length_controlNames (start n : Nat) : (controlNames start n).length = n := by
  simp [controlNames]

/-- A modifier that was handed down, in front of the names of its control qubits. -/
theorem resolveModifier_controlNames {s : Scope R} {on : Bool} {args : List (List QubitId)}
    (start : Nat) (hcounted : (Applied.control on args).Counted)
    (hbound : ∀ i arg, args[i]? = some arg →
      s.qubits.get? (controlName (start + i)) = some arg) (qs : List Expr) :
    s.resolveModifier (controlModifier (if on then .ctrl else .negctrl) args.length)
      (controlNames start args.length ++ qs) = .ok (.control on args) := by
  have hkind : (controlModifier (if on then .ctrl else .negctrl) args.length).isControl = true := by
    cases on <;> rfl
  refine (resolveModifier_control hkind).2 ⟨args.length, args, ?_, ?_, ?_⟩
  · exact controlCount_controlModifier s _ hcounted.1 hcounted.2
  · rw [List.take_left' (length_controlNames start args.length)]
    exact mapM_controlNames hbound
  · cases on <;> rfl

/-- Controls that were handed down under their names resolve to what they are. -/
theorem applied_groups {s : Scope R} {as : List Applied} {start : Nat}
    (hcounted : ∀ a ∈ as, a.Counted)
    (hbound : ∀ i arg, (as.flatMap Applied.args)[i]? = some arg →
      s.qubits.get? (controlName (start + i)) = some arg)
    {ms : List Modifier} {qs : List Expr} {bs : List Applied} :
    s.applied ((Applied.groups start as).map Prod.fst ++ ms)
      ((Applied.groups start as).flatMap Prod.snd ++ qs) = .ok bs ↔
    ∃ bs', s.applied ms qs = .ok bs' ∧ bs = as.filter Applied.isControl ++ bs' := by
  induction as generalizing start bs with
  | nil => simp [Applied.groups]
  | cons a as ih =>
      have hrest := fun a ha => hcounted a (List.mem_cons_of_mem _ ha)
      cases a with
      | inverse => exact ih hrest hbound
      | power k => exact ih hrest hbound
      | control on args =>
          have hfirst := resolveModifier_controlNames (s := s) start
            (hcounted _ List.mem_cons_self) (by
              intro i arg harg
              refine hbound i arg ?_
              rw [List.flatMap_cons, Applied.args,
                List.getElem?_append_left (List.getElem?_eq_some_iff.1 harg).1]
              exact harg)
          have hlater := @ih (start + args.length) hrest (by
            intro i arg harg
            rw [Nat.add_assoc]
            refine hbound (args.length + i) arg ?_
            simpa [Applied.args, List.getElem?_append_right] using harg)
          simp only [Applied.groups, List.map_cons, List.flatMap_cons, List.cons_append,
            List.append_assoc, applied_cons_ok_iff, hfirst, Except.ok.injEq]
          have hdrop : ∀ rest : List Expr,
              (controlNames start args.length ++ rest).drop args.length = rest :=
            fun rest => List.drop_left' (length_controlNames start args.length)
          constructor
          · rintro ⟨a, as', rfl, has', rfl⟩
            rw [Applied.args, hdrop, hlater] at has'
            obtain ⟨bs', hbs', rfl⟩ := has'
            exact ⟨bs', hbs', rfl⟩
          · rintro ⟨bs', hbs', rfl⟩
            refine ⟨_, as.filter Applied.isControl ++ bs', rfl, ?_, rfl⟩
            rw [Applied.args, hdrop, hlater]
            exact ⟨bs', hbs', rfl⟩

end Scope

end OpenQasm
