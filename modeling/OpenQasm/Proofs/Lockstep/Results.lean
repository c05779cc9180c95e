import OpenQasm.Proofs.Modifiers.Leaves
import OpenQasm.Proofs.Modifiers.GateScope

/-!
# What scopes answer

Everything that is looked up or folded in a scope, and everything that is resolved there
before the backend is asked, ends in one of two ways. It fails with an error of its own,
never with the backend's complaint about the number of a qubit; or it succeeds, and then
every qubit in the answer is one of the scope.
-/
namespace OpenQasm

/-- A result that is a value of one kind or an error of another. -/
def Ends {ε α : Type} (E : ε → Prop) (Q : α → Prop) : Except ε α → Prop
  | .ok a => Q a
  | .error e => E e

namespace Ends

variable {ε α β : Type} {E : ε → Prop} {Q : α → Prop} {S : β → Prop}

theorem mono {Q' : α → Prop} {x : Except ε α} (h : Ends E Q x) (hQ : ∀ a, Q a → Q' a) :
    Ends E Q' x := by
  cases x with
  | error e => exact h
  | ok a => exact hQ a h

theorem weaken {E' : ε → Prop} {x : Except ε α} (h : Ends E Q x) (hE : ∀ e, E e → E' e) :
    Ends E' Q x := by
  cases x with
  | error e => exact hE e h
  | ok a => exact h

theorem of_ok {x : Except ε α} (h : Ends E Q x) {a : α} (ha : x = .ok a) : Q a := by
  subst ha
  exact h

theorem of_error {x : Except ε α} (h : Ends E Q x) {e : ε} (he : x = .error e) : E e := by
  subst he
  exact h

/-- What follows from success alone. -/
theorem and_of_ok {x : Except ε α} (h : Ends E (fun _ => True) x) (hQ : ∀ a, x = .ok a → Q a) :
    Ends E Q x := by
  cases x with
  | error e => exact h
  | ok a => exact hQ a rfl

theorem bind {x : Except ε α} {f : α → Except ε β} (hx : Ends E Q x)
    (hf : ∀ a, Q a → Ends E S (f a)) : Ends E S (x >>= f) := by
  cases x with
  | error e => exact hx
  | ok a => exact hf a hx

theorem map {x : Except ε α} {f : α → β} (hx : Ends E Q x) (hf : ∀ a, Q a → S (f a)) :
    Ends E S (x.map f) := by
  cases x with
  | error e => exact hx
  | ok a => exact hf a hx

theorem ite {c : Prop} [Decidable c] {x y : Except ε α} (hx : c → Ends E Q x)
    (hy : ¬c → Ends E Q y) : Ends E Q (if c then x else y) := by
  by_cases hc : c
  · rw [if_pos hc]
    exact hx hc
  · rw [if_neg hc]
    exact hy hc

theorem mapM {f : α → Except ε β} {as : List α} (h : ∀ a ∈ as, Ends E S (f a)) :
    Ends E (fun bs => ∀ b ∈ bs, S b) (as.mapM f) := by
  induction as with
  | nil => exact fun b hb => absurd hb List.not_mem_nil
  | cons a as ih =>
      rw [List.mapM_cons]
      refine bind (h a List.mem_cons_self) fun b hb => ?_
      refine bind (ih fun a' ha' => h a' (List.mem_cons_of_mem a ha')) fun bs hbs => ?_
      exact List.forall_mem_cons.2 ⟨hb, hbs⟩

theorem foldlM {f : α → β → Except ε α} {bs : List β} {a : α} (ha : Q a)
    (h : ∀ a, Q a → ∀ b ∈ bs, Ends E Q (f a b)) : Ends E Q (bs.foldlM f a) := by
  induction bs generalizing a with
  | nil => exact ha
  | cons b bs ih =>
      rw [List.foldlM_cons]
      refine bind (h a ha b List.mem_cons_self) fun a' ha' => ?_
      exact ih ha' fun a₁ ha₁ b' hb' => h a₁ ha₁ b' (List.mem_cons_of_mem b hb')

end Ends

/-- An error that is not about the number of a qubit. -/
def EvalError.Ordinary : EvalError → Prop
  | .backend (.unknownQubit _) => False
  | .inStatement source _ => source.Ordinary
  | _ => True

/-- An error that looking something up in a scope can end in. It is about no statement, and
about a missing exponent only if `P` holds. -/
def EvalError.Answer (P : Prop) : EvalError → Prop
  | .backend (.unknownQubit _) => False
  | .invalidModifier .missingExponent => P
  | .noEffect _ => False
  | .inStatement _ _ => False
  | _ => True

theorem EvalError.Answer.ordinary {P : Prop} {e : EvalError} (h : e.Answer P) : e.Ordinary := by
  cases e with
  | backend error =>
      cases error with
      | unknownQubit q => exact h
      | _ => trivial
  | inStatement source text => exact absurd h id
  | _ => trivial

/-- A result that is a value of any kind or an answer. -/
abbrev Plain (P : Prop) {α : Type} (x : Except EvalError α) : Prop :=
  Ends (EvalError.Answer P) (fun _ => True) x

/-- A modifier has the argument that its kind needs. -/
def Modifier.Complete (m : Modifier) : Prop := m.kind = .pow → m.arg ≠ none

variable {P : Prop}

/-! Constants and values -/

section Constants

variable {R : Type} [Scalar R]

theorem plain_foldInt (a : Int64) (op : BinaryOp) (b : Int64) : Plain P (foldInt a op b) := by
  unfold foldInt
  cases op with
  | add | sub | mul =>
      dsimp only
      split <;> trivial
  | div =>
      refine .ite (fun _ => trivial) fun _ => ?_
      dsimp only
      split <;> trivial
  | mod =>
      refine .ite (fun _ => trivial) fun _ => ?_
      dsimp only
      cases int64? (a.toInt.tdiv b.toInt) with
      | none => trivial
      | some r =>
          dsimp only
          split <;> trivial

namespace Const

theorem plain_binary (op : BinaryOp) (a b : Const R) : Plain P (binary op a b) := by
  cases a with
  | int a =>
      cases b with
      | int b => exact (plain_foldInt a op b).map fun _ _ => trivial
      | float b => trivial
      | string b => trivial
  | float a => cases b <;> trivial
  | string a => cases b <;> trivial

omit [Scalar R] in
theorem plain_toInt (c : Const R) : Plain P c.toInt := by
  cases c <;> trivial

theorem plain_toReal (c : Const R) : Plain P c.toReal := by
  cases c <;> trivial

theorem plain_unary (op : UnaryOp) (c : Const R) : Plain P (unary op c) := by
  cases c with
  | int v =>
      cases op with
      | pos => trivial
      | neg =>
          rw [unary]
          split <;> trivial
  | float v => cases op <;> trivial
  | string s => trivial

theorem plain_coerce (kind : TypeKind) (c : Const R) : Plain P (coerce kind c) := by
  unfold coerce
  split
  any_goals trivial
  exact .ite (fun _ => trivial) fun _ => trivial

theorem plain_ofLiteral (l : Literal) : Plain P (ofLiteral l : Except EvalError (Const R)) := by
  unfold ofLiteral
  split
  · split <;> trivial
  · split <;> trivial
  · trivial

end Const

omit [Scalar R] in
theorem Value.plain_toBits (len : Nat) (v : Value R) : Plain P (v.toBits len) := by
  unfold toBits
  split
  · exact .ite (fun _ => trivial) fun _ => trivial
  · exact .ite (fun _ => trivial) fun _ => trivial
  · trivial

omit [Scalar R] in
theorem Value.plain_toConst (v : Value R) : Plain P v.toConst := by
  cases v with
  | none => trivial
  | const c => trivial
  | bits bs => exact .ite (fun _ => trivial) fun _ => trivial

end Constants

/-! Registers -/

namespace RegisterTable

variable {α : Type}

theorem mem_all_of_mem {t : RegisterTable α} {r : String × List α} (hr : r ∈ t.entries) {a : α}
    (ha : a ∈ r.2) : a ∈ t.all :=
  List.mem_flatMap.2 ⟨r, hr, ha⟩

theorem mem_entries_of_get? {t : RegisterTable α} {name : String} {as : List α}
    (h : t.get? name = some as) : (name, as) ∈ t.entries := by
  obtain ⟨before, after, hentries, -⟩ := List.lookup_eq_some_iff.1 h
  rw [hentries]
  exact List.mem_append_right _ List.mem_cons_self

/-- What is found under a name is in the table. -/
theorem ends_select (t : RegisterTable α) (name : String) (index : Option Int64) :
    Ends (EvalError.Answer P) (· ⊆ t.all) (t.select name index) := by
  unfold select
  split
  · trivial
  · rename_i register hget
    have hall : register ⊆ t.all := fun a ha => mem_all_of_mem (mem_entries_of_get? hget) ha
    split
    · exact hall
    · split
      · rename_i a ha
        obtain ⟨k, -, hk⟩ := Option.bind_eq_some_iff.1 ha
        exact List.cons_subset.2 ⟨hall (List.mem_of_getElem? hk), List.nil_subset _⟩
      · trivial

/-- A table holds what it held before and what was bound. -/
theorem all_set_subset (t : RegisterTable α) (name : String) (as : List α) :
    RegisterTable.all (Table.set t name as) ⊆ as ++ t.all := by
  intro a ha
  obtain ⟨r, hr, har⟩ := List.mem_flatMap.1 ha
  unfold Table.set at hr
  split at hr
  · obtain ⟨r', hr', rfl⟩ := List.mem_map.1 hr
    dsimp only at har
    split at har
    · exact List.mem_append_left _ har
    · exact List.mem_append_right _ (mem_all_of_mem hr' har)
  · rcases List.mem_append.1 hr with hr | hr
    · exact List.mem_append_right _ (mem_all_of_mem hr har)
    · rw [List.mem_singleton.1 hr] at har
      exact List.mem_append_left _ har

theorem all_setAll_subset (t : RegisterTable α) (bs : List (String × List α)) :
    RegisterTable.all (Table.setAll t bs) ⊆ bs.flatMap Prod.snd ++ t.all := by
  induction bs generalizing t with
  | nil => exact List.Subset.refl _
  | cons b bs ih =>
      intro a ha
      rcases List.mem_append.1 (ih (Table.set t b.1 b.2) ha) with ha | ha
      · rw [List.flatMap_cons, List.append_assoc]
        exact List.mem_append_right _ (List.mem_append_left _ ha)
      · rcases List.mem_append.1 (all_set_subset t b.1 b.2 ha) with ha | ha
        · rw [List.flatMap_cons, List.append_assoc]
          exact List.mem_append_left _ ha
        · exact List.mem_append_right _ ha

end RegisterTable

namespace Scope

variable {R : Type} [Scalar R] (s : Scope R)

theorem plain_fold (e : Expr) : Plain P (s.fold e) := by
  fun_induction fold s e with
  | case1 l => exact Const.plain_ofLiteral l
  | case2 name c => trivial
  | case3 name _ _ =>
      exact (RegisterTable.ends_select _ _ _).bind fun bs _ => Value.plain_toConst _
  | case4 => trivial
  | case5 name i ih =>
      refine ih.bind fun c _ => (Const.plain_toInt c).bind fun k _ => ?_
      exact (RegisterTable.ends_select _ _ _).bind fun bs _ => Value.plain_toConst _
  | case6 op l r ihl ihr =>
      exact ihl.bind fun a _ => ihr.bind fun b _ => Const.plain_binary op a b
  | case7 op e ih => exact ih.bind fun c _ => Const.plain_unary op c
  | case8 e ih => exact ih
  | case9 => trivial
  | case10 => trivial

theorem plain_reference (e : Expr) : Plain P (s.reference e) := by
  unfold reference
  split
  · trivial
  · exact (s.plain_fold _).bind fun c _ => (Const.plain_toInt c).bind fun _ _ => trivial
  · trivial

/-- An argument refers to qubits of the scope. -/
theorem ends_qubitsOf (e : Expr) : Ends (EvalError.Answer P) (· ⊆ s.qubits.all) (s.qubitsOf e) :=
  (s.plain_reference e).bind fun _ _ => RegisterTable.ends_select _ _ _

theorem plain_bitsOf (e : Expr) : Plain P (s.bitsOf e) :=
  (s.plain_reference e).bind fun _ _ => (RegisterTable.ends_select _ _ _).mono fun _ _ => trivial

theorem ends_singleQubit (e : Expr) :
    Ends (EvalError.Answer P) (· ∈ s.qubits.all) (s.singleQubit e) := by
  refine (s.ends_qubitsOf e).bind fun qs hqs => ?_
  split
  · exact hqs List.mem_cons_self
  · trivial

theorem ends_flatten_qubitsOf (es : List Expr) :
    Ends (EvalError.Answer P) (fun args => args.flatten ⊆ s.qubits.all) (es.mapM s.qubitsOf) := by
  refine Ends.mono (.mapM fun e _ => s.ends_qubitsOf e) fun args hargs q hq => ?_
  obtain ⟨arg, harg, hq⟩ := List.mem_flatten.1 hq
  exact hargs arg harg hq

theorem ends_measuredQubits (qargs : List Expr) :
    Ends (EvalError.Answer P) (· ⊆ s.qubits.all) (s.measuredQubits qargs) := by
  refine .ite (fun _ => List.Subset.refl _) fun _ => ?_
  exact (s.ends_flatten_qubitsOf qargs).bind fun args hargs => hargs

omit [Scalar R] in
theorem plain_checkUnitary (what : String) : Plain P (s.checkUnitary what) := by
  unfold checkUnitary
  split <;> trivial

theorem plain_typeSize (t : TypeSpec) : Plain P (s.typeSize t) := by
  unfold typeSize
  split
  · trivial
  · refine (s.plain_fold _).bind fun c _ => (Const.plain_toInt c).bind fun v _ => ?_
    exact .ite (fun _ => trivial) fun _ => trivial

theorem plain_declaredSize (d : TypedName) : Plain P (s.declaredSize d) := by
  unfold declaredSize
  split
  · trivial
  · exact s.plain_typeSize _

/-- The scope after a change to variables, bits or definitions. -/
structure SamePlace (s s' : Scope R) : Prop where
  qubits : s'.qubits = s.qubits
  outer : s'.outer = s.outer
  chain : s'.chain = s.chain

omit [Scalar R] in
theorem ends_setVariable (name : String) (c : Const R) :
    Ends (EvalError.Answer P) s.SamePlace (s.setVariable name c) := by
  unfold setVariable
  split
  · trivial
  · exact ⟨rfl, rfl, rfl⟩

omit [Scalar R] in
theorem ends_addGate (d : GateDef) : Ends (EvalError.Answer P) s.SamePlace (s.addGate d) :=
  .ite (fun _ => ⟨rfl, rfl, rfl⟩) fun _ => trivial

omit [Scalar R] in
theorem ends_addSubroutine (d : SubroutineDef) :
    Ends (EvalError.Answer P) s.SamePlace (s.addSubroutine d) :=
  .ite (fun _ => ⟨rfl, rfl, rfl⟩) fun _ => trivial

omit [Scalar R] in
theorem plain_storeBits (name : String) (register : List Bool) (index : Option Int64)
    (v : Value R) : Plain P (storeBits name register index v) := by
  unfold storeBits
  split
  · exact Value.plain_toBits _ v
  · split
    · trivial
    · exact (Value.plain_toBits _ v).bind fun _ _ => trivial

theorem ends_assign (target : Expr) (v : Value R) :
    Ends (EvalError.Answer P) s.SamePlace (s.assign target v) := by
  refine (s.plain_reference target).bind fun p _ => ?_
  obtain ⟨name, index⟩ := p
  dsimp only
  split
  · exact (plain_storeBits _ _ _ v).bind fun _ _ => ⟨rfl, rfl, rfl⟩
  · refine .ite (fun _ => ?_) fun _ => .ite (fun _ => trivial) fun _ =>
      .ite (fun _ => trivial) fun _ => trivial
    exact (Value.plain_toConst v).bind fun c _ => s.ends_setVariable _ c

theorem plain_convertResult (d : SubroutineDef) (v : Value R) : Plain P (s.convertResult d v) := by
  unfold convertResult
  split
  · trivial
  · split
    · exact (s.plain_typeSize _).bind fun n _ => (Value.plain_toBits n v).bind fun _ _ => trivial
    · trivial
    · exact (Value.plain_toConst v).bind fun c _ =>
        (Const.plain_coerce _ c).bind fun _ _ => trivial

theorem plain_views (es : List Expr) : Plain P (s.views es) := by
  induction es with
  | nil => trivial
  | cons e es ih =>
      rw [views]
      refine (s.plain_reference e).bind fun p _ => ?_
      refine .ite (fun _ => ?_) fun _ => .ite (fun _ => ?_) fun _ => trivial
      · exact (s.ends_qubitsOf e).bind fun _ _ => ih.bind fun _ _ => trivial
      · exact (s.plain_bitsOf e).bind fun _ _ => ih.bind fun _ _ => trivial

/-! Modifiers and gates -/

theorem plain_controlCount (m : Modifier) : Plain P (s.controlCount m) := by
  unfold controlCount
  split
  · trivial
  · refine (s.plain_fold _).bind fun c _ => ?_
    split
    · exact .ite (fun _ => trivial) fun _ => trivial
    · trivial

theorem plain_exponent {m : Modifier} (hkind : m.kind = .pow) (hm : m.Complete ∨ P) :
    Plain P (s.exponent m) := by
  unfold exponent
  split
  · rename_i harg
    exact hm.resolve_left fun hcomplete => hcomplete hkind harg
  · refine (s.plain_fold _).bind fun c _ => ?_
    split <;> trivial

theorem plain_foldModifiers (folded : FoldedModifiers) {ms : List Modifier}
    (hms : ∀ m ∈ ms, m.Complete ∨ P) : Plain P (s.foldModifiers folded ms) := by
  induction ms generalizing folded with
  | nil => trivial
  | cons m ms ih =>
      obtain ⟨hm, hms⟩ := List.forall_mem_cons.1 hms
      rw [foldModifiers]
      split
      · exact (s.plain_controlCount m).bind fun _ _ => ih _ hms
      · exact (s.plain_controlCount m).bind fun _ _ => ih _ hms
      · exact ih _ hms
      · rename_i hkind
        refine (s.plain_exponent hkind hm).bind fun k _ => ?_
        split
        · exact ih _ hms
        · trivial

theorem plain_resolveModifiers {ms : List Modifier} (hms : ∀ m ∈ ms, m.Complete ∨ P) :
    Plain P (s.resolveModifiers ms) :=
  s.plain_foldModifiers _ hms

theorem plain_natural (e : Expr) : Plain P (s.natural e) := by
  refine (s.plain_fold e).bind fun c _ => (Const.plain_toInt c).bind fun v _ => ?_
  exact .ite (fun _ => trivial) fun _ => trivial

theorem plain_broadcast (args : List (List QubitId)) : Plain P (broadcast args) := by
  unfold broadcast
  dsimp only
  split <;> trivial

omit [Scalar R] in
theorem subset_flatten_of_forall₂ {qs : List QubitId} {args : List (List QubitId)}
    (h : List.Forall₂ (· ∈ ·) qs args) : qs ⊆ args.flatten := by
  induction h with
  | nil => exact List.Subset.refl _
  | cons hq _ ih =>
      rw [List.flatten_cons]
      exact List.cons_subset.2 ⟨List.mem_append_left _ hq,
        fun q hq' => List.mem_append_right _ (ih hq')⟩

theorem plain_standardOperations (gate : StandardGate) {ms : List Modifier}
    (hms : ∀ m ∈ ms, m.Complete ∨ P) (params qargs : List Expr) :
    Plain P (s.standardOperations gate ms params qargs) := by
  refine (s.plain_resolveModifiers hms).bind fun folded _ => ?_
  refine .ite (fun _ => trivial) fun _ => .ite (fun _ => trivial) fun _ => ?_
  refine Ends.bind (Q := fun _ => True) ?_ fun angles _ => ?_
  · refine Ends.mono (.mapM (S := fun _ => True) fun e _ => ?_) fun _ _ => trivial
    exact (s.plain_fold e).bind fun c _ => Const.plain_toReal c
  refine Ends.bind (Q := fun _ => True) ?_ fun base _ => ?_
  · unfold StandardGate.decompose
    split <;> trivial
  exact (s.ends_flatten_qubitsOf qargs).bind fun args _ =>
    (plain_broadcast args).bind fun _ _ => trivial

/-- A gate acts on qubits of the scope. -/
theorem ends_standardOperations (gate : StandardGate) {ms : List Modifier}
    (hms : ∀ m ∈ ms, m.Complete ∨ P) (params qargs : List Expr) :
    Ends (EvalError.Answer P) (fun ops => ∀ op ∈ ops, op.qubits ⊆ s.qubits.all)
      (s.standardOperations gate ms params qargs) := by
  refine (s.plain_standardOperations gate hms params qargs).and_of_ok fun ops hops op hop => ?_
  obtain ⟨folded, angles, args, runs, -, -, -, hargs, hruns, rfl⟩ := standardOperations_ok hops
  obtain ⟨run, hrun, rfl⟩ := List.mem_map.1 hop
  rw [qubits_operation]
  have hrunqs := subset_flatten_of_forall₂ (forall2_broadcast hruns run hrun)
  exact List.Subset.trans hrunqs ((s.ends_flatten_qubitsOf (P := P) qargs).of_ok hargs)

theorem plain_fourierCall (gate : Builtin) {ms : List Modifier}
    (hms : ∀ m ∈ ms, m.Complete ∨ P) (params qargs : List Expr) :
    Plain P (s.fourierCall gate ms params qargs) := by
  refine .ite (fun _ => ?_) fun _ => trivial
  refine (s.plain_resolveModifiers hms).bind fun folded _ => ?_
  refine .ite (fun _ => trivial) fun _ => ?_
  refine Ends.bind (.mapM fun e _ => s.ends_singleQubit e) fun controls _ => ?_
  exact (s.ends_flatten_qubitsOf _).bind fun registers _ => trivial

/-- A Fourier transform acts on qubits of the scope. -/
theorem ends_fourierCall (gate : Builtin) {ms : List Modifier}
    (hms : ∀ m ∈ ms, m.Complete ∨ P) (params qargs : List Expr) :
    Ends (EvalError.Answer P)
      (fun c => c.controls.map Control.qubit ++ c.register ⊆ s.qubits.all)
      (s.fourierCall gate ms params qargs) := by
  refine (s.plain_fourierCall gate hms params qargs).and_of_ok fun c hc => ?_
  obtain ⟨folded, qs, registers, -, -, -, hlen, hargs, hcontrols, hregister, -, -⟩ :=
    fourierCall_ok hc
  have hall := (s.ends_flatten_qubitsOf (P := P) qargs).of_ok hargs
  rw [List.flatten_append, ← List.flatMap_def, List.flatMap_singleton'] at hall
  rwa [hcontrols, hregister, map_qubit_zipWith (Nat.le_of_eq hlen)]

theorem ends_modularPowerCall (ms : List Modifier) (params qargs : List Expr) :
    Ends (EvalError.Answer P) (fun c => c.control ++ c.target ⊆ s.qubits.all)
      (s.modularPowerCall ms params qargs) := by
  unfold modularPowerCall
  cases ms with
  | cons m ms => trivial
  | nil =>
      dsimp only
      split
      · refine (s.plain_natural _).bind fun _ _ => (s.plain_natural _).bind fun _ _ => ?_
        refine (s.ends_qubitsOf _).bind fun control hcontrol => ?_
        exact (s.ends_qubitsOf _).bind fun target htarget =>
          List.append_subset.2 ⟨hcontrol, htarget⟩
      · trivial
      · trivial

/-! Scopes of bodies -/

/-- The scope of the body of a definition that is called in `s`. -/
structure Opens (s : Scope R) (name : String) (inner : Scope R) : Prop where
  chain : inner.chain = s.chain ++ [name]
  notGlobal : inner.isGlobal = false
  qubits : inner.qubits.all ⊆ s.qubits.all

namespace Opens

variable {s} {name : String} {inner : Scope R}

omit [Scalar R] in
theorem enclosed (s : Scope R) (name : String) (ms : List Modifier) :
    s.Opens name (s.enclosed name ms) :=
  ⟨rfl, rfl, List.nil_subset _⟩

omit [Scalar R] in
theorem addQubits (h : s.Opens name inner) (x : String) {qs : List QubitId}
    (hqs : qs ⊆ s.qubits.all) : s.Opens name (inner.addQubits x qs) where
  chain := h.chain
  notGlobal := h.notGlobal
  qubits := List.Subset.trans (RegisterTable.all_set_subset _ x qs)
    (List.append_subset.2 ⟨hqs, h.qubits⟩)

omit [Scalar R] in
theorem foldl_addQubits (h : s.Opens name inner) {bs : List (String × List QubitId)}
    (hbs : ∀ b ∈ bs, b.2 ⊆ s.qubits.all) :
    s.Opens name (bs.foldl (fun t b => t.addQubits b.1 b.2) inner) := by
  induction bs generalizing inner with
  | nil => exact h
  | cons b bs ih =>
      obtain ⟨hb, hbs⟩ := List.forall_mem_cons.1 hbs
      exact ih (h.addQubits b.1 hb) hbs

omit [Scalar R] in
theorem of_samePlace (h : s.Opens name inner) {inner' : Scope R} (hsame : inner.SamePlace inner') :
    s.Opens name inner' where
  chain := hsame.chain.trans h.chain
  notGlobal := by
    have houter := h.notGlobal
    rw [isGlobal] at houter ⊢
    rwa [hsame.outer]
  qubits := by
    rw [hsame.qubits]
    exact h.qubits

end Opens

theorem plain_countControls (ms : List Modifier) : Plain P (s.countControls ms) := by
  refine Ends.mono (.mapM (S := fun _ => True) fun m _ => ?_) fun _ _ => trivial
  exact .ite (fun _ => (s.plain_controlCount m).bind fun _ _ => trivial) fun _ => trivial

theorem plain_modifyBody (gate : GateDef) (limit start : Nat) {counted : List (Modifier × Nat)}
    (hcounted : ∀ c ∈ counted, c.1.Complete ∨ P) :
    Plain P (s.modifyBody gate limit start counted) := by
  induction counted generalizing start with
  | nil => trivial
  | cons c counted ih =>
      obtain ⟨hc, hcounted⟩ := List.forall_mem_cons.1 hcounted
      rw [modifyBody]
      refine (ih _ hcounted).bind fun body _ => ?_
      split
      · trivial
      · rename_i hkind
        refine (s.plain_exponent hkind hc).bind fun k _ => ?_
        exact .ite (fun _ => trivial) fun _ => trivial
      · trivial

theorem plain_prepareGate (config : Config) (gate : GateDef) {call : Call}
    (hms : ∀ m ∈ call.modifiers, m.Complete ∨ P) : Plain P (s.prepareGate config gate call) := by
  refine .ite (fun _ => trivial) fun _ => ?_
  refine Ends.bind (.mapM fun e _ => s.plain_fold e) fun params _ => ?_
  refine Ends.bind (Q := fun counted => ∀ c ∈ counted, c.1 ∈ call.modifiers)
    ((s.plain_countControls _).and_of_ok fun counted => mem_of_countControls)
    fun counted hcounted => .ite (fun _ => trivial) fun _ => ?_
  refine Ends.bind (.mapM fun e _ => s.ends_singleQubit e) fun controls _ => ?_
  refine (s.ends_flatten_qubitsOf _).bind fun targets _ => ?_
  refine (s.plain_modifyBody gate _ 0 fun c hc => hms c.1 (hcounted c hc)).bind fun body _ => ?_
  refine Ends.bind (Q := fun _ => True) ?_ fun _ _ => trivial
  exact .ite (fun _ => trivial) fun _ => trivial

/-- A gate's body runs on qubits of the caller. -/
theorem ends_prepareGate (config : Config) (gate : GateDef) {call : Call}
    (hms : ∀ m ∈ call.modifiers, m.Complete ∨ P) :
    Ends (EvalError.Answer P) (fun p => s.Opens gate.name p.1) (s.prepareGate config gate call) := by
  refine (s.plain_prepareGate config gate hms).and_of_ok fun p hp => ?_
  obtain ⟨inner, body⟩ := p
  obtain ⟨⟨prepared⟩, -⟩ := prepareGate_ok hp
  have hall := (s.ends_flatten_qubitsOf (P := P) call.qargs).of_ok prepared.resolved
  rw [List.flatten_append, ← List.flatMap_def, List.flatMap_singleton'] at hall
  obtain ⟨hcontrols, htargets⟩ := List.append_subset.1 hall
  rw [prepared.scope_eq, gateScope_eq]
  refine ⟨rfl, rfl, ?_⟩
  refine List.Subset.trans (RegisterTable.all_setAll_subset _ _) (List.append_subset.2 ⟨?_, ?_⟩)
  · intro q hq
    obtain ⟨b, hb, hq⟩ := List.mem_flatMap.1 hq
    exact htargets (List.mem_flatten.2 ⟨b.2, (List.of_mem_zip hb).2, hq⟩)
  · refine List.Subset.trans (RegisterTable.all_setAll_subset _ _) fun q hq => ?_
    rcases List.mem_append.1 hq with hq | hq
    · obtain ⟨b, hb, hq⟩ := List.mem_flatMap.1 hq
      obtain ⟨i, q', hi, rfl⟩ := name_of_mem_controlBindings hb
      rw [List.mem_singleton.1 hq]
      exact hcontrols (List.mem_of_getElem? hi)
    · cases hq

end Scope

/-- An argument whose qubits are among given ones. -/
def Arg.Within {R : Type} (qs : List QubitId) : Arg R → Prop
  | .qubits qs' => qs' ⊆ qs
  | _ => True

namespace Scope

variable {R : Type} [Scalar R] {s : Scope R}

omit [Scalar R] in
theorem Opens.ends_bindArg {name : String} {inner : Scope R} (h : s.Opens name inner)
    (x : String) {arg : Arg R} (harg : arg.Within s.qubits.all) :
    Ends (EvalError.Answer P) (s.Opens name) (inner.bindArg x arg) := by
  cases arg with
  | qubits qs => exact h.addQubits x harg
  | bits bs => exact h.of_samePlace ⟨rfl, rfl, rfl⟩
  | scalar c => exact (inner.ends_setVariable x c).mono fun _ hsame => h.of_samePlace hsame

/-- A subroutine's body runs on qubits of the caller. -/
theorem ends_subroutineScope (d : SubroutineDef) {args : List (Arg R)}
    (hargs : ∀ arg ∈ args, arg.Within s.qubits.all) (qargs : List Expr) :
    Ends (EvalError.Answer P) (s.Opens d.name) (s.subroutineScope d args qargs) := by
  refine (s.ends_flatten_qubitsOf qargs).bind fun qubits hqubits => ?_
  dsimp only
  refine Ends.bind (.foldlM (Opens.enclosed s d.name []) fun t ht b hb => ?_) fun t ht => ?_
  · obtain ⟨p, arg⟩ := b
    exact ht.ends_bindArg p.name (hargs arg (List.of_mem_zip hb).2)
  · refine ht.foldl_addQubits fun b hb q hq => ?_
    exact hqubits (List.mem_flatten.2 ⟨b.2, (List.of_mem_zip hb).2, hq⟩)

end Scope

/-! The Fourier transform -/

namespace Fourier

variable {R : Type} [Scalar R] {controls : List Control} {op : Operation (Amplitude R)}

theorem qubits_of_mem_phaseSteps {target : QubitId} {distance : Nat} {qs : List QubitId}
    (h : op ∈ phaseSteps controls target distance qs) :
    op.qubits ⊆ controls.map Control.qubit ++ target :: qs := by
  induction qs generalizing distance with
  | nil => cases h
  | cons q qs ih =>
      rcases List.mem_cons.1 h with rfl | h
      · simp [phaseStep, Operation.qubits]
      · intro q' hq'
        rcases List.mem_append.1 (ih h hq') with hq' | hq'
        · exact List.mem_append_left _ hq'
        · rcases List.mem_cons.1 hq' with rfl | hq'
          · exact List.mem_append_right _ List.mem_cons_self
          · exact List.mem_append_right _
              (List.mem_cons_of_mem _ (List.mem_cons_of_mem _ hq'))

theorem qubits_of_mem_rotations {qs : List QubitId} (h : op ∈ rotations controls qs) :
    op.qubits ⊆ controls.map Control.qubit ++ qs := by
  induction qs with
  | nil => cases h
  | cons q qs ih =>
      rcases List.mem_cons.1 h with rfl | h
      · simp [Operation.qubits]
      · rcases List.mem_append.1 h with h | h
        · exact qubits_of_mem_phaseSteps h
        · refine List.Subset.trans (ih h) ?_
          simp

/-- The operations of a Fourier transform act on its controls and its register. -/
theorem qubits_of_mem_operations {qs : List QubitId} (h : op ∈ operations controls qs) :
    op.qubits ⊆ controls.map Control.qubit ++ qs := by
  rcases List.mem_append.1 h with h | h
  · exact qubits_of_mem_rotations h
  · obtain ⟨⟨a, b⟩, hpair, rfl⟩ := List.mem_map.1 h
    obtain ⟨ha, hb⟩ := List.of_mem_zip (List.mem_of_mem_take hpair)
    have hb' := List.mem_reverse.1 hb
    simp [Operation.qubits, ha, hb']

theorem qubits_of_mem_inverseOperations {qs : List QubitId}
    (h : op ∈ inverseOperations controls qs) :
    op.qubits ⊆ controls.map Control.qubit ++ qs := by
  obtain ⟨op', hop', rfl⟩ := List.mem_map.1 h
  have hqubits := qubits_of_mem_operations (List.mem_reverse.1 hop')
  exact hqubits

end Fourier

end OpenQasm
