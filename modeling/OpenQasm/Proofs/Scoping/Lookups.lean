import OpenQasm.Proofs.Inlining.Names

/-!
# The same lookups in two scopes

Two scopes have the same registers and scalars of their own, and find the same constants
around them but for some hidden names. What avoids these names resolves to the same in both,
or fails with the same error: expressions, registers, modifiers, and all that an application
or a call of a gate comes down to.
-/
namespace OpenQasm

theorem mapM_eq_of_forall {ε α β : Type} {f g : α → Except ε β} {as : List α}
    (h : ∀ a ∈ as, f a = g a) : as.mapM f = as.mapM g := by
  induction as with
  | nil => rfl
  | cons a as ih =>
      obtain ⟨ha, has⟩ := List.forall_mem_cons.1 h
      rw [List.mapM_cons, List.mapM_cons, ha, ih has]

/-- What comes after an error makes no difference. -/
theorem throw_bind_eq {ε α β : Type} (e : ε) (f g : α → Except ε β) :
    (throw e >>= f) = (throw e >>= g) := rfl

theorem bind_eq_of_ok {ε α β : Type} {x : Except ε α} {f g : α → Except ε β}
    (h : ∀ a, x = .ok a → f a = g a) : (x >>= f) = (x >>= g) := by
  cases x with
  | error e => rfl
  | ok a => exact h a rfl

namespace Scope

variable {R : Type}

/-- A new scope falls back on the one that it was called from. -/
theorem const?_of_outer {s t : Scope R} (h : t.outer = s.scalars :: s.outer) (x : String) :
    t.const? x = ((t.scalars.get? x).map Binding.value).or (s.const? x) := by
  rw [const?, const?, h, List.findSome?_cons]
  cases t.scalars.get? x with
  | none => rfl
  | some b => rfl

/-- New scopes with the same scalars fall back on the ones that they were called from. -/
theorem const?_eq_of_outer (s s' : Scope R) {t t' : Scope R} {x : String}
    (h : t.scalars.get? x = none → s'.const? x = s.const? x) (hscalars : t'.scalars = t.scalars)
    (ht : t.outer = s.scalars :: s.outer) (ht' : t'.outer = s'.scalars :: s'.outer) :
    t'.const? x = t.const? x := by
  rw [const?_of_outer ht', const?_of_outer ht, hscalars]
  cases hx : t.scalars.get? x with
  | none => exact h hx
  | some b => rfl

/-- Two scopes with the same registers and scalars of their own. Around them they find the same
constants, but for the hidden ones. -/
structure Agrees (v : Visibility) (s s' : Scope R) : Prop where
  qubits : s'.qubits = s.qubits
  bits : s'.bits = s.bits
  scalars : s'.scalars = s.scalars
  const : ∀ x, x ∉ v.hidden → s'.const? x = s.const? x
  known : ∀ x ∈ v.bits, s.bits.contains x = true

namespace Agrees

variable {v w : Visibility} {s s' : Scope R}

theorem mono (hw : v.Finer w) (h : s.Agrees v s') : s.Agrees w s' :=
  { h with
    const := fun x hx => h.const x fun hmem => hx (hw.hidden hmem)
    known := fun x hx => h.known x (hw.bits hx) }

/-! Changes to both scopes -/

theorem addQubits (h : s.Agrees v s') (name : String) (qs : List QubitId) :
    (s.addQubits name qs).Agrees v (s'.addQubits name qs) :=
  { h with qubits := congrArg (Table.set · name qs) h.qubits }

theorem addBits (h : s.Agrees v s') (name : String) (bs : List Bool) :
    (s.addBits name bs).Agrees (v.bit name) (s'.addBits name bs) := by
  have hcontains : ∀ x, x = name ∨ s.bits.contains x = true →
      (s.bits.set name bs).contains x = true := by
    intro x hx
    rw [Table.contains, Table.get?_set]
    split
    · rfl
    · rename_i hne
      exact hx.resolve_left hne
  have hboth : (s.addBits name bs).Agrees v (s'.addBits name bs) :=
    { h with
      bits := congrArg (Table.set · name bs) h.bits
      known := fun x hx => hcontains x (.inr (h.known x hx)) }
  unfold Visibility.bit
  split
  · exact hboth
  · exact { hboth with known := fun x hx => hcontains x ((List.mem_cons.1 hx).imp id (h.known x)) }

/-- A scalar that is bound in both scopes is the same in both. -/
theorem setScalar (h : s.Agrees v s') (name : String) (b : Binding R) :
    ({ s with scalars := s.scalars.set name b } : Scope R).Agrees (v.scalar name)
      { s' with scalars := s'.scalars.set name b } := by
  have hget : ∀ (t : Scope R) x, ({ t with scalars := t.scalars.set name b } : Scope R).const? x =
      if x = name then some b.value else t.const? x := by
    intro t x
    rw [const?, const?, List.findSome?_cons, List.findSome?_cons, Table.get?_set]
    by_cases hx : x = name
    · rw [if_pos hx, if_pos hx]
      rfl
    · rw [if_neg hx, if_neg hx]
  have hconst : ∀ x, x ∉ (v.scalar name).hidden →
      ({ s' with scalars := s'.scalars.set name b } : Scope R).const? x =
        ({ s with scalars := s.scalars.set name b } : Scope R).const? x := by
    intro x hx
    rw [hget, hget]
    split
    · rfl
    · rename_i hne
      refine h.const x fun hmem => hx ?_
      unfold Visibility.scalar
      split
      · exact hmem
      · exact List.mem_filter.2 ⟨hmem, by simpa using hne⟩
  exact { h with
    scalars := congrArg (Table.set · name b) h.scalars
    const := hconst
    known := fun x hx => h.known x (by
      unfold Visibility.scalar at hx
      split at hx <;> exact hx) }

/-! Lookups -/

theorem allViews_eq (h : s.Agrees v s') : s'.allViews = s.allViews := by
  rw [allViews, allViews, h.qubits, h.bits]

theorem isVariable_eq (h : s.Agrees v s') (name : String) :
    s'.isVariable name = s.isVariable name := by
  rw [isVariable, isVariable, h.scalars]

variable [Scalar R]

theorem fold_eq (h : s.Agrees v s') : ∀ {e : Expr}, e.Avoids v.hidden → s'.fold e = s.fold e
  | .lit _, _ => rfl
  | .ident x, he => by rw [fold, fold, h.const x he, h.bits]
  | .index x i, he => by rw [fold, fold, fold_eq h (e := i) he, h.bits]
  | .binary _ _ _, he => by rw [fold, fold, fold_eq h he.1, fold_eq h he.2]
  | .unary _ e, he => by rw [fold, fold, fold_eq h (e := e) he]
  | .paren e, he => by rw [fold, fold, fold_eq h (e := e) he]
  | .call _ _ _ _, _ => rfl
  | .measure _, _ => rfl

theorem reference_eq (h : s.Agrees v s') {e : Expr} (he : e.IndexAvoids v.hidden) :
    s'.reference e = s.reference e := by
  cases e with
  | index x i =>
      have hi : i.Avoids v.hidden := he
      rw [reference, reference, h.fold_eq hi]
  | _ => rfl

theorem qubitsOf_eq (h : s.Agrees v s') {e : Expr} (he : e.IndexAvoids v.hidden) :
    s'.qubitsOf e = s.qubitsOf e := by
  rw [qubitsOf, qubitsOf, h.reference_eq he, h.qubits]

theorem bitsOf_eq (h : s.Agrees v s') {e : Expr} (he : e.IndexAvoids v.hidden) :
    s'.bitsOf e = s.bitsOf e := by
  rw [bitsOf, bitsOf, h.reference_eq he, h.bits]

theorem typeSize_eq (h : s.Agrees v s') {t : TypeSpec} (ht : t.Avoids v.hidden) :
    s'.typeSize t = s.typeSize t := by
  unfold typeSize
  cases hsize : t.size with
  | none => rfl
  | some e => simp only [h.fold_eq (ht e hsize)]

theorem declaredSize_eq (h : s.Agrees v s') {d : TypedName} (hd : d.type.Avoids v.hidden) :
    s'.declaredSize d = s.declaredSize d := by
  unfold declaredSize
  rw [h.typeSize_eq hd]

theorem mapM_fold_eq (h : s.Agrees v s') {ps : List Expr} (hps : ∀ e ∈ ps, e.Avoids v.hidden) :
    ps.mapM s'.fold = ps.mapM s.fold := mapM_eq_of_forall fun e he => h.fold_eq (hps e he)

theorem mapM_qubitsOf_eq (h : s.Agrees v s') {qs : List Expr}
    (hqs : ∀ e ∈ qs, e.IndexAvoids v.hidden) : qs.mapM s'.qubitsOf = qs.mapM s.qubitsOf :=
  mapM_eq_of_forall fun e he => h.qubitsOf_eq (hqs e he)

theorem measuredQubits_eq (h : s.Agrees v s') {qs : List Expr}
    (hqs : ∀ e ∈ qs, e.IndexAvoids v.hidden) : s'.measuredQubits qs = s.measuredQubits qs := by
  rw [measuredQubits, measuredQubits, h.qubits, h.mapM_qubitsOf_eq hqs]

theorem views_eq (h : s.Agrees v s') {es : List Expr}
    (hes : ∀ e ∈ es, e.IndexAvoids v.hidden) : s'.views es = s.views es := by
  induction es with
  | nil => rfl
  | cons e es ih =>
      obtain ⟨he, hes⟩ := List.forall_mem_cons.1 hes
      rw [views, views, h.reference_eq he, h.qubits, h.bits, h.qubitsOf_eq he, h.bitsOf_eq he,
        ih hes]

theorem convertResult_eq (h : s.Agrees v s') {d : SubroutineDef}
    (hd : ∀ t ∈ d.result, t.kind = .bit → t.Avoids v.hidden) (val : Value R) :
    s'.convertResult d val = s.convertResult d val := by
  unfold convertResult
  split
  · rfl
  · rename_i t ht
    split
    · rename_i hkind
      rw [h.typeSize_eq (hd t ht hkind)]
    · rfl
    · rfl

/-! Modifiers -/

theorem controlCount_eq (h : s.Agrees v s') {m : Modifier} (hm : m.Avoids v.hidden) :
    s'.controlCount m = s.controlCount m := by
  unfold controlCount
  cases harg : m.arg with
  | none => rfl
  | some e => simp only [h.fold_eq (hm e harg)]

theorem exponent_eq (h : s.Agrees v s') {m : Modifier} (hm : m.Avoids v.hidden) :
    s'.exponent m = s.exponent m := by
  unfold exponent
  cases harg : m.arg with
  | none => rfl
  | some e => simp only [h.fold_eq (hm e harg)]

theorem foldModifiers_eq (h : s.Agrees v s') {ms : List Modifier}
    (hms : ∀ m ∈ ms, m.Avoids v.hidden) (folded : FoldedModifiers) :
    s'.foldModifiers folded ms = s.foldModifiers folded ms := by
  induction ms generalizing folded with
  | nil => rfl
  | cons m ms ih =>
      obtain ⟨hm, hms⟩ := List.forall_mem_cons.1 hms
      simp only [foldModifiers, h.controlCount_eq hm, h.exponent_eq hm, ih hms]

theorem resolveModifiers_eq (h : s.Agrees v s') {ms : List Modifier}
    (hms : ∀ m ∈ ms, m.Avoids v.hidden) : s'.resolveModifiers ms = s.resolveModifiers ms :=
  h.foldModifiers_eq hms _

theorem countControls_eq (h : s.Agrees v s') {ms : List Modifier}
    (hms : ∀ m ∈ ms, m.Avoids v.hidden) : s'.countControls ms = s.countControls ms := by
  refine mapM_eq_of_forall fun m hm => ?_
  rw [h.controlCount_eq (hms m hm)]

theorem modifyBody_eq (h : s.Agrees v s') {counted : List (Modifier × Nat)}
    (hcounted : ∀ c ∈ counted, c.1.Avoids v.hidden) (gate : GateDef) (limit start : Nat) :
    s'.modifyBody gate limit start counted = s.modifyBody gate limit start counted := by
  induction counted generalizing start with
  | nil => rfl
  | cons c counted ih =>
      obtain ⟨m, n⟩ := c
      obtain ⟨hm, hcounted⟩ := List.forall_mem_cons.1 hcounted
      simp only [modifyBody, h.exponent_eq hm, ih hcounted]

end Agrees

/-! Applications and calls of gates -/

section Parts

variable [Scalar R] {v : Visibility} {s s' : Scope R} {ms : List Modifier} {ps qs : List Expr}

/-- What a call of a gate hands over: the controls, the targets, the parameters and the body. -/
structure Handover (R : Type) where
  controls : List QubitId
  targets : List (List QubitId)
  params : List (Const R)
  body : Block

/-- Resolve the parts of a call of a gate. -/
def handover (s : Scope R) (config : Config) (gate : GateDef) (call : Call) :
    Except EvalError (Handover R) := do
  if call.params.length ≠ gate.params.length then
    throw (.arity gate.name .parameter gate.params.length call.params.length)
  let params ← call.params.mapM s.fold
  let counted ← s.countControls call.modifiers
  let total := counted.foldl (fun total c => total + c.snd) 0
  let n := wordOf total
  let expected := wordOf (n + gate.qargs.length)
  if call.qargs.length ≠ expected then
    throw (.arity gate.name .qubit expected call.qargs.length)
  let controls ← (call.qargs.take n).mapM s.singleQubit
  let targets ← (call.qargs.drop n).mapM s.qubitsOf
  let body ← s.modifyBody gate config.maxUnroll 0 counted
  gate.checkExpansion total body
  return ⟨controls, targets, params, body⟩

/-- A call is made with the parts that it hands over. -/
theorem prepareGate_eq (s : Scope R) (config : Config) (gate : GateDef) (call : Call) :
    s.prepareGate config gate call = (do
      let p ← s.handover config gate call
      return (s.gateScope gate call p.controls p.targets p.params, p.body)) := by
  unfold prepareGate handover
  split
  · rfl
  · simp only [bind_assoc]
    refine bind_congr fun params => bind_congr fun counted => ?_
    split
    · rfl
    · simp only [bind_assoc, pure_bind]

theorem length_params_of_handover {config : Config} {gate : GateDef} {call : Call} {p : Handover R}
    (h : s.handover config gate call = .ok p) : p.params.length = gate.params.length := by
  unfold handover at h
  split at h
  · cases h
  rename_i hlen
  obtain ⟨params, hparams, h⟩ := bind_ok_iff.1 h
  obtain ⟨counted, -, h⟩ := bind_ok_iff.1 h
  dsimp only at h
  split at h
  · cases h
  obtain ⟨controls, -, h⟩ := bind_ok_iff.1 h
  obtain ⟨targets, -, h⟩ := bind_ok_iff.1 h
  obtain ⟨body, -, h⟩ := bind_ok_iff.1 h
  obtain ⟨⟨⟩, -, h⟩ := bind_ok_iff.1 h
  cases h
  rw [length_of_mapM hparams]
  exact not_not.1 hlen

/-- What a call without modifiers hands over, once its arguments are resolved. -/
theorem handover_plain {params : List (Const R)} {targets : List (List QubitId)}
    (hps : ps.mapM s.fold = .ok params) (hqs : qs.mapM s.qubitsOf = .ok targets) (config : Config)
    (gate : GateDef) (name : String) :
    s.handover config gate ⟨name, [], ps, qs⟩ =
      if params.length ≠ gate.params.length then
        .error (.arity gate.name .parameter gate.params.length params.length)
      else if targets.length ≠ wordOf gate.qargs.length then
        .error (.arity gate.name .qubit (wordOf gate.qargs.length) targets.length)
      else do
        gate.checkExpansion 0 gate.body
        return ⟨[], targets, params, gate.body⟩ := by
  have hcounted : s.countControls [] = .ok [] := rfl
  unfold handover
  rw [length_of_mapM hps, length_of_mapM hqs, hps, hcounted]
  split
  · rfl
  · change (if qs.length ≠ wordOf (0 + gate.qargs.length) then
        Except.error (EvalError.arity gate.name .qubit (wordOf (0 + gate.qargs.length)) qs.length)
      else _) = _
    rw [Nat.zero_add]
    split
    · rfl
    · change (do
        let targets ← qs.mapM s.qubitsOf
        gate.checkExpansion 0 gate.body
        return (⟨[], targets, params, gate.body⟩ : Handover R)) = _
      rw [hqs]
      rfl

variable (h : s.Agrees v s')

include h

theorem Agrees.natural_eq {e : Expr} (he : e.Avoids v.hidden) : s'.natural e = s.natural e := by
  rw [natural, natural, h.fold_eq he]

variable (hqs : ∀ e ∈ qs, e.IndexAvoids v.hidden)

include hqs

theorem Agrees.mapM_singleQubit_eq : qs.mapM s'.singleQubit = qs.mapM s.singleQubit := by
  refine mapM_eq_of_forall fun e he => ?_
  rw [singleQubit, singleQubit, h.qubitsOf_eq (hqs e he)]

/-- The arguments at the front are controls, the others are registers. -/
theorem Agrees.take_drop_eq (n : Nat) :
    (qs.take n).mapM s'.singleQubit = (qs.take n).mapM s.singleQubit ∧
      (qs.drop n).mapM s'.qubitsOf = (qs.drop n).mapM s.qubitsOf :=
  ⟨h.mapM_singleQubit_eq fun e he => hqs e (List.mem_of_mem_take he),
    h.mapM_qubitsOf_eq fun e he => hqs e (List.mem_of_mem_drop he)⟩

theorem Agrees.fourierCall_eq (hms : ∀ m ∈ ms, m.Avoids v.hidden) (gate : Builtin) :
    s'.fourierCall gate ms ps qs = s.fourierCall gate ms ps qs := by
  unfold fourierCall
  simp only [h.resolveModifiers_eq hms, h.take_drop_eq hqs]

variable (hps : ∀ e ∈ ps, e.Avoids v.hidden)

include hps

theorem Agrees.modularPowerCall_eq :
    s'.modularPowerCall ms ps qs = s.modularPowerCall ms ps qs := by
  unfold modularPowerCall
  rcases ms with _ | ⟨m, ms⟩
  swap
  · rfl
  rcases ps with _ | ⟨a, _ | ⟨n, _ | ⟨_, _⟩⟩⟩
  · rfl
  · rfl
  swap
  · rfl
  rcases qs with _ | ⟨x, _ | ⟨y, _ | ⟨_, _⟩⟩⟩
  · rfl
  · rfl
  swap
  · rfl
  rw [List.forall_mem_cons, List.forall_mem_singleton] at hps hqs
  simp only [h.natural_eq hps.1, h.natural_eq hps.2, h.qubitsOf_eq hqs.1, h.qubitsOf_eq hqs.2]

variable (hms : ∀ m ∈ ms, m.Avoids v.hidden)

include hms

theorem Agrees.standardOperations_eq (gate : StandardGate) :
    s'.standardOperations gate ms ps qs = s.standardOperations gate ms ps qs := by
  have hangles : ps.mapM s'.angle = ps.mapM s.angle := by
    refine mapM_eq_of_forall fun e he => ?_
    rw [angle, angle, h.fold_eq (hps e he)]
  unfold standardOperations
  rw [h.resolveModifiers_eq hms, hangles, h.mapM_qubitsOf_eq hqs]

theorem Agrees.handover_eq (config : Config) (gate : GateDef) (name : String) :
    s'.handover config gate ⟨name, ms, ps, qs⟩ = s.handover config gate ⟨name, ms, ps, qs⟩ := by
  unfold handover
  rw [h.countControls_eq hms, h.mapM_fold_eq hps]
  split
  · exact throw_bind_eq _ _ _
  refine bind_congr fun params => bind_eq_of_ok fun counted hcounted => ?_
  have hbody := h.modifyBody_eq (fun c hc => hms c.1 (mem_of_countControls hcounted c hc)) gate
    config.maxUnroll 0
  simp only [h.take_drop_eq hqs, hbody]

end Parts

/-! Requests -/

section Requests

variable {B : Type} [Scalar R] [Backend R B] {v : Visibility} {s s' : Scope R}

theorem Agrees.resetEach_eq (h : s.Agrees v s') {qs : List Expr}
    (hqs : ∀ e ∈ qs, e.IndexAvoids v.hidden) :
    Run.resetEach (B := B) s' qs = Run.resetEach s qs := by
  induction qs with
  | nil => rfl
  | cons e es ih =>
      obtain ⟨he, hes⟩ := List.forall_mem_cons.1 hqs
      rw [Run.resetEach, Run.resetEach, h.qubitsOf_eq he, ih hes]

theorem Agrees.print_eq (h : s.Agrees v s') {es : List Expr}
    (hes : ∀ e ∈ es, e.IndexAvoids v.hidden) : Run.print (B := B) s' es = Run.print s es := by
  rw [Run.print, Run.print, h.allViews_eq, h.views_eq hes]

end Requests

/-! Scopes of what is called -/

section Enclosed

variable {names : List String} {s s' : Scope R}

theorem agrees_gateScope (h : ∀ x, x ∉ names → s'.const? x = s.const? x) {gate : GateDef}
    (unordered : Bool) (call call' : Call) (controls : List QubitId)
    (targets : List (List QubitId)) {params : List (Const R)}
    (hlen : params.length = gate.params.length) :
    (s.gateScope gate call controls targets params).Agrees
      ((Callee.gate gate unordered).visibility names)
      (s'.gateScope gate call' controls targets params) := by
  rw [gateScope_eq, gateScope_eq]
  have hconst : ∀ x, x ∉ names.filter (· ∉ gate.params) →
      (Table.empty.setAll ((gate.params.zip params).map fun b =>
        (b.1, (⟨b.2, false⟩ : Binding R)))).get? x = none → s'.const? x = s.const? x := by
    intro x hx hnone
    refine h x fun hname => hx (List.mem_filter.2 ⟨hname, ?_⟩)
    rw [decide_eq_true_eq]
    intro hmem
    have hnames : (gate.params.zip params).map Prod.fst = gate.params :=
      List.map_fst_zip (by omega)
    rw [← hnames] at hmem
    obtain ⟨⟨y, c⟩, hc, rfl⟩ := List.mem_map.1 hmem
    obtain ⟨b, hb⟩ := Table.exists_get?_setAll (t := Table.empty)
      ⟨_, List.mem_map_of_mem (f := fun b => (b.1, (⟨b.2, false⟩ : Binding R))) hc, rfl⟩
    rw [hnone] at hb
    cases hb
  exact {
    qubits := rfl
    bits := rfl
    scalars := rfl
    const := fun x hx => by exact const?_eq_of_outer s s' (hconst x hx) rfl rfl rfl
    known := fun x hx => absurd hx List.not_mem_nil }

theorem agrees_enclosed (h : ∀ x, x ∉ names → s'.const? x = s.const? x) (name : String) :
    (s.enclosed name []).Agrees ⟨names, [], false⟩ (s'.enclosed name []) where
  qubits := rfl
  bits := rfl
  scalars := rfl
  const := fun x hx => by exact const?_eq_of_outer s s' (fun _ => h x hx) rfl rfl rfl
  known := fun x hx => absurd hx List.not_mem_nil

end Enclosed

end Scope

/-- The body that a call runs is the body of the gate, turned around only if a modifier may
invert it. -/
theorem Block.Allowed.of_prepareGate {R : Type} [Scalar R] {D : Definitions} {C : Callee → Prop}
    {v : Visibility} {s inner : Scope R} {config : Config} {gate : GateDef} {call : Call}
    {body : Block} (h : Block.Allowed D C v gate.body)
    (hprepared : s.prepareGate config gate call = .ok (inner, body))
    (hcall : v.unordered = false → call.modifiers.any Modifier.mayInvert = false) :
    body.Allowed D C v := by
  obtain ⟨⟨p⟩, -⟩ := Scope.prepareGate_ok hprepared
  rw [p.body_eq]
  refine .addAll _ (Applied.groups_avoid 0 p.modifiers) (.turned p.modifiers ?_ h)
  intro a ha hneg
  cases hv : v.unordered with
  | true => rfl
  | false => exact absurd hneg (Scope.factor_of_applied p.applied (hcall hv) a ha)

end OpenQasm
