import OpenQasm.Proofs.Modifiers.GateScope
import Mathlib.Data.Option.Basic
import Mathlib.Data.List.Forall2

/-!
# The same application in two scopes

An application of a gate in one scope is compared with an application in another one,
whose modifiers, parameters and arguments may be written in another way. If all parts
that resolve in the first scope resolve to the same in the second one, so do the
operations and the bodies that the application comes down to.
-/
namespace OpenQasm

/-- Every result of the first is one of the second. -/
def Refines {ε α : Type} (x y : Except ε α) : Prop := ∀ a, x = .ok a → y = .ok a

/-- If the first action succeeds, the second one does the same. -/
def RunRefines {ε σ α : Type} (x y : ExceptT ε (StateM σ) α) : Prop :=
  ∀ a s s', x s = (.ok a, s') → y s = (.ok a, s')

namespace Refines

variable {ε α β γ : Type}

theorem refl (x : Except ε α) : Refines x x := fun _ h => h

theorem error (e : ε) (y : Except ε α) : Refines (.error e) y := by
  intro a h
  cases h

theorem ite {c : Prop} [Decidable c] {x x' y y' : Except ε α} (hx : c → Refines x x')
    (hy : ¬c → Refines y y') : Refines (if c then x else y) (if c then x' else y') := by
  split
  · rename_i hc
    exact hx hc
  · rename_i hc
    exact hy hc

theorem bind {x y : Except ε α} {f g : α → Except ε β} (hxy : Refines x y)
    (hfg : ∀ a, Refines (f a) (g a)) : Refines (x >>= f) (y >>= g) := by
  intro b h
  obtain ⟨a, ha, hb⟩ := bind_ok_iff.1 h
  exact bind_ok_iff.2 ⟨a, hxy a ha, hfg a b hb⟩

theorem mapM {f : α → Except ε γ} {g : β → Except ε γ} {as : List α} {bs : List β}
    (h : List.Forall₂ (fun a b => Refines (f a) (g b)) as bs) : Refines (as.mapM f) (bs.mapM g) := by
  induction h with
  | nil => exact refl _
  | cons hab _ ih =>
      rw [List.mapM_cons, List.mapM_cons]
      exact hab.bind fun c => ih.bind fun cs => refl _

end Refines

namespace RunRefines

variable {ε σ α β : Type}

theorem refl (x : ExceptT ε (StateM σ) α) : RunRefines x x := fun _ _ _ h => h

theorem lift {x y : Except ε α} (h : Refines x y) :
    RunRefines (liftM x : ExceptT ε (StateM σ) α) (liftM y) := by
  intro a s s' hrun
  obtain ⟨ha, rfl⟩ := ran_lift.1 hrun
  exact ran_lift.2 ⟨h a ha, rfl⟩

theorem throw (e : ε) (y : ExceptT ε (StateM σ) α) : RunRefines (throw e) y := by
  intro a s s' h
  cases h

/-- Actions that go on with results of their own. -/
theorem bind_of {γ : Type} {x : ExceptT ε (StateM σ) α} {y : ExceptT ε (StateM σ) β}
    {f : α → ExceptT ε (StateM σ) γ} {g : β → ExceptT ε (StateM σ) γ}
    (h : ∀ a s s₁, x s = (.ok a, s₁) → ∃ b, y s = (.ok b, s₁) ∧ RunRefines (f a) (g b)) :
    RunRefines (x >>= f) (y >>= g) := by
  intro c s s' hrun
  obtain ⟨a, s₁, hx, hf⟩ := ran_bind.1 hrun
  obtain ⟨b, hy, hfg⟩ := h a s s₁ hx
  exact ran_bind.2 ⟨b, s₁, hy, hfg c s₁ s' hf⟩

theorem bind {x y : ExceptT ε (StateM σ) α} {f g : α → ExceptT ε (StateM σ) β}
    (hxy : RunRefines x y) (hfg : ∀ a, RunRefines (f a) (g a)) :
    RunRefines (x >>= f) (y >>= g) :=
  bind_of fun a s s₁ hx => ⟨a, hxy a s s₁ hx, hfg a⟩

theorem lift_bind_of {γ : Type} {x : Except ε α} {y : Except ε β}
    {f : α → ExceptT ε (StateM σ) γ} {g : β → ExceptT ε (StateM σ) γ}
    (h : ∀ a, x = .ok a → ∃ b, y = .ok b ∧ RunRefines (f a) (g b)) :
    RunRefines (liftM x >>= f) (liftM y >>= g) := by
  refine bind_of fun a s s₁ hx => ?_
  obtain ⟨ha, rfl⟩ := ran_lift.1 hx
  obtain ⟨b, hb, hfg⟩ := h a ha
  exact ⟨b, ran_lift.2 ⟨hb, rfl⟩, hfg⟩

end RunRefines

namespace Scope

variable {R : Type} [Scalar R]

/-- Modifiers of one kind whose arguments fold to the same. -/
structure SameModifier (s s' : Scope R) (m m' : Modifier) : Prop where
  kind : m'.kind = m.kind
  arg : Option.Rel (fun e e' => Refines (s.fold e) (s'.fold e')) m.arg m'.arg

structure SameParts (s s' : Scope R) (ms ms' : List Modifier) (ps ps' qs qs' : List Expr) :
    Prop where
  modifiers : List.Forall₂ (s.SameModifier s') ms ms'
  params : List.Forall₂ (fun e e' => Refines (s.fold e) (s'.fold e')) ps ps'
  qargs : List.Forall₂ (fun e e' => Refines (s.qubitsOf e) (s'.qubitsOf e')) qs qs'

variable {s s' : Scope R} {m m' : Modifier} {ms ms' : List Modifier} {ps ps' qs qs' : List Expr}

theorem SameModifier.controlCount (h : s.SameModifier s' m m') :
    Refines (s.controlCount m) (s'.controlCount m') := by
  obtain ⟨kind, arg⟩ := m
  obtain ⟨kind', arg'⟩ := m'
  obtain rfl : kind' = kind := h.kind
  obtain (hfold | _) : Option.Rel _ arg arg' := h.arg
  · exact hfold.bind fun c => .refl _
  · exact .refl _

theorem SameModifier.exponent (h : s.SameModifier s' m m') :
    Refines (s.exponent m) (s'.exponent m') := by
  obtain ⟨kind, arg⟩ := m
  obtain ⟨kind', arg'⟩ := m'
  obtain (hfold | _) : Option.Rel _ arg arg' := h.arg
  · exact hfold.bind fun c => .refl _
  · exact .refl _

theorem SameModifier.isControl_eq (h : s.SameModifier s' m m') : m'.isControl = m.isControl := by
  rw [Modifier.isControl, Modifier.isControl, h.kind]

theorem refines_foldModifiers (h : List.Forall₂ (s.SameModifier s') ms ms')
    (folded : FoldedModifiers) :
    Refines (s.foldModifiers folded ms) (s'.foldModifiers folded ms') := by
  induction h generalizing folded with
  | nil => exact .refl _
  | cons hm _ ih =>
      rw [foldModifiers, foldModifiers, hm.kind]
      split
      · exact hm.controlCount.bind fun n => ih _
      · exact hm.controlCount.bind fun n => ih _
      · exact ih _
      · refine hm.exponent.bind fun k => ?_
        split
        · exact ih _
        · exact .error _ _

theorem refines_singleQubit {e e' : Expr} (h : Refines (s.qubitsOf e) (s'.qubitsOf e')) :
    Refines (s.singleQubit e) (s'.singleQubit e') := h.bind fun _ => .refl _

theorem refines_angle {e e' : Expr} (h : Refines (s.fold e) (s'.fold e')) :
    Refines (s.angle e) (s'.angle e') := h.bind fun _ => .refl _

theorem refines_natural {e e' : Expr} (h : Refines (s.fold e) (s'.fold e')) :
    Refines (s.natural e) (s'.natural e') := h.bind fun _ => .refl _

namespace SameParts

variable (h : s.SameParts s' ms ms' ps ps' qs qs')

include h

theorem resolveModifiers : Refines (s.resolveModifiers ms) (s'.resolveModifiers ms') :=
  refines_foldModifiers h.modifiers _

theorem angles : Refines (ps.mapM s.angle) (ps'.mapM s'.angle) :=
  .mapM (h.params.imp fun _ _ => refines_angle)

theorem qubits : Refines (qs.mapM s.qubitsOf) (qs'.mapM s'.qubitsOf) := .mapM h.qargs

theorem standardOperations (gate : StandardGate) :
    Refines (s.standardOperations gate ms ps qs) (s'.standardOperations gate ms' ps' qs') := by
  unfold Scope.standardOperations
  rw [← h.params.length_eq, ← h.qargs.length_eq]
  refine h.resolveModifiers.bind fun folded => ?_
  refine .ite (fun _ => .error _ _) fun _ => .ite (fun _ => .error _ _) fun _ => ?_
  refine h.angles.bind fun angles => (Refines.refl _).bind fun base => ?_
  exact h.qubits.bind fun args => .refl _

theorem fourierCall (gate : Builtin) :
    Refines (s.fourierCall gate ms ps qs) (s'.fourierCall gate ms' ps' qs') := by
  unfold Scope.fourierCall
  have hempty : ps'.isEmpty = ps.isEmpty := by
    cases h.params <;> rfl
  rw [hempty, ← h.params.length_eq, ← h.qargs.length_eq]
  refine .ite (fun _ => ?_) fun _ => .error _ _
  refine h.resolveModifiers.bind fun folded => .ite (fun _ => .error _ _) fun _ => ?_
  refine Refines.bind (.mapM ?_) fun controls => Refines.bind (.mapM ?_) fun registers => .refl _
  · exact (List.forall₂_take _ h.qargs).imp fun _ _ => refines_singleQubit
  · exact List.forall₂_drop _ h.qargs

theorem modularPowerCall :
    Refines (s.modularPowerCall ms ps qs) (s'.modularPowerCall ms' ps' qs') := by
  obtain ⟨hms, hps, hqs⟩ := h
  unfold Scope.modularPowerCall
  rcases hms with _ | _
  swap
  · exact .error _ _
  rcases hps with _ | ⟨ha, _ | ⟨hn, _ | _⟩⟩
  · exact .error _ _
  · exact .error _ _
  swap
  · exact .error _ _
  rcases hqs with _ | ⟨hx, _ | ⟨hy, _ | _⟩⟩
  · exact .error _ _
  · exact .error _ _
  · exact (refines_natural ha).bind fun _ => (refines_natural hn).bind fun _ =>
      hx.bind fun _ => hy.bind fun _ => .refl _
  · exact .error _ _

end SameParts

/-! Calls of gates -/

def SameCount (s s' : Scope R) (c c' : Modifier × Nat) : Prop :=
  s.SameModifier s' c.1 c'.1 ∧ c.2 = c'.2

theorem countControls_same (h : List.Forall₂ (s.SameModifier s') ms ms')
    {counted : List (Modifier × Nat)} (hcounted : s.countControls ms = .ok counted) :
    ∃ counted', s'.countControls ms' = .ok counted' ∧
      List.Forall₂ (s.SameCount s') counted counted' := by
  induction h generalizing counted with
  | nil =>
      obtain rfl : counted = [] := mapM_nil_ok_iff.1 hcounted
      exact ⟨[], rfl, .nil⟩
  | @cons m m' ms ms' hm _ ih =>
      obtain ⟨n, rest, hn, hrest, rfl⟩ := countControls_cons_ok_iff.1 hcounted
      obtain ⟨rest', hrest', hsame⟩ := ih hrest
      refine ⟨(m', n) :: rest', countControls_cons_ok_iff.2 ⟨n, rest', ?_, hrest', rfl⟩,
        .cons ⟨hm, rfl⟩ hsame⟩
      rw [hm.isControl_eq]
      exact hn.imp (fun hn => ⟨hn.1, hm.controlCount n hn.2⟩) id

theorem totalControls_same {counted counted' : List (Modifier × Nat)}
    (h : List.Forall₂ (s.SameCount s') counted counted') :
    totalControls counted' = totalControls counted := by
  induction h with
  | nil => rfl
  | cons hc _ ih => exact congrArg₂ (· + ·) hc.2.symm ih

theorem refines_modifyBody {counted counted' : List (Modifier × Nat)}
    (h : List.Forall₂ (s.SameCount s') counted counted') (gate : GateDef) (limit start : Nat) :
    Refines (s.modifyBody gate limit start counted) (s'.modifyBody gate limit start counted') := by
  induction h generalizing start with
  | nil => exact .refl _
  | @cons c c' counted counted' hc _ ih =>
      obtain ⟨m, n⟩ := c
      obtain ⟨m', n'⟩ := c'
      obtain ⟨hm, rfl⟩ : s.SameModifier s' m m' ∧ n = n' := hc
      rw [modifyBody, modifyBody, hm.kind]
      refine (ih _).bind fun body => ?_
      split
      · exact .refl _
      · exact hm.exponent.bind fun k => .refl _
      · exact .refl _

/-- If a call can be made in one scope, the same call can be made in the other. -/
theorem SameParts.prepareGate (h : s.SameParts s' ms ms' ps ps' qs qs') {config : Config}
    {gate : GateDef} {name : String} {inner : Scope R} {body : Block}
    (hprepared : s.prepareGate config gate ⟨name, ms, ps, qs⟩ = .ok (inner, body))
    (name' : String) :
    ∃ controls targets params, params.length = gate.params.length ∧
      inner = s.gateScope gate ⟨name, ms, ps, qs⟩ controls targets params ∧
      s'.prepareGate config gate ⟨name', ms', ps', qs'⟩ =
        .ok (s'.gateScope gate ⟨name', ms', ps', qs'⟩ controls targets params, body) := by
  unfold Scope.prepareGate at hprepared ⊢
  dsimp only at hprepared ⊢
  rw [← h.params.length_eq, ← h.qargs.length_eq]
  split at hprepared
  · cases hprepared
  rename_i hcount
  obtain ⟨params, hparams, hprepared⟩ := bind_ok_iff.1 hprepared
  obtain ⟨counted, hcounted, hprepared⟩ := bind_ok_iff.1 hprepared
  split at hprepared
  · cases hprepared
  rename_i hlen
  obtain ⟨controls, hcontrols, hprepared⟩ := bind_ok_iff.1 hprepared
  obtain ⟨targets, htargets, hprepared⟩ := bind_ok_iff.1 hprepared
  obtain ⟨body', hbody, hprepared⟩ := bind_ok_iff.1 hprepared
  obtain ⟨⟨⟩, hfits, hprepared⟩ := bind_ok_iff.1 hprepared
  cases hprepared
  obtain ⟨counted', hcounted', hsame⟩ := countControls_same h.modifiers hcounted
  have htotal : counted'.foldl (fun total c => total + c.snd) 0 =
      counted.foldl (fun total c => total + c.snd) 0 := by
    rw [foldl_controls, foldl_controls, totalControls_same hsame]
  refine ⟨controls, targets, params, ?_, rfl, ?_⟩
  · rw [length_of_mapM hparams]
    exact not_not.1 hcount
  rw [if_neg hcount]
  refine bind_ok_iff.2 ⟨params, Refines.mapM h.params params hparams, ?_⟩
  refine bind_ok_iff.2 ⟨counted', hcounted', ?_⟩
  rw [htotal, if_neg hlen]
  refine bind_ok_iff.2 ⟨controls, Refines.mapM ?_ controls hcontrols, ?_⟩
  · exact (List.forall₂_take _ h.qargs).imp fun _ _ => refines_singleQubit
  refine bind_ok_iff.2 ⟨targets, Refines.mapM (List.forall₂_drop _ h.qargs) targets htargets, ?_⟩
  refine bind_ok_iff.2 ⟨body, refines_modifyBody hsame gate _ _ body hbody, ?_⟩
  exact bind_ok_iff.2 ⟨(), hfits, rfl⟩

end Scope

namespace Run

variable {R B : Type} [Scalar R] [Backend R B] {s s' : Scope R} {ms ms' : List Modifier}
  {ps ps' qs qs' : List Expr}

theorem refines_applyStandard (h : s.SameParts s' ms ms' ps ps' qs qs') (gate : StandardGate) :
    RunRefines (applyStandard (B := B) s gate ms ps qs) (applyStandard s' gate ms' ps' qs') :=
  (RunRefines.lift (h.standardOperations gate)).bind fun _ => .refl _

theorem refines_applyBuiltin (h : s.SameParts s' ms ms' ps ps' qs qs') (b : Builtin) :
    RunRefines (applyBuiltin (B := B) s b ms ps qs) (applyBuiltin s' b ms' ps' qs') := by
  cases b with
  | qft => exact (RunRefines.lift (h.fourierCall .qft)).bind fun _ => .refl _
  | iqft => exact (RunRefines.lift (h.fourierCall .iqft)).bind fun _ => .refl _
  | cmodexp2 => exact (RunRefines.lift h.modularPowerCall).bind fun _ => .refl _
  | _ => exact refines_applyStandard h _

end Run

end OpenQasm
