import OpenQasm.Proofs.Inlining.Alike

/-!
# Ends that are alike

Two results are alike if both are errors, whatever these say, or if they are values in a
relation. Two actions are alike if their results are and both leave the state the same, also
where they fail.
-/
namespace OpenQasm

/-- Two results that are related, or two errors. -/
def EndsLike {ε α β : Type} (Q : α → β → Prop) : Except ε α → Except ε β → Prop
  | .ok a, .ok b => Q a b
  | .error _, .error _ => True
  | _, _ => False

/-- Two actions that end alike, and in the same state. -/
def RunsLike {ε σ α β : Type} (Q : α → β → Prop) (x : ExceptT ε (StateM σ) α)
    (y : ExceptT ε (StateM σ) β) : Prop :=
  ∀ m, EndsLike Q (x m).1 (y m).1 ∧ (y m).2 = (x m).2

section Refused

variable {ε α β : Type}

theorem isOk_bind_of_forall (x : Except ε α) {f : α → Except ε β} (h : ∀ a, (f a).isOk = false) :
    (x >>= f).isOk = false := by
  cases x with
  | ok a => exact h a
  | error e => rfl

theorem isOk_bind_of_not_isOk {x : Except ε α} (h : x.isOk = false) (f : α → Except ε β) :
    (x >>= f).isOk = false := by
  cases x with
  | ok a => cases h
  | error e => rfl

end Refused

namespace EndsLike

variable {ε α β γ δ : Type} {Q : α → β → Prop} {S : γ → δ → Prop}

theorem refl (x : Except ε α) : EndsLike Eq x x := by
  cases x with
  | ok a => exact rfl
  | error e => exact trivial

theorem error (e e' : ε) : EndsLike Q (.error e) (.error e') := trivial

theorem of_not_isOk {x : Except ε α} {y : Except ε β} (hx : x.isOk = false)
    (hy : y.isOk = false) : EndsLike Q x y := by
  cases x with
  | ok a => cases hx
  | error e => cases y with
    | ok b => cases hy
    | error e' => exact trivial

theorem bind {x : Except ε α} {y : Except ε β} {f : α → Except ε γ} {g : β → Except ε δ}
    (h : EndsLike Q x y) (hfg : ∀ a b, Q a b → EndsLike S (f a) (g b)) :
    EndsLike S (x >>= f) (y >>= g) := by
  cases x with
  | ok a => cases y with
    | ok b => exact hfg a b h
    | error e => exact h.elim
  | error e => cases y with
    | ok b => exact h.elim
    | error e' => exact trivial

theorem refines {x y : Except ε α} (h : EndsLike Eq x y) : Refines x y := by
  rintro a rfl
  cases y with
  | ok b => exact congrArg Except.ok (Eq.symm (a := a) h)
  | error e => exact h.elim

/-- Steps with the same result first, where it matters that the result was reached. -/
theorem bind_ok {x y : Except ε α} {f : α → Except ε γ} {g : α → Except ε δ}
    (h : EndsLike Eq x y) (hfg : ∀ a, x = .ok a → EndsLike S (f a) (g a)) :
    EndsLike S (x >>= f) (y >>= g) := by
  cases x with
  | ok a =>
      rw [h.refines a rfl]
      exact hfg a rfl
  | error e => cases y with
    | ok b => exact h.elim
    | error e' => exact trivial

theorem bind_eq {x y : Except ε α} {f : α → Except ε γ} {g : α → Except ε δ}
    (h : EndsLike Eq x y) (hfg : ∀ a, EndsLike S (f a) (g a)) :
    EndsLike S (x >>= f) (y >>= g) := h.bind_ok fun a _ => hfg a

/-- The same step first. -/
theorem after (x : Except ε α) {f : α → Except ε γ} {g : α → Except ε δ}
    (hfg : ∀ a, EndsLike S (f a) (g a)) : EndsLike S (x >>= f) (x >>= g) :=
  (refl x).bind_eq hfg

theorem ite {c : Prop} [Decidable c] {x x' : Except ε α} {y y' : Except ε β}
    (hx : c → EndsLike Q x y) (hx' : ¬c → EndsLike Q x' y') :
    EndsLike Q (if c then x else x') (if c then y else y') := by
  split
  · rename_i hc
    exact hx hc
  · rename_i hc
    exact hx' hc

/-- Results that refine each other are alike. -/
theorem of_refines {x y : Except ε α} (h : Refines x y) (h' : Refines y x) : EndsLike Eq x y := by
  cases x with
  | ok a =>
      rw [h a rfl]
      exact refl _
  | error e => cases y with
    | ok b => cases h' b rfl
    | error e' => exact trivial

theorem symm {x y : Except ε α} (h : EndsLike Eq x y) : EndsLike Eq y x := by
  cases x with
  | ok a => cases y with
    | ok b => exact Eq.symm (a := a) h
    | error e => exact h
  | error e => cases y with
    | ok b => exact h
    | error e' => exact h

theorem mapM {ι : Type} {f : α → Except ε γ} {g : ι → Except ε γ} {as : List α} {bs : List ι}
    (h : List.Forall₂ (fun a b => EndsLike Eq (f a) (g b)) as bs) :
    EndsLike Eq (as.mapM f) (bs.mapM g) := by
  have hback : List.Forall₂ (fun b a => Refines (g b) (f a)) bs as :=
    (h.imp fun _ _ hab => hab.symm.refines).flip
  exact of_refines (.mapM (h.imp fun _ _ hab => hab.refines)) (.mapM hback)

end EndsLike

namespace RunsLike

variable {ε σ α β γ δ : Type} {Q : α → β → Prop} {S : γ → δ → Prop}
  {x : ExceptT ε (StateM σ) α} {y : ExceptT ε (StateM σ) β}

theorem refl (x : ExceptT ε (StateM σ) α) : RunsLike Eq x x := fun _ => ⟨.refl _, rfl⟩

theorem pure {a : α} {b : β} (h : Q a b) :
    RunsLike Q (pure a : ExceptT ε (StateM σ) α) (pure b) := fun _ => ⟨h, rfl⟩

theorem throw (e e' : ε) : RunsLike Q (throw e : ExceptT ε (StateM σ) α) (throw e') :=
  fun _ => ⟨trivial, rfl⟩

theorem lift {x : Except ε α} {y : Except ε β} (h : EndsLike Q x y) :
    RunsLike Q (liftM x : ExceptT ε (StateM σ) α) (liftM y) := by
  intro m
  cases x with
  | ok a => cases y with
    | ok b => exact ⟨h, rfl⟩
    | error e => exact h.elim
  | error e => cases y with
    | ok b => exact h.elim
    | error e' => exact ⟨trivial, rfl⟩

theorem bind {f : α → ExceptT ε (StateM σ) γ} {g : β → ExceptT ε (StateM σ) δ}
    (h : RunsLike Q x y) (hfg : ∀ a b, Q a b → RunsLike S (f a) (g b)) :
    RunsLike S (x >>= f) (y >>= g) := by
  intro m
  have hm := h m
  rw [run_bind, run_bind]
  revert hm
  rcases x m with ⟨_ | a, m₁⟩
  · rcases y m with ⟨_ | b, m₂⟩
    · exact id
    · exact fun hm => hm.1.elim
  · rcases y m with ⟨_ | b, m₂⟩
    · exact fun hm => hm.1.elim
    · rintro ⟨hab, rfl⟩
      exact hfg a b hab m₂

/-- Steps with the same result first. -/
theorem bind_eq {x y : ExceptT ε (StateM σ) α} {f : α → ExceptT ε (StateM σ) γ}
    {g : α → ExceptT ε (StateM σ) δ} (h : RunsLike Eq x y)
    (hfg : ∀ a, RunsLike S (f a) (g a)) : RunsLike S (x >>= f) (y >>= g) := by
  refine h.bind ?_
  rintro a _ rfl
  exact hfg a

/-- The same step first. -/
theorem after (x : ExceptT ε (StateM σ) α) {f : α → ExceptT ε (StateM σ) γ}
    {g : α → ExceptT ε (StateM σ) δ} (hfg : ∀ a, RunsLike S (f a) (g a)) :
    RunsLike S (x >>= f) (x >>= g) := (refl x).bind_eq hfg

/-- One action succeeds if and only if the other one does. -/
theorem isOk_eq (h : RunsLike Q x y) (m : σ) : (y m).1.isOk = (x m).1.isOk := by
  have hends := (h m).1
  revert hends
  cases (x m).1 with
  | ok a => cases (y m).1 with
    | ok b => exact fun _ => rfl
    | error e => exact fun hends => hends.elim
  | error e => cases (y m).1 with
    | ok b => exact fun hends => hends.elim
    | error e' => exact fun _ => rfl

end RunsLike

end OpenQasm
