/-!
# Sequencing

Parts of a computation that may fail, one after the other: results, and actions on a state.
What a sequence makes is settled by what its first part makes.
-/
namespace OpenQasm

/-! Results one after the other -/

section Results

variable {ε α β γ : Type}

@[simp] theorem ok_bind (a : α) (f : α → Except ε β) : ((.ok a : Except ε α) >>= f) = f a := rfl

@[simp] theorem error_bind (e : ε) (f : α → Except ε β) :
    ((.error e : Except ε α) >>= f) = .error e := rfl

theorem bind_ok_iff {x : Except ε α} {f : α → Except ε β} {b : β} :
    (x >>= f) = .ok b ↔ ∃ a, x = .ok a ∧ f a = .ok b := by
  cases x with
  | error e => simp
  | ok a => simp

theorem pure_ok_iff {a b : α} : (pure a : Except ε α) = .ok b ↔ a = b :=
  ⟨Except.ok.inj, congrArg _⟩

/-- Two parts whose results make up the result of the sequence. -/
theorem bind_bind_ok_iff {x : Except ε α} {f : α → Except ε β} {g : α → β → γ} {c : γ} :
    (do let a ← x; let b ← f a; return g a b) = .ok c ↔
      ∃ a b, x = .ok a ∧ f a = .ok b ∧ c = g a b := by
  simp only [bind_ok_iff, pure_ok_iff]
  constructor
  · rintro ⟨a, ha, b, hb, rfl⟩
    exact ⟨a, b, ha, hb, rfl⟩
  · rintro ⟨a, b, ha, hb, rfl⟩
    exact ⟨a, ha, b, hb, rfl⟩

theorem map_ok_iff {x : Except ε α} {f : α → β} {b : β} :
    x.map f = .ok b ↔ ∃ a, x = .ok a ∧ f a = b := by
  cases x with
  | error e => simp [Except.map]
  | ok a => simp [Except.map]

theorem mapM_nil_ok_iff {f : α → Except ε β} {bs : List β} :
    ([] : List α).mapM f = .ok bs ↔ bs = [] := by
  rw [List.mapM_nil, pure_ok_iff, eq_comm]

theorem mapM_cons_ok_iff {f : α → Except ε β} {a : α} {as : List α} {bs : List β} :
    (a :: as).mapM f = .ok bs ↔ ∃ b bs', f a = .ok b ∧ as.mapM f = .ok bs' ∧ bs = b :: bs' := by
  rw [List.mapM_cons]
  exact bind_bind_ok_iff

theorem mapM_append_ok_iff {f : α → Except ε β} {as as' : List α} {bs : List β} :
    (as ++ as').mapM f = .ok bs ↔
      ∃ cs cs', as.mapM f = .ok cs ∧ as'.mapM f = .ok cs' ∧ bs = cs ++ cs' := by
  induction as generalizing bs with
  | nil =>
      rw [List.nil_append]
      constructor
      · intro h
        exact ⟨[], bs, rfl, h, rfl⟩
      · rintro ⟨cs, cs', hcs, hcs', rfl⟩
        rwa [mapM_nil_ok_iff.1 hcs, List.nil_append]
  | cons a as ih =>
      simp only [List.cons_append, mapM_cons_ok_iff, ih]
      constructor
      · rintro ⟨b, bs', hb, ⟨cs, cs', hcs, hcs', rfl⟩, rfl⟩
        exact ⟨b :: cs, cs', ⟨b, cs, hb, hcs, rfl⟩, hcs', rfl⟩
      · rintro ⟨_, cs', ⟨b, cs, hb, hcs, rfl⟩, hcs', rfl⟩
        exact ⟨b, cs ++ cs', hb, ⟨cs, cs', hcs, hcs', rfl⟩, rfl⟩

theorem length_of_mapM {f : α → Except ε β} {as : List α} {bs : List β} (h : as.mapM f = .ok bs) :
    bs.length = as.length := by
  induction as generalizing bs with
  | nil => simp [mapM_nil_ok_iff.1 h]
  | cons a as ih =>
      obtain ⟨b, bs', -, hbs, rfl⟩ := mapM_cons_ok_iff.1 h
      simp [ih hbs]

theorem exists_of_mem_mapM {f : α → Except ε β} {as : List α} {bs : List β}
    (h : as.mapM f = .ok bs) {b : β} (hb : b ∈ bs) : ∃ a ∈ as, f a = .ok b := by
  induction as generalizing bs with
  | nil =>
      rw [mapM_nil_ok_iff.1 h] at hb
      cases hb
  | cons a as ih =>
      obtain ⟨b', bs', hb', hbs, rfl⟩ := mapM_cons_ok_iff.1 h
      rcases List.mem_cons.1 hb with rfl | hb
      · exact ⟨a, List.mem_cons_self, hb'⟩
      · obtain ⟨a', ha', hfa⟩ := ih hbs hb
        exact ⟨a', List.mem_cons_of_mem a ha', hfa⟩

end Results

/-! Actions one after the other -/

section Runs

variable {σ ε α β : Type}

theorem run_bind (x : ExceptT ε (StateM σ) α) (f : α → ExceptT ε (StateM σ) β) (s : σ) :
    (x >>= f) s = match x s with
      | (.ok a, s₁) => f a s₁
      | (.error e, s₁) => (.error e, s₁) := by
  simp only [Bind.bind, ExceptT.bind, ExceptT.mk, StateT.bind]
  rcases x s with ⟨result, s₁⟩
  cases result with
  | error e => rfl
  | ok a => rfl

theorem run_bind_of_ok {x : ExceptT ε (StateM σ) α} {s s₁ : σ} {a : α} (h : x s = (.ok a, s₁))
    (f : α → ExceptT ε (StateM σ) β) : (x >>= f) s = f a s₁ := by
  rw [run_bind, h]

theorem run_bind_of_error {x : ExceptT ε (StateM σ) α} {s s₁ : σ} {e : ε}
    (h : x s = (.error e, s₁)) (f : α → ExceptT ε (StateM σ) β) :
    (x >>= f) s = (.error e, s₁) := by
  rw [run_bind, h]

theorem ran_bind {x : ExceptT ε (StateM σ) α} {g : α → ExceptT ε (StateM σ) β} {s s' : σ} {b : β} :
    (x >>= g) s = (.ok b, s') ↔ ∃ a s₁, x s = (.ok a, s₁) ∧ g a s₁ = (.ok b, s') := by
  rw [run_bind]
  rcases x s with ⟨result, s₁⟩
  cases result with
  | error e =>
      constructor
      · intro h
        cases h
      · rintro ⟨a, s₁, h, -⟩
        cases h
  | ok a =>
      constructor
      · intro h
        exact ⟨a, s₁, rfl, h⟩
      · rintro ⟨a', s₂, h, hg⟩
        cases h
        exact hg

theorem ran_lift {x : Except ε α} {s s' : σ} {a : α} :
    (liftM x : ExceptT ε (StateM σ) α) s = (.ok a, s') ↔ x = .ok a ∧ s = s' := by
  cases x with
  | error e =>
      constructor
      · intro h
        cases h
      · rintro ⟨h, -⟩
        cases h
  | ok a' =>
      constructor
      · intro h
        cases h
        exact ⟨rfl, rfl⟩
      · rintro ⟨h, rfl⟩
        cases h
        rfl

theorem ran_pure {s s' : σ} {a b : α} :
    (pure a : ExceptT ε (StateM σ) α) s = (.ok b, s') ↔ a = b ∧ s = s' := by
  constructor
  · intro h
    cases h
    exact ⟨rfl, rfl⟩
  · rintro ⟨rfl, rfl⟩
    rfl

theorem exists_of_isOk {x : Except ε α × σ} (h : x.1.isOk = true) : ∃ a, x = (.ok a, x.2) := by
  obtain ⟨result, s⟩ := x
  cases result with
  | error e => cases h
  | ok a => exact ⟨a, rfl⟩

end Runs

end OpenQasm
