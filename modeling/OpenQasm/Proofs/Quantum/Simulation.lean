import OpenQasm.Proofs.Modifiers.Resolution
import OpenQasm.Proofs.Quantum.Operations
import OpenQasm.Quantum.Simulator

/-!
# Requests to the simulator

The simulator applies an operation exactly if it fits its state, and is left as it was
otherwise. A sequence of operations is applied up to the first one that does not fit.
-/
namespace OpenQasm

namespace Operation

variable {A : Type}

theorem firstRepeat?_eq_none_iff {seen qs : List QubitId} :
    firstRepeat? seen qs = none ↔ qs.Nodup ∧ ∀ q ∈ qs, q ∉ seen := by
  induction qs generalizing seen with
  | nil => simp [firstRepeat?]
  | cons q qs ih =>
      rw [firstRepeat?, List.nodup_cons, List.forall_mem_cons]
      split
      · rename_i hq
        simp [hq]
      · rename_i hq
        rw [ih]
        simp only [List.mem_cons, not_or]
        constructor
        · rintro ⟨hnodup, hseen⟩
          exact ⟨⟨fun hmem => (hseen q hmem).1 rfl, hnodup⟩, hq, fun r hr => (hseen r hr).2⟩
        · rintro ⟨⟨hmem, hnodup⟩, -, hseen⟩
          exact ⟨hnodup, fun r hr => ⟨fun heq => hmem (heq ▸ hr), hseen r hr⟩⟩

theorem validate_ok_iff {op : Operation A} :
    op.validate = .ok () ↔ op.matrix.qubits = op.targets.length ∧ op.qubits.Nodup := by
  unfold validate
  split
  · rename_i hcount
    simp [hcount]
  · rename_i hcount
    have hrepeat : firstRepeat? [] op.qubits = none ↔ op.qubits.Nodup := by
      simp [firstRepeat?_eq_none_iff]
    split
    · rename_i q hq
      simp [← hrepeat, hq]
    · rename_i hnone
      simp [hrepeat.1 hnone, not_not.1 hcount]

end Operation

namespace Simulator

variable {R : Type}

/-- Two simulators with the same qubits. -/
structure SameSize (s s' : Simulator R) : Prop where
  room : s'.state.qubits = s.state.qubits
  excess : s'.excess = s.excess
  limit : s'.limit = s.limit

namespace SameSize

theorem refl (s : Simulator R) : SameSize s s := ⟨rfl, rfl, rfl⟩

theorem trans {s s' s'' : Simulator R} (h : SameSize s s') (h' : SameSize s' s'') :
    SameSize s s'' :=
  ⟨h'.room.trans h.room, h'.excess.trans h.excess, h'.limit.trans h.limit⟩

theorem qubits {s s' : Simulator R} (h : SameSize s s') : s'.qubits = s.qubits :=
  congrArg₂ (· + ·) h.room h.excess

end SameSize

theorem check_ok_iff {s : Simulator R} {q : QubitId} :
    s.check q = .ok () ↔ q < s.state.qubits := by
  unfold check
  split
  · rename_i hq
    simp [hq]
  · rename_i hq
    split <;> simp [hq]

theorem checkAll_ok_iff {s : Simulator R} {seen qs : List QubitId} :
    s.checkAll seen qs = .ok () ↔
      (∀ q ∈ qs, q < s.state.qubits) ∧ qs.Nodup ∧ ∀ q ∈ qs, q ∉ seen := by
  induction qs generalizing seen with
  | nil => simp [checkAll]
  | cons q qs ih =>
      rw [checkAll, bind_ok_iff, List.nodup_cons, List.forall_mem_cons, List.forall_mem_cons]
      by_cases hq : q ∈ seen
      · simp only [if_pos hq]
        constructor
        · rintro ⟨-, -, h⟩
          cases h
        · rintro ⟨-, -, h, -⟩
          exact absurd hq h
      · simp only [if_neg hq]
        constructor
        · rintro ⟨⟨⟩, hcheck, h⟩
          obtain ⟨hknown, hnodup, hseen⟩ := ih.1 h
          simp only [List.mem_cons, not_or] at hseen
          exact ⟨⟨check_ok_iff.1 hcheck, hknown⟩, ⟨fun hmem => (hseen q hmem).1 rfl, hnodup⟩, hq,
            fun r hr => (hseen r hr).2⟩
        · rintro ⟨⟨hlt, hknown⟩, ⟨hmem, hnodup⟩, -, hseen⟩
          refine ⟨(), check_ok_iff.2 hlt, ih.2 ⟨hknown, hnodup, fun r hr => ?_⟩⟩
          rw [List.mem_cons, not_or]
          exact ⟨fun heq => hmem (heq ▸ hr), hseen r hr⟩

theorem checkControls_ok_iff {s : Simulator R} {cs : List Control} :
    s.checkControls cs = .ok () ↔ ∀ c ∈ cs, c.qubit < s.state.qubits := by
  unfold checkControls
  induction cs with
  | nil => exact iff_of_true rfl nofun
  | cons c cs ih =>
      rw [List.forM, bind_ok_iff, List.forall_mem_cons, ← ih]
      constructor
      · rintro ⟨⟨⟩, hcheck, h⟩
        exact ⟨check_ok_iff.1 hcheck, h⟩
      · rintro ⟨hlt, h⟩
        exact ⟨(), check_ok_iff.2 hlt, h⟩

/-- The three checks of an operation come down to one condition. -/
theorem fits_iff {s : Simulator R} {op : Operation (Amplitude R)} :
    op.Fits s.state.qubits ↔
      op.validate = .ok () ∧ s.checkAll [] op.targets = .ok () ∧
        s.checkControls op.controls = .ok () := by
  rw [Operation.validate_ok_iff, checkAll_ok_iff, checkControls_ok_iff]
  constructor
  · rintro ⟨htargets, hnodup, hknown⟩
    refine ⟨⟨htargets, hnodup⟩, ⟨?_, Operation.nodup_targets hnodup, by simp⟩, ?_⟩
    · exact fun q hq => hknown q (List.mem_append_right _ hq)
    · exact fun c hc => hknown c.qubit (List.mem_append_left _ (List.mem_map_of_mem hc))
  · rintro ⟨⟨htargets, hnodup⟩, ⟨hknown, -⟩, hcontrols⟩
    refine ⟨htargets, hnodup, fun q hq => ?_⟩
    rcases List.mem_append.1 hq with hq | hq
    · obtain ⟨c, hc, rfl⟩ := List.mem_map.1 hq
      exact hcontrols c hc
    · exact hknown q hq

variable [Scalar R]

@[simp] theorem qubits_resize (n : Nat) (s : Simulator R) : (s.resize n).qubits = n :=
  Nat.add_sub_cancel' (roomFor_le n)

theorem apply_eq (op : Operation (Amplitude R)) (s : Simulator R) :
    apply op s = (do
      liftM op.validate
      liftM (s.checkAll [] op.targets)
      liftM (s.checkControls op.controls)
      set { s with state := op.apply s.state } : Request (Simulator R) Unit) s := rfl

theorem measure_eq (q : QubitId) (s : Simulator R) :
    measure q s = (do
      liftM (s.check q)
      set { s with
        state := (s.state.measure q (s.draws s.position)).2
        position := s.position + 1 }
      return (s.state.measure q (s.draws s.position)).1 : Request (Simulator R) Bool) s := rfl

theorem reset_eq (q : QubitId) (s : Simulator R) :
    reset q s = (do
      liftM (s.check q)
      set { s with
        state := s.state.reset q (s.draws s.position)
        position := s.position + 1 } : Request (Simulator R) Unit) s := rfl

theorem qubits_reset (q : QubitId) (draw : R) (v : StateVector (Amplitude R)) :
    (v.reset q draw).qubits = v.qubits := by
  unfold StateVector.reset
  dsimp only
  split <;> rfl

theorem modularPower_eq (a n : Nat) (control target : List QubitId) (s : Simulator R) :
    modularPower a n control target s = (do
      liftM (s.checkAll [] (control ++ target))
      liftM (ModularPower.check a n target.length)
      set { s with state := s.state.permute (ModularPower.basisMap a n control target) } :
        Request (Simulator R) Unit) s := rfl

/-- An allocation is refused, or adds qubits with the next numbers. -/
theorem allocate_cases (n : Nat) (s : Simulator R) :
    allocate n s = (.error (.capacity n s.qubits s.limit), s) ∨
      ∃ total, total = wordOf (s.qubits + n) ∧ total ≤ s.limit ∧
        (s.qubits < total → total ≤ 2 ^ 32) ∧ allocate n s =
          (.ok ((List.range (total - s.qubits)).map (s.qubits + ·)), s.resize total) := by
  obtain ⟨total, htotal⟩ : ∃ total, total = wordOf (s.qubits + n) := ⟨_, rfl⟩
  have heq : allocate n s = (do
      if s.limit < total ∨ s.qubits < total ∧ 2 ^ 32 < total then
        throw (.capacity n s.qubits s.limit)
      set (s.resize total)
      return (List.range (total - s.qubits)).map (s.qubits + ·) :
        Request (Simulator R) (List QubitId)) s := by
    rw [htotal]
    rfl
  by_cases hlimit : s.limit < total ∨ s.qubits < total ∧ 2 ^ 32 < total
  · rw [heq, if_pos hlimit]
    exact .inl rfl
  · rw [heq, if_neg hlimit]
    push Not at hlimit
    exact .inr ⟨total, htotal, hlimit.1, hlimit.2, rfl⟩

/-- An operation is applied if it fits, and refused without a trace otherwise. -/
theorem apply_cases (op : Operation (Amplitude R)) (s : Simulator R) :
    (op.Fits s.state.qubits ∧ apply op s = (.ok (), { s with state := op.apply s.state })) ∨
      (¬op.Fits s.state.qubits ∧ ∃ e, apply op s = (.error e, s)) := by
  rw [fits_iff, apply_eq]
  cases op.validate with
  | error e => exact .inr ⟨by simp, e, rfl⟩
  | ok u =>
      cases s.checkAll [] op.targets with
      | error e => exact .inr ⟨by simp, e, rfl⟩
      | ok u =>
          cases s.checkControls op.controls with
          | error e => exact .inr ⟨by simp, e, rfl⟩
          | ok u => exact .inl ⟨⟨rfl, rfl, rfl⟩, rfl⟩

/-- Operations in a row are applied if all of them fit. Otherwise those before the first one
that does not are applied. -/
theorem applyAll_cases (ops : List (Operation (Amplitude R))) (s : Simulator R) :
    ((∀ op ∈ ops, op.Fits s.state.qubits) ∧ (Backend.applyAll ops : Request (Simulator R) Unit) s =
        (.ok (), { s with state := Operation.applyAll ops s.state })) ∨
      ∃ done op rest e, ops = done ++ op :: rest ∧ (∀ op ∈ done, op.Fits s.state.qubits) ∧
        ¬op.Fits s.state.qubits ∧ (Backend.applyAll ops : Request (Simulator R) Unit) s =
          (.error e, { s with state := Operation.applyAll done s.state }) := by
  induction ops generalizing s with
  | nil => exact .inl ⟨by simp, rfl⟩
  | cons op ops ih =>
      have hstep : (Backend.applyAll (op :: ops) : Request (Simulator R) Unit) s =
          (apply op >>= fun _ => Backend.applyAll ops : Request (Simulator R) Unit) s := rfl
      rcases apply_cases op s with ⟨hop, happly⟩ | ⟨hop, e, happly⟩
      · have hnext : (Backend.applyAll (op :: ops) : Request (Simulator R) Unit) s =
            (Backend.applyAll ops : Request (Simulator R) Unit)
              { s with state := op.apply s.state } := by
          rw [hstep, run_bind, happly]
        rcases ih { s with state := op.apply s.state } with ⟨hops, hall⟩ | hrefused
        · exact .inl ⟨List.forall_mem_cons.2 ⟨hop, hops⟩, hnext.trans hall⟩
        · obtain ⟨done, refused, rest, e, rfl, hdone, hnot, hall⟩ := hrefused
          exact .inr ⟨op :: done, refused, rest, e, rfl, List.forall_mem_cons.2 ⟨hop, hdone⟩, hnot,
            hnext.trans hall⟩
      · refine .inr ⟨[], op, ops, e, rfl, by simp, hop, ?_⟩
        rw [hstep, run_bind, happly]
        rfl

theorem applyAll_of_fits {ops : List (Operation (Amplitude R))} {s : Simulator R}
    (h : ∀ op ∈ ops, op.Fits s.state.qubits) :
    (Backend.applyAll ops : Request (Simulator R) Unit) s =
      (.ok (), { s with state := Operation.applyAll ops s.state }) := by
  rcases applyAll_cases ops s with ⟨-, hall⟩ | ⟨done, op, rest, e, hops, -, hnot, -⟩
  · exact hall
  · exact absurd (h op (hops ▸ List.mem_append_right _ List.mem_cons_self)) hnot

/-- A sequence none of which fits is refused before anything is done. -/
theorem applyAll_refused {ops : List (Operation (Amplitude R))} {s : Simulator R} (hne : ops ≠ [])
    (h : ∀ op ∈ ops, ¬op.Fits s.state.qubits) :
    ∃ e, (Backend.applyAll ops : Request (Simulator R) Unit) s = (.error e, s) := by
  obtain ⟨op, rest, rfl⟩ := List.exists_cons_of_ne_nil hne
  rcases applyAll_cases (op :: rest) s with
    ⟨hall, -⟩ | ⟨done, op', rest', e, hops, hdone, -, hran⟩
  · exact absurd (hall op List.mem_cons_self) (h op List.mem_cons_self)
  · cases done with
    | nil => exact ⟨e, hran⟩
    | cons first done =>
        have hmem : first ∈ op :: rest := hops ▸ List.mem_cons_self
        exact absurd (hdone first List.mem_cons_self) (h first hmem)

theorem of_applyAll_ok {ops : List (Operation (Amplitude R))} {s s' : Simulator R}
    (h : (Backend.applyAll ops : Request (Simulator R) Unit) s = (.ok (), s')) :
    (∀ op ∈ ops, op.Fits s.state.qubits) ∧
      s' = { s with state := Operation.applyAll ops s.state } := by
  rcases applyAll_cases ops s with ⟨hops, hall⟩ | ⟨done, op, rest, e, -, -, -, hall⟩
  · rw [hall] at h
    cases h
    exact ⟨hops, rfl⟩
  · rw [hall] at h
    cases h

end Simulator

end OpenQasm
