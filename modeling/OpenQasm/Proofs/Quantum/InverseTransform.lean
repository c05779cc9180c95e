import OpenQasm.Proofs.Quantum.Fourier

/-!
# The inverse transform

The inverse transform makes the adjoints of the circuit's operations in the opposite order.
With exact gates each of them undoes the operation it is the adjoint of, so a transform and
the inverse one after it, in either order, leave a simulator as it was. The controls have to
be different qubits that the simulator has: otherwise both transforms are refused at their
first operation.
-/
namespace OpenQasm

open Operation

namespace Operation

variable {R : Type} [ExactScalar R] {op : Operation (Amplitude R)} {n : Nat}

theorem fits_adjoint_iff : op.adjoint.Fits n ↔ op.Fits n :=
  ⟨fun h => ⟨h.targets, h.nodup, h.known⟩, fun h => ⟨h.targets, h.nodup, h.known⟩⟩

theorem act_adjoint_act (hexact : op.matrix.Exact) (h : op.Fits n) (f : Nat → Amplitude R) :
    op.adjoint.act (op.act f) = f :=
  act_act_of_mul_eq_one h.nodup (hexact.adjoint_mul h.targets) f

theorem act_act_adjoint (hexact : op.matrix.Exact) (h : op.Fits n) (f : Nat → Amplitude R) :
    op.act (op.adjoint.act f) = f :=
  act_act_of_mul_eq_one (fits_adjoint_iff.2 h).nodup (hexact.mul_adjoint h.targets) f

end Operation

namespace Fourier

variable {R : Type} [ExactScalar R] {cs : List Control} {qs : List QubitId} {n : Nat}

/-- The Hadamard matrix and the phases of the circuit are undone by their adjoints. -/
structure ExactGates (R : Type) [ExactScalar R] : Prop where
  hadamard : (StandardGate.matrixH : Unitary (Amplitude R)).Exact
  phase : ∀ d, (StandardGate.phase (Scalar.pi / Scalar.twoPow d) : Unitary (Amplitude R)).Exact

theorem ExactGates.of_allExact (h : StandardGate.AllExact R) : ExactGates R :=
  ⟨h .h [], fun d => h .p [Scalar.pi / Scalar.twoPow d]⟩

theorem exactGates_real : ExactGates ℝ := .of_allExact StandardGate.allExact_real

theorem exact_phaseSteps (hexact : ExactGates R) {target : QubitId} {d : Nat} :
    ∀ op ∈ (phaseSteps cs target d qs : List (Operation (Amplitude R))), op.matrix.Exact := by
  intro op hop
  obtain ⟨r, -, d', rfl⟩ := exists_of_mem_phaseSteps hop
  exact hexact.phase d'

theorem exact_operations (hexact : ExactGates R) :
    ∀ op ∈ (operations cs qs : List (Operation (Amplitude R))), op.matrix.Exact := by
  refine List.forall_mem_append.2 ⟨?_, List.forall_mem_map.2 fun _ _ => StandardGate.exact_matrixSwap⟩
  induction qs with
  | nil => simp [rotations]
  | cons q qs ih =>
      exact List.forall_mem_cons.2 ⟨hexact.hadamard,
        List.forall_mem_append.2 ⟨exact_phaseSteps hexact, ih⟩⟩

/-- The inverse circuit fits exactly the states that the circuit fits. -/
theorem fits_inverseOperations_iff :
    (∀ op ∈ (inverseOperations cs qs : List (Operation (Amplitude R))), op.Fits n) ↔
      ∀ op ∈ (operations cs qs : List (Operation (Amplitude R))), op.Fits n := by
  simp only [inverseOperations, List.forall_mem_map, List.mem_reverse, fits_adjoint_iff]

theorem inverseOperations_ne_nil (h : qs ≠ []) :
    (inverseOperations cs qs : List (Operation (Amplitude R))) ≠ [] := by
  unfold inverseOperations
  rw [Ne, List.map_eq_nil_iff, List.reverse_eq_nil_iff]
  exact operations_ne_nil h

/-- A transform is undone by the inverse one. -/
theorem actAll_inverseOperations (hexact : ExactGates R)
    (h : ∀ op ∈ (operations cs qs : List (Operation (Amplitude R))), op.Fits n)
    (f : Nat → Amplitude R) :
    actAll (inverseOperations cs qs) (actAll (operations cs qs) f) = f := by
  have hundo := actAll_reverse_map_actAll_map (g := id) (h := adjoint)
    (fun op hop f => act_adjoint_act (exact_operations hexact op hop) (h op hop) f) f
  rwa [List.map_id] at hundo

/-- An inverse transform is undone by the transform. -/
theorem actAll_operations (hexact : ExactGates R)
    (h : ∀ op ∈ (inverseOperations cs qs : List (Operation (Amplitude R))), op.Fits n)
    (f : Nat → Amplitude R) :
    actAll (operations cs qs) (actAll (inverseOperations cs qs) f) = f := by
  have heach : ∀ op ∈ (operations cs qs : List (Operation (Amplitude R))).reverse,
      ∀ f, op.act (op.adjoint.act f) = f := by
    intro op hop f
    have hmem := List.mem_reverse.1 hop
    exact act_act_adjoint (exact_operations hexact op hmem) (fits_inverseOperations_iff.1 h op hmem) f
  have hundo := actAll_reverse_map_actAll_map (g := adjoint) (h := id) heach f
  rwa [List.reverse_reverse, List.map_id] at hundo

end Fourier

/-! Requests that undo each other -/

namespace Simulator

variable {R : Type} [ExactScalar R]

/-- Operations that fit a simulator, and others that undo them, leave it as it was. -/
theorem applyAll_undone {ops ops' : List (Operation (Amplitude R))} {s : Simulator R}
    (hops : ∀ op ∈ ops, op.Fits s.state.qubits) (hops' : ∀ op ∈ ops', op.Fits s.state.qubits)
    (h : ∀ f, actAll ops' (actAll ops f) = f) :
    (do Backend.applyAll ops; Backend.applyAll ops' : Request (Simulator R) Unit) s =
      (.ok (), s) := by
  have hfirst := applyAll_of_fits hops
  have hfits : ∀ op ∈ ops', op.Fits (Operation.applyAll ops s.state).qubits := by
    rwa [qubits_applyAll]
  have hsecond := applyAll_of_fits (s := { s with state := Operation.applyAll ops s.state }) hfits
  have hstate := Operation.applyAll_applyAll hops hops' h
  rw [run_bind, hfirst]
  refine hsecond.trans ?_
  rw [hstate]

end Simulator

namespace Fourier

variable {R : Type} [ExactScalar R] {cs : List Control} {qs : List QubitId}

/-- The circuit fits a state that has the register if the controls are different qubits of the
state, and only then unless it is empty. -/
theorem fits_operations_iff {n : Nat} (hqs : qs.Nodup) (hknown : ∀ q ∈ qs, q < n)
    (hdisjoint : (cs.map Control.qubit).Disjoint qs) :
    (∀ op ∈ (operations cs qs : List (Operation (Amplitude R))), op.Fits n) ↔
      qs = [] ∨ (cs.map Control.qubit).Nodup ∧ ∀ c ∈ cs, c.qubit < n := by
  rw [← List.forall_mem_map (f := Control.qubit) (P := (· < n))]
  constructor
  · intro h
    refine or_iff_not_imp_left.2 fun hne => ?_
    have hne' : (operations cs qs : List (Operation (Amplitude R))) ≠ [] := operations_ne_nil hne
    obtain ⟨op, hop⟩ := List.exists_mem_of_ne_nil _ hne'
    exact controls_of_fits hqs hop (h op hop)
  · rintro (rfl | ⟨hcs, hcslt⟩) op hop
    · cases hop
    · exact fits_of_mem_operations (List.nodup_append'.2 ⟨hcs, hqs, hdisjoint⟩)
        (List.forall_mem_append.2 ⟨hcslt, hknown⟩) hop

/-- On a register of different qubits that a simulator has, under controls outside the register,
the transform followed by its inverse and the inverse followed by the transform both succeed and
leave the simulator as it was, whatever its amplitudes. For this the controls have to be
different qubits of the simulator too. Otherwise both transforms are refused and nothing is
done, except that on an empty register there is nothing to refuse. All that is asked of the
arithmetic is that the gates of the circuit are undone by their adjoints, as over the real
numbers. -/
theorem transforms_undo_each_other :
    (∀ {R : Type} [ExactScalar R], ExactGates R → ∀ (s : Simulator R) {cs : List Control}
      {qs : List QubitId}, qs.Nodup → (∀ q ∈ qs, q < s.state.qubits) →
      (cs.map Control.qubit).Disjoint qs →
      let transform : Request (Simulator R) Unit := Backend.fourier cs qs
      let inverse : Request (Simulator R) Unit := Backend.inverseFourier cs qs
      (qs = [] ∨ (cs.map Control.qubit).Nodup ∧ (∀ c ∈ cs, c.qubit < s.state.qubits) →
        (do transform; inverse : Request (Simulator R) Unit) s = (.ok (), s) ∧
          (do inverse; transform : Request (Simulator R) Unit) s = (.ok (), s)) ∧
      (¬(qs = [] ∨ (cs.map Control.qubit).Nodup ∧ ∀ c ∈ cs, c.qubit < s.state.qubits) →
        (∃ e, transform s = (.error e, s)) ∧ ∃ e, inverse s = (.error e, s))) ∧
      ExactGates ℝ := by
  refine ⟨fun {R} _ hexact s {cs qs} hqs hknown hdisjoint => ⟨fun hcs => ?_, fun hcs => ?_⟩,
    exactGates_real⟩
  · have hfits := (fits_operations_iff (R := R) hqs hknown hdisjoint).2 hcs
    have hfits' := fits_inverseOperations_iff.2 hfits
    exact ⟨Simulator.applyAll_undone hfits hfits' (actAll_inverseOperations hexact hfits),
      Simulator.applyAll_undone hfits' hfits (actAll_operations hexact hfits')⟩
  · obtain ⟨hne, hcontrols⟩ := not_or.1 hcs
    have hrefused : ∀ op ∈ (operations cs qs : List (Operation (Amplitude R))),
        ¬op.Fits s.state.qubits := by
      intro op hop hfits
      obtain ⟨hnodup, hlt⟩ := controls_of_fits hqs hop hfits
      exact hcontrols ⟨hnodup, List.forall_mem_map.1 hlt⟩
    refine ⟨Simulator.applyAll_refused (operations_ne_nil hne) hrefused,
      Simulator.applyAll_refused (inverseOperations_ne_nil hne) fun op hop hfits => ?_⟩
    obtain ⟨op', hop', rfl⟩ := List.mem_map.1 hop
    exact hrefused op' (List.mem_reverse.1 hop') (fits_adjoint_iff.1 hfits)

/-- The qubits 2 and 0, transformed where qubit 1 is zero. -/
theorem transforms_undo_each_other_negctrl :
    let s : Simulator ℝ := ⟨StateVector.basis 3 4, 3, fun _ => 0, 0, 0⟩
    (do Backend.fourier [⟨1, false⟩] [2, 0]; Backend.inverseFourier [⟨1, false⟩] [2, 0] :
      Request (Simulator ℝ) Unit) s = (.ok (), s) ∧
      (do Backend.inverseFourier [⟨1, false⟩] [2, 0]; Backend.fourier [⟨1, false⟩] [2, 0] :
        Request (Simulator ℝ) Unit) s = (.ok (), s) := by
  intro s
  have hqs : ([2, 0] : List QubitId).Nodup := by decide
  have hknown : ∀ q ∈ ([2, 0] : List QubitId), q < 3 := by decide
  have hdisjoint : (([⟨1, false⟩] : List Control).map Control.qubit).Disjoint [2, 0] := by simp
  exact (transforms_undo_each_other.1 exactGates_real s hqs hknown hdisjoint).1
    (.inr ⟨List.nodup_singleton 1, by decide⟩)

noncomputable def zeroPair : Simulator ℝ := ⟨StateVector.initial.resize 2, 2, fun _ => 0, 0, 0⟩

/-- A control that is named twice is refused. -/
theorem repeated_control_refused :
    ¬∀ (s : Simulator ℝ) (cs : List Control) (qs : List QubitId), qs.Nodup →
      (∀ q ∈ qs, q < s.state.qubits) → (cs.map Control.qubit).Disjoint qs →
      (do Backend.fourier cs qs; Backend.inverseFourier cs qs : Request (Simulator ℝ) Unit) s =
        (.ok (), s) := by
  intro h
  have hdisjoint : (([⟨1, true⟩, ⟨1, true⟩] : List Control).map Control.qubit).Disjoint [0] := by
    simp
  have hgranted := h zeroPair _ [0] (by decide) (List.forall_mem_singleton.2 Nat.two_pos) hdisjoint
  have hrefused : (Backend.fourier [⟨1, true⟩, ⟨1, true⟩] [0] : Request (Simulator ℝ) Unit)
      zeroPair = (.error (.duplicateQubit 1), zeroPair) := rfl
  rw [run_bind_of_error hrefused] at hgranted
  cases congrArg Prod.fst hgranted

end Fourier

end OpenQasm
