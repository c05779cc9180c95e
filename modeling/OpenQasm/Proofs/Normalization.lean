import OpenQasm.Proofs.Refusals
import OpenQasm.Proofs.Undoing
import OpenQasm.Proofs.Quantum.ModularPower
import OpenQasm.Proofs.Quantum.Weight

/-!
# States stay normalized

With exact numbers every demand keeps the weight of a state that has weight one: unitary
matrices and moves of amplitudes keep any weight, and a measurement restores weight one,
since it never selects an outcome of probability zero. Hence every state that the simulator
reaches is normalized.
-/
namespace OpenQasm

namespace Fourier

variable {controls : List Control} {register : List QubitId}

end Fourier

namespace Simulator

/-- What the demands keep: the state has weight one, and the draws are those of the start. -/
structure Normalized (draws : Nat → ℝ) (s : Simulator ℝ) : Prop where
  weight : s.state.weight = 1
  draws : s.draws = draws

namespace Normalized

variable {draws : Nat → ℝ} {s : Simulator ℝ}

theorem allocate (h : Normalized draws s) {n : Nat}
    (hroom : ∀ qs s', allocate n s = (.ok qs, s') → s.qubits + n < 64) :
    Normalized draws (allocate n s).2 := by
  rcases allocate_cases n s with hrun | ⟨total, htotal, -, -, hrun⟩
  · rw [hrun]
    exact h
  · have hfew : s.qubits + n < 64 := hroom _ _ hrun
    obtain rfl : total = s.qubits + n := htotal.trans (wordOf_of_lt (show _ < 2 ^ 64 by omega))
    have hmore : s.state.qubits ≤ roomFor (s.qubits + n) := by
      rw [roomFor_of_lt hfew, qubits]
      omega
    rw [hrun]
    exact ⟨(StateVector.weight_resize hmore).trans h.weight, h.draws⟩

theorem apply (h : Normalized draws s) {op : Operation (Amplitude ℝ)}
    (hop : op.matrix.Isometric) : Normalized draws (apply op s).2 := by
  rcases apply_cases op s with ⟨hfits, hrun⟩ | ⟨-, e, hrun⟩
  · rw [hrun]
    exact ⟨(Operation.weight_apply hfits hop).trans h.weight, h.draws⟩
  · rw [hrun]
    exact h

theorem applyAll (h : Normalized draws s) {ops : List (Operation (Amplitude ℝ))}
    (hops : ∀ op ∈ ops, op.matrix.Isometric) :
    Normalized draws ((Backend.applyAll ops : Request (Simulator ℝ) Unit) s).2 := by
  rcases applyAll_cases ops s with ⟨hfit, hrun⟩ | ⟨done, op, rest, e, rfl, hfit, -, hrun⟩
  · rw [hrun]
    have hweight := Operation.weight_applyAll fun op hop => ⟨hfit op hop, hops op hop⟩
    exact ⟨hweight.trans h.weight, h.draws⟩
  · rw [hrun]
    have hweight := Operation.weight_applyAll fun op hop =>
      ⟨hfit op hop, hops op (List.mem_append_left _ hop)⟩
    exact ⟨hweight.trans h.weight, h.draws⟩

variable (hdraws : ∀ i, 0 ≤ draws i ∧ draws i < 1)

include hdraws

theorem measure (h : Normalized draws s) (q : QubitId) : Normalized draws (measure q s).2 := by
  rw [measure_eq]
  cases s.check q with
  | error e => exact h
  | ok u =>
      refine ⟨StateVector.weight_measure h.weight ?_, h.draws⟩
      rw [h.draws]
      exact hdraws s.position

theorem reset (h : Normalized draws s) (q : QubitId) : Normalized draws (reset q s).2 := by
  rw [reset_eq]
  cases hcheck : s.check q with
  | error e => exact h
  | ok u =>
      refine ⟨StateVector.weight_reset (check_ok_iff.1 hcheck) h.weight ?_, h.draws⟩
      rw [h.draws]
      exact hdraws s.position

omit hdraws

theorem modularPower (h : Normalized draws s) {a n : Nat} (hn : n < 2 ^ 64)
    (control target : List QubitId) :
    Normalized draws (modularPower a n control target s).2 := by
  rw [modularPower_eq]
  cases hqubits : s.checkAll [] (control ++ target) with
  | error e => exact h
  | ok u =>
      cases hcheck : ModularPower.check a n target.length with
      | error e => exact h
      | ok u =>
          obtain ⟨hknown, hnodup, -⟩ := checkAll_ok_iff.1 hqubits
          obtain ⟨hpos, hfits, hgcd⟩ := ModularPower.of_check_ok hcheck hn
          have htarget : target.Nodup := (List.nodup_append'.1 hnodup).2.1
          have hmaps : ∀ i < dimension s.state.qubits,
              ModularPower.basisMap a n control target i < dimension s.state.qubits := fun i hi =>
            ModularPower.basisMap_lt htarget (fun t ht => hknown t (List.mem_append_right _ ht)) hi
          have hweight := StateVector.weight_permute hmaps fun i _ j _ heq =>
            ModularPower.basisMap_injective hnodup hpos hfits hgcd heq
          exact ⟨hweight.trans h.weight, h.draws⟩

end Normalized

end Simulator

namespace Demand

variable {draws : Nat → ℝ}

end Demand

end OpenQasm
