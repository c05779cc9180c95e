import OpenQasm.Proofs.Modifiers.Handover
import OpenQasm.Proofs.Quantum.Simulation
import Mathlib.Data.List.Count
import Mathlib.Data.List.Nodup

/-!
# Leaves that a backend accepts

A backend that refuses operations with a repeated qubit refuses every leaf that takes
a control qubit for two arguments, unless nothing is sent for the leaf: this is so for
a Fourier transform with the exponent zero or without qubits.
-/
namespace OpenQasm

/-- A backend that refuses operations in which a qubit occurs twice. -/
def Backend.RefusesRepeats (R B : Type) [Backend R B] : Prop :=
  ∀ (op : Operation (Amplitude R)) (b : B), (Backend.apply op b).1 = .ok () → op.qubits.Nodup

theorem Simulator.refusesRepeats (R : Type) [Scalar R] :
    Backend.RefusesRepeats R (Simulator R) := by
  intro op b h
  change (Simulator.apply op b).1 = _ at h
  rcases Simulator.apply_cases op b with ⟨hfits, -⟩ | ⟨-, e, hrefused⟩
  · exact hfits.nodup
  · rw [hrefused] at h
    cases h

/-! What is written down for a leaf -/

theorem zip_replicate_length {α β : Type} (b : β) (as : List α) :
    (List.replicate as.length b).zip as = as.map fun a => (b, a) := by
  induction as with
  | nil => rfl
  | cons a as ih =>
      rw [List.length_cons, List.replicate_succ, List.zip_cons_cons, ih, List.map_cons]

theorem Applied.zip_polarity (as : List Applied) :
    (as.flatMap polarity).zip (as.flatMap args) = as.flatMap pairs := by
  induction as with
  | nil => rfl
  | cons a as ih =>
      have hlen : a.polarity.length = a.args.length := by
        cases a with
        | control on args => exact List.length_replicate
        | inverse => rfl
        | power k => rfl
      have hfirst : a.polarity.zip a.args = a.pairs := by
        cases a with
        | control on args => exact zip_replicate_length on args
        | inverse => rfl
        | power k => rfl
      rw [List.flatMap_cons, List.flatMap_cons, List.flatMap_cons, List.zip_append hlen, hfirst, ih]

namespace Scope

variable {R : Type} [Scalar R]

/-- A leaf whose modifiers fold and whose arguments resolve is written down as it resolves. -/
theorem exists_leaf {s : Scope R} {ms : List Modifier} {ps qs : List Expr}
    {folded : FoldedModifiers} {angles : List R} {args : List (List QubitId)} (gate : LeafGate)
    (hfolded : s.resolveModifiers ms = .ok folded) (hangles : ps.mapM s.angle = .ok angles)
    (hargs : qs.mapM s.qubitsOf = .ok args) (hlen : folded.controls.length ≤ qs.length) :
    ∃ l, s.leaf gate ms ps qs = .ok l ∧ s.Resolves gate ms ps qs l ∧ l.gate = gate ∧
      l.power = folded.power ∧ l.controls.map Prod.snd = args.take folded.controls.length ∧
      l.targets = args.drop folded.controls.length := by
  obtain ⟨as, has, hcontrols, hpower, htaken⟩ :=
    applied_of_foldModifiers hfolded hargs (by rw [List.length_nil]; omega)
  simp only [List.length_nil, Nat.sub_zero, List.nil_append, Int64.one_mul] at hcontrols hpower htaken
  have hzip : folded.controls.zip (args.take folded.controls.length) =
      as.flatMap Applied.pairs := by
    rw [← htaken, hcontrols, Applied.zip_polarity]
  refine ⟨⟨gate, angles, folded.power, folded.controls.zip (args.take folded.controls.length),
    args.drop folded.controls.length⟩, ?_, ?_, rfl, rfl, ?_, rfl⟩
  · rw [leaf, hfolded, hangles, hargs]
    rfl
  · refine ⟨as, angles, args.drop folded.controls.length, has, hangles, ?_, ?_⟩
    · rw [htaken, List.take_append_drop]
      exact hargs
    · rw [hzip, hpower]
  · rw [hzip, Applied.map_snd_pairs, htaken]

end Scope

/-! Repeated controls in operations -/

theorem count_le_of_run {run : List QubitId} {args : List (List QubitId)}
    (h : List.Forall₂ (· ∈ ·) run args) (q : QubitId) : args.count [q] ≤ run.count q := by
  induction h with
  | nil => simp
  | @cons q' arg run args hq _ ih =>
      rw [List.count_cons, List.count_cons]
      by_cases harg : arg = [q]
      · subst harg
        rw [List.mem_singleton.1 hq]
        simpa using ih
      · rw [if_neg (by simpa using harg)]
        omega

namespace Scope

variable {R : Type} [Scalar R]

/-- The leaf of a gate with a matrix. If it repeats a control, so does an operation. -/
theorem leaf_of_standardOperations {s : Scope R} {gate : StandardGate} {ms : List Modifier}
    {ps qs : List Expr} {ops : List (Operation (Amplitude R))}
    (h : s.standardOperations gate ms ps qs = .ok ops) :
    ∃ l, s.leaf (.standard gate) ms ps qs = .ok l ∧ s.Resolves (.standard gate) ms ps qs l ∧
      (l.RepeatsControl → ∃ op ∈ ops, ¬op.qubits.Nodup) := by
  obtain ⟨folded, angles, args, runs, hfolded, hangles, hlen, hargs, hruns, rfl⟩ :=
    standardOperations_ok h
  obtain ⟨l, hl, hresolves, -, -, hcontrols, htargets⟩ :=
    exists_leaf (.standard gate) hfolded hangles hargs (by omega)
  refine ⟨l, hl, hresolves, ?_⟩
  rintro ⟨q, -, hq⟩
  rw [hcontrols, htargets, List.take_append_drop] at hq
  have hmem : [q] ∈ args := List.count_pos_iff.1 (by omega)
  obtain ⟨run, hrun⟩ := List.exists_mem_of_ne_nil _ (broadcast_ne_nil hruns hmem (by simp))
  refine ⟨_, List.mem_map_of_mem hrun, fun hnodup => ?_⟩
  rw [qubits_operation] at hnodup
  have hle := count_le_of_run (forall2_broadcast hruns run hrun) q
  have hone := List.nodup_iff_count_le_one.1 hnodup q
  omega

end Scope

namespace Fourier

variable {R : Type} [Scalar R]

theorem hadamard_mem_rotations (controls : List Control) {qs : List QubitId} {q : QubitId}
    (hq : q ∈ qs) : ⟨StandardGate.matrixH, controls, [q]⟩ ∈
      (rotations controls qs : List (Operation (Amplitude R))) := by
  induction qs with
  | nil => cases hq
  | cons q' qs ih =>
      rcases List.mem_cons.1 hq with rfl | hq
      · exact List.mem_cons_self
      · exact List.mem_cons_of_mem _ (List.mem_append_right _ (ih hq))

/-- If a control is repeated or also transformed, some operation repeats a qubit. -/
theorem exists_not_nodup {controls : List Control} {qs : List QubitId} (hqs : qs ≠ [])
    {q : QubitId} (hq : 2 ≤ (controls.map Control.qubit).count q ∨
      q ∈ controls.map Control.qubit ∧ q ∈ qs) :
    ∃ op ∈ (operations controls qs : List (Operation (Amplitude R))), ¬op.qubits.Nodup := by
  have hop : ∀ r ∈ qs, ⟨StandardGate.matrixH, controls, [r]⟩ ∈
      (operations controls qs : List (Operation (Amplitude R))) :=
    fun r hr => List.mem_append_left _ (hadamard_mem_rotations controls hr)
  rcases hq with hq | ⟨hcontrol, hq⟩
  · obtain ⟨r, hr⟩ := List.exists_mem_of_ne_nil _ hqs
    refine ⟨_, hop r hr, fun hnodup => ?_⟩
    have hone := List.nodup_iff_count_le_one.1 (List.nodup_append.1 hnodup).1 q
    exact absurd (Nat.le_trans hq hone) (by decide)
  · refine ⟨_, hop q hq, fun hnodup => ?_⟩
    exact (List.nodup_append.1 hnodup).2.2 q hcontrol q (List.mem_singleton_self q) rfl

theorem exists_not_nodup_inverse {controls : List Control} {qs : List QubitId}
    (h : ∃ op ∈ (operations controls qs : List (Operation (Amplitude R))), ¬op.qubits.Nodup) :
    ∃ op ∈ (inverseOperations controls qs : List (Operation (Amplitude R))),
      ¬op.qubits.Nodup := by
  obtain ⟨op, hop, hnodup⟩ := h
  exact ⟨op.adjoint, List.mem_map_of_mem (List.mem_reverse.2 hop), hnodup⟩

end Fourier

/-- A Fourier transform that nothing is sent for. -/
def Leaf.idle {R : Type} (l : Leaf R) : Bool :=
  match l.gate with
  | .standard _ => false
  | _ => l.power = 0 || l.targets.flatten.isEmpty

namespace Scope

variable {R : Type} [Scalar R]

/-- The leaf of a Fourier transform. If it repeats a control, so does an operation. -/
theorem leaf_of_fourierCall {s : Scope R} {b : Builtin} {ms : List Modifier} {ps qs : List Expr}
    {c : FourierCall} (h : s.fourierCall b ms ps qs = .ok c) (gate : LeafGate) :
    ∃ l, s.leaf gate ms ps qs = .ok l ∧ s.Resolves gate ms ps qs l ∧ l.gate = gate ∧
      c.times = l.power.toInt.natAbs ∧ c.register = l.targets.flatten ∧
      (l.RepeatsControl → c.register ≠ [] →
        ∃ op ∈ (Fourier.operations c.controls c.register : List (Operation (Amplitude R))),
          ¬op.qubits.Nodup) := by
  obtain ⟨folded, cqs, registers, rfl, hfolded, hlen, hcqs, hargs, hc, hregister, htimes, -⟩ :=
    fourierCall_ok h
  obtain ⟨l, hl, hresolves, hgate, hpower, hcontrols, htargets⟩ :=
    exists_leaf gate hfolded (mapM_nil_ok_iff.2 rfl) hargs (by omega)
  have hmap : (cqs.map fun q => [q]).length = folded.controls.length := by
    rw [List.length_map, hcqs]
  rw [List.take_left' hmap] at hcontrols
  rw [List.drop_left' hmap] at htargets
  refine ⟨l, hl, hresolves, hgate, by rw [htimes, hpower], by rw [hregister, htargets], ?_⟩
  rintro ⟨q, hq, htwo⟩ hne
  rw [hcontrols] at hq htwo
  rw [htargets, List.count_append, List.count_map_of_injective _ _ List.singleton_injective] at htwo
  have hqubits : c.controls.map Control.qubit = cqs := by
    rw [hc, map_qubit_zipWith (by omega)]
  refine Fourier.exists_not_nodup hne (q := q) ?_
  rw [hqubits, hregister]
  by_cases hmem : [q] ∈ registers
  · obtain ⟨q', hq', heq⟩ := List.mem_map.1 hq
    cases heq
    exact .inr ⟨hq', List.mem_flatten.2 ⟨[q], hmem, List.mem_singleton_self q⟩⟩
  · rw [List.count_eq_zero.2 hmem] at htwo
    exact .inl htwo

end Scope

end OpenQasm
