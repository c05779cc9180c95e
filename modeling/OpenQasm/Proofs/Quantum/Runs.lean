import OpenQasm.Proofs.Quantum.Statements

/-!
# Runs of a gate on registers

A gate on registers is run once for each place. Runs of the gate and of its inverse
commute if they have the same targets, or if neither changes a qubit of the other one. If
registers have no qubit in common and all targets are of one size, this is so for any two
runs, and the inverse can be made in the order of the gate.
-/
namespace OpenQasm

/-! Runs of a gate -/

/-- A run takes one qubit of each argument, so its last qubits are those of the last
arguments. -/
theorem drop_filterMap_picked {n i : Nat} (hi : i < n) {args : List (List QubitId)}
    (h : ∀ arg ∈ args, arg.length = 1 ∨ arg.length = n) (k : Nat) :
    (args.filterMap (picked i)).drop k = (args.drop k).filterMap (picked i) := by
  induction args generalizing k with
  | nil => simp
  | cons arg args ih =>
      obtain ⟨harg, hargs⟩ := List.forall_mem_cons.1 h
      obtain ⟨q, hq⟩ := exists_picked hi harg
      cases k with
      | zero => rfl
      | succ k => rw [List.filterMap_cons_some hq, List.drop_succ_cons, List.drop_succ_cons, ih hargs]

theorem picked_of_length_eq_one {arg : List QubitId} (h : arg.length = 1) {q : QubitId}
    (hq : q ∈ arg) (i : Nat) : picked i arg = some q := by
  obtain ⟨q', rfl⟩ := List.length_eq_one_iff.1 h
  rw [List.mem_singleton.1 hq]
  rfl

/-- Every qubit of an argument takes part in some run. -/
theorem exists_place {n : Nat} (hn : 0 < n) {arg : List QubitId}
    (h : arg.length = 1 ∨ arg.length = n) {q : QubitId} (hq : q ∈ arg) :
    ∃ i < n, picked i arg = some q := by
  by_cases hone : arg.length = 1
  · exact ⟨0, hn, picked_of_length_eq_one hone hq 0⟩
  · obtain ⟨i, hi, hget⟩ := List.getElem_of_mem hq
    refine ⟨i, by omega, ?_⟩
    rw [picked, if_neg hone, List.getElem?_eq_getElem hi, hget]

theorem eq_of_mem_of_nodup_flatten {args : List (List QubitId)} (h : args.flatten.Nodup)
    {a b : List QubitId} (ha : a ∈ args) (hb : b ∈ args) {q : QubitId} (hqa : q ∈ a) (hqb : q ∈ b) :
    a = b := by
  have hsymm : Std.Symm (fun a b : List QubitId => a.Disjoint b) := ⟨fun _ _ h => h.symm⟩
  by_contra hne
  exact (List.nodup_flatten.1 h).2.forall ha hb hne hqa hqb

/-- The targets of a gate are single qubits, or registers of one size. -/
def Alike (targets : List (List QubitId)) : Prop := ∃ n, ∀ arg ∈ targets, arg.length = n

/-- Two runs have the same targets, or the first one has no target of the second one. -/
theorem targets_eq_or_disjoint {args : List (List QubitId)} {k : Nat} (hnodup : args.flatten.Nodup)
    (halike : Alike (args.drop k)) {i j : Nat} (hij : i ≠ j) :
    (args.drop k).filterMap (picked i) = (args.drop k).filterMap (picked j) ∨
      (args.filterMap (picked i)).Disjoint ((args.drop k).filterMap (picked j)) := by
  obtain ⟨size, hsize⟩ := halike
  by_cases hone : size = 1
  · refine .inl (List.filterMap_congr fun arg harg => ?_)
    unfold picked
    rw [if_pos ((hsize arg harg).trans hone), if_pos ((hsize arg harg).trans hone)]
  · refine .inr fun q hq hq' => ?_
    obtain ⟨a, ha, hqa⟩ := List.mem_filterMap.1 hq
    obtain ⟨b, hb, hqb⟩ := List.mem_filterMap.1 hq'
    obtain rfl : a = b := eq_of_mem_of_nodup_flatten hnodup ha (List.mem_of_mem_drop hb)
      (mem_of_picked hqa) (mem_of_picked hqb)
    have hlength : a.length ≠ 1 := fun h => hone ((hsize a hb).symm.trans h)
    unfold picked at hqa hqb
    rw [if_neg hlength] at hqa hqb
    have hplace := (List.getElem?_eq_some_iff.1 hqa).1
    have ha' : a.Nodup := (List.nodup_flatten.1 hnodup).1 a ha
    exact hij ((List.getElem?_inj hplace ha').1 (hqa.trans hqb.symm))

section Runs

open Scope (operation qubits_operation)

variable {R : Type} [ExactScalar R] {matrix matrix' : Unitary (Amplitude R)} {polarity : List Bool}
  {run run' : List QubitId}

/-- Runs of a gate and of its inverse commute if they have the same targets, or if neither has
a target of the other one. -/
theorem act_comm_operation (hrun : run.Nodup) (hrun' : run'.Nodup)
    (hmatrix : matrix'.toMatrix (run.drop polarity.length).length *
      matrix.toMatrix (run.drop polarity.length).length = 1)
    (h : run'.drop polarity.length = run.drop polarity.length ∨
      run'.Disjoint (run.drop polarity.length) ∧ run.Disjoint (run'.drop polarity.length))
    (f : Nat → Amplitude R) :
    (operation matrix' polarity run').act ((operation matrix polarity run).act f) =
      (operation matrix polarity run).act ((operation matrix' polarity run').act f) := by
  have hqubits : (operation matrix polarity run).qubits.Nodup := by rwa [qubits_operation]
  have hqubits' : (operation matrix' polarity run').qubits.Nodup := by rwa [qubits_operation]
  rcases h with heq | ⟨hleft, hright⟩
  · have hcommute : Commute (matrix'.toMatrix (run.drop polarity.length).length)
        (matrix.toMatrix (run.drop polarity.length).length) := by
      rw [commute_iff_eq, hmatrix, mul_eq_one_comm.1 hmatrix]
    unfold operation at hqubits hqubits' ⊢
    rw [heq] at hqubits' ⊢
    exact Operation.act_comm_of_commute hqubits' hqubits hcommute f
  · refine Operation.act_comm_of_apart (Operation.nodup_targets hqubits')
      (Operation.nodup_targets hqubits) ⟨?_, ?_⟩ f
    · rwa [qubits_operation]
    · rwa [qubits_operation]

/-- The runs of a gate are undone by those of its inverse, in the same order. -/
theorem actAll_runs {args runs : List (List QubitId)} (hruns : broadcast args = .ok runs)
    (hnodup : args.flatten.Nodup) (halike : Alike (args.drop polarity.length))
    (hfits : ∀ run ∈ runs, run.Nodup ∧ matrix'.toMatrix (run.drop polarity.length).length *
      matrix.toMatrix (run.drop polarity.length).length = 1) (f : Nat → Amplitude R) :
    Operation.actAll (runs.map (operation matrix' polarity))
      (Operation.actAll (runs.map (operation matrix polarity)) f) = f := by
  obtain ⟨n, hsizes, -, rfl⟩ := broadcast_ok hruns
  refine Operation.actAll_map_actAll_map (fun run hrun f => ?_) ?_ f
  · obtain ⟨hrun, hmatrix⟩ := hfits run hrun
    have hqubits : (operation matrix polarity run).qubits.Nodup := by rwa [qubits_operation]
    exact Operation.act_act_of_mul_eq_one hqubits hmatrix f
  · rw [List.pairwise_map]
    refine List.nodup_range.imp_of_mem fun {i j} hi hj hij f => ?_
    obtain ⟨hi', -⟩ := hfits _ (List.mem_map_of_mem hi)
    obtain ⟨hj', hmatrix⟩ := hfits _ (List.mem_map_of_mem hj)
    refine act_comm_operation hj' hi' hmatrix ?_ f
    rw [drop_filterMap_picked (List.mem_range.1 hi) hsizes,
      drop_filterMap_picked (List.mem_range.1 hj) hsizes]
    rcases targets_eq_or_disjoint hnodup halike hij with heq | hleft
    · exact .inl heq
    · rcases targets_eq_or_disjoint hnodup halike hij.symm with heq | hright
      · exact .inl heq.symm
      · exact .inr ⟨hleft, hright⟩

end Runs

/-! Registers without a common qubit -/

namespace Scope

variable {R : Type} [Scalar R]

/-- The registers of a scope come from declarations: no qubit is in two places of one, and two
that are no single qubits are the same one or have no qubit in common. -/
def RegistersApart (s : Scope R) : Prop :=
  (∀ r ∈ s.qubits.entries, r.2.Nodup) ∧
    ∀ r ∈ s.qubits.entries, ∀ r' ∈ s.qubits.entries, r.2.length ≠ 1 → r'.2.length ≠ 1 →
      r.2 = r'.2 ∨ ∀ q ∈ r.2, q ∉ r'.2

instance (s : Scope R) : Decidable s.RegistersApart :=
  inferInstanceAs (Decidable (_ ∧ _))

/-- An argument is a single qubit or a register. -/
theorem qubitsOf_cases {s : Scope R} {e : Expr} {qs : List QubitId} (h : s.qubitsOf e = .ok qs) :
    (∃ q, qs = [q]) ∨ ∃ name, (name, qs) ∈ s.qubits.entries := by
  obtain ⟨⟨name, index⟩, -, h⟩ := bind_ok_iff.1 h
  change s.qubits.select name index = .ok qs at h
  unfold RegisterTable.select at h
  split at h
  · cases h
  · rename_i register hget
    split at h
    · cases h
      obtain ⟨before, after, hentries, -⟩ := List.lookup_eq_some_iff.1 hget
      exact .inr ⟨name, by rw [hentries]; simp⟩
    · split at h
      · cases h
        exact .inl ⟨_, rfl⟩
      · cases h

theorem RegistersApart.nodup_arg {s : Scope R} (hs : s.RegistersApart) {e : Expr}
    {arg : List QubitId} (h : s.qubitsOf e = .ok arg) : arg.Nodup := by
  rcases qubitsOf_cases h with ⟨q, rfl⟩ | ⟨name, hmem⟩
  · exact List.nodup_singleton q
  · exact hs.1 _ hmem

/-- Arguments that have different qubits in every run have no qubit in common. -/
theorem RegistersApart.disjoint_args {s : Scope R} (hs : s.RegistersApart) {n : Nat} (hn : 0 < n)
    {e e' : Expr} {a a' : List QubitId} (h : s.qubitsOf e = .ok a) (h' : s.qubitsOf e' = .ok a')
    (hsize : a.length = 1 ∨ a.length = n) (hsize' : a'.length = 1 ∨ a'.length = n)
    (hpicked : ∀ i < n, picked i a ≠ picked i a') : a.Disjoint a' := by
  intro q hq hq'
  obtain ⟨i, hi, hplace⟩ := exists_place hn hsize hq
  obtain ⟨i', hi', hplace'⟩ := exists_place hn hsize' hq'
  by_cases hone : a.length = 1
  · exact hpicked i' hi' ((picked_of_length_eq_one hone hq i').trans hplace'.symm)
  by_cases hone' : a'.length = 1
  · exact hpicked i hi (hplace.trans (picked_of_length_eq_one hone' hq' i).symm)
  obtain ⟨name, hmem⟩ := (qubitsOf_cases h).resolve_left (by rintro ⟨q, rfl⟩; exact hone rfl)
  obtain ⟨name', hmem'⟩ := (qubitsOf_cases h').resolve_left (by rintro ⟨q, rfl⟩; exact hone' rfl)
  rcases hs.2 _ hmem _ hmem' hone hone' with heq | hdisjoint
  · exact hpicked 0 hn (congrArg (picked 0) heq)
  · exact hdisjoint q hq hq'

/-- If all runs of a gate are on different qubits, no qubit occurs twice among its arguments. -/
theorem RegistersApart.nodup_flatten {s : Scope R} (hs : s.RegistersApart) {qs : List Expr}
    {args runs : List (List QubitId)} (hargs : qs.mapM s.qubitsOf = .ok args)
    (hruns : broadcast args = .ok runs) (hnodup : ∀ run ∈ runs, run.Nodup) :
    args.flatten.Nodup := by
  obtain ⟨n, hsizes, hle, rfl⟩ := broadcast_ok hruns
  refine List.nodup_flatten.2 ⟨fun arg harg => ?_, List.pairwise_iff_getElem.2 ?_⟩
  · obtain ⟨e, -, he⟩ := exists_of_mem_mapM hargs harg
    exact hs.nodup_arg he
  · intro p p' hp hp' hlt q hq hq'
    have hmem := List.getElem_mem hp
    have hmem' := List.getElem_mem hp'
    obtain ⟨e, -, he⟩ := exists_of_mem_mapM hargs hmem
    obtain ⟨e', -, he'⟩ := exists_of_mem_mapM hargs hmem'
    have hn : 0 < n := Nat.lt_of_lt_of_le (List.length_pos_of_mem hq) (hle _ hmem)
    refine hs.disjoint_args hn he he' (hsizes _ hmem) (hsizes _ hmem') (fun i hi heq => ?_) hq hq'
    have hrun := hnodup _ (List.mem_map_of_mem (List.mem_range.2 hi))
    obtain ⟨r, hr⟩ := exists_picked hi (hsizes _ hmem)
    have hpair := List.pairwise_iff_getElem.1 (List.pairwise_filterMap.1 hrun) p p' hp hp' hlt
    exact hpair r hr r (heq ▸ hr) rfl

/-- The last arguments of a statement, where they resolve, are of one size. -/
def TargetsAlike (s : Scope R) (gate : LeafGate) (qs : List Expr) : Prop :=
  ∀ g, gate = .standard g →
    ∀ args, qs.mapM s.qubitsOf = .ok args → Alike (args.drop (args.length - g.targetCount))

end Scope

end OpenQasm
