import OpenQasm.Proofs.BitAssignment
import OpenQasm.Proofs.Inlining.Simulation
import OpenQasm.Proofs.Modifiers.GateScope
import OpenQasm.Proofs.Normalization
import OpenQasm.Proofs.Quantum.Projection

/-!
# Measured bits

A measurement answers with a bit, leaves the state without amplitudes at the indices that
have the other bit, and keeps answering the same. A statement that measures qubits and
stores what was seen therefore ends in a state whose amplitudes all lie at indices with the
stored bits.
-/
namespace OpenQasm

open StateVector

/-! What an assignment of bits stores -/

namespace Scope

variable {R : Type} [Scalar R]

omit [Scalar R] in
/-- Whether bits are what a scope holds in a register or a place of it, or else in a variable,
as a number. -/
def Holds (t : Scope R) (name : String) (index : Option Int64) (bs : List Bool) : Prop :=
  t.bits.select name index = .ok bs ∨
    t.bits.get? name = none ∧ index = none ∧ bs.length ≤ 63 ∧
      t.const? name = some (.int (Int64.ofNat (bitsValue bs)))

omit [Scalar R] in
/-- Stored bits are read back at the place where they were stored. -/
theorem select_of_storeBits {s : Scope R} {name : String} {register stored : List Bool}
    {index : Option Int64} {bs : List Bool}
    (h : storeBits (R := R) name register index (.bits bs) = .ok stored) :
    (s.addBits name stored).bits.select name index = .ok bs := by
  have hget : (s.addBits name stored).bits.get? name = some stored := by
    rw [addBits, Table.get?_set, if_pos rfl]
  cases index with
  | none =>
      unfold storeBits at h
      rw [RegisterTable.select, hget]
      exact congrArg Except.ok (Value.toBits_bits_ok_iff.1 h).2.symm
  | some i =>
      obtain ⟨k, b, hk, hb, rfl⟩ := storeBits_index_ok_iff.1 h
      obtain ⟨-, rfl⟩ := Value.toBits_bits_ok_iff.1 hb
      exact select_of_place? b hget hk

/-- After bits were assigned to it, a target holds them. -/
theorem holds_of_assign {s t : Scope R} {target : Expr} {bs : List Bool}
    (h : s.assign target (.bits bs) = .ok t) :
    ∃ name index, s.reference target = .ok (name, index) ∧ t.Holds name index bs := by
  obtain ⟨name, index, href, ⟨register, stored, -, hstored, rfl⟩ |
    ⟨hnone, hindex, -, c, hc, hset⟩⟩ := assign_ok_iff.1 h
  · exact ⟨name, index, href, .inl (select_of_storeBits hstored)⟩
  · refine ⟨name, index, href, .inr ?_⟩
    unfold Value.toConst at hc
    dsimp only at hc
    split at hc
    · rename_i hlen
      cases hc
      unfold setVariable at hset
      split at hset
      · cases hset
      · cases hset
        refine ⟨hnone, Option.isNone_iff_eq_none.1 hindex, hlen, ?_⟩
        rw [const?, List.findSome?_cons, Table.get?_set, if_pos rfl]
        rfl
    · cases hc

end Scope

/-! Qubits measured one after the other -/

variable {draws : Nat → ℝ}

theorem projected_measureEach (hdraws : ∀ i, 0 ≤ draws i ∧ draws i < 1) {qs : List QubitId}
    {bs : List Bool} {m m' : Machine ℝ (Simulator ℝ)} (hm : m.backend.Normalized draws)
    (h : Run.measureEach qs m = (.ok bs, m')) :
    Projected qs bs m.backend.state m'.backend.state := by
  induction qs generalizing bs m with
  | nil =>
      obtain ⟨rfl, rfl⟩ := ran_pure.1 h
      exact .nil hm.weight
  | cons q qs ih =>
      rw [Run.measureEach] at h
      obtain ⟨b, m₁, hfirst, h⟩ := ran_bind.1 h
      obtain ⟨bs', m₂, hrest, h⟩ := ran_bind.1 h
      obtain ⟨rfl, rfl⟩ := ran_pure.1 h
      have hmeasure : Simulator.measure q m.backend = (.ok b, m₁.backend) := (ran_request hfirst).1
      have hnext : m₁.backend.Normalized draws := by
        have hkept := hm.measure hdraws q
        rwa [hmeasure] at hkept
      have hdraw := hdraws m.backend.position
      rw [← hm.draws] at hdraw
      exact (Simulator.projected_of_measure hm.weight hdraw hmeasure).cons (ih hnext hrest)

theorem projected_measure_value (hdraws : ∀ i, 0 ≤ draws i ∧ draws i < 1) {s : Scope ℝ}
    {qargs : List Expr} {v : Value ℝ} {m m' : Machine ℝ (Simulator ℝ)}
    (hm : m.backend.Normalized draws) (h : Run.measure s qargs m = (.ok v, m')) :
    ∃ qs bs, s.measuredQubits qargs = .ok qs ∧ v = .bits bs ∧
      Projected qs bs m.backend.state m'.backend.state := by
  rw [Run.measure] at h
  obtain ⟨_, m₁, hunitary, h⟩ := ran_bind.1 h
  obtain ⟨-, rfl⟩ := ran_lift.1 hunitary
  obtain ⟨qs, m₂, hlift, h⟩ := ran_bind.1 h
  obtain ⟨hqs, rfl⟩ := ran_lift.1 hlift
  obtain ⟨bs, m₃, hbs, h⟩ := ran_bind.1 h
  obtain ⟨rfl, rfl⟩ := ran_pure.1 h
  exact ⟨qs, bs, hqs, rfl, projected_measureEach hdraws hm hbs⟩

/-- The two statements that measure qubits and store what is seen. -/
inductive Stmt.Measures (target : Expr) (qargs : List Expr) : Stmt → Prop where
  | assign : Stmt.Measures target qargs (.assign target (.measure qargs))
  | arrow : Stmt.Measures target qargs (.arrow (.measure qargs) target)

theorem Stmt.Measures.ran {R B : Type} [Scalar R] [Backend R B] {config : Config}
    {deeper : Option (BodyRunner R B)} {st : Stmt} {target : Expr} {qargs : List Expr}
    {s t : Scope R} {m m' : Machine R B} {flow : Flow R} (hst : st.Measures target qargs)
    (h : Exec.stmt config deeper st (s, m) = (.ok flow, (t, m'))) :
    ∃ v, Run.measure s qargs m = (.ok v, m') ∧ s.assign target v = .ok t := by
  have hstore : (do
      let v ← Exec.ofRun fun s => Run.value config deeper s (.measure qargs)
      Exec.update fun s => s.assign target v
      return Exec.done : Exec R B (Flow R)) (s, m) = (.ok flow, (t, m')) := by
    cases hst <;> exact h
  obtain ⟨v, ⟨s₁, m₁⟩, hread, hrest⟩ := ran_bind.1 hstore
  obtain ⟨rfl, hvalue⟩ := Exec.ran_ofRun.1 hread
  obtain ⟨_, ⟨t₁, m₂⟩, hupdate, hdone⟩ := ran_bind.1 hrest
  obtain ⟨hassign, rfl⟩ := Exec.ran_update.1 hupdate
  obtain ⟨-, heq⟩ := ran_pure.1 hdone
  cases heq
  exact ⟨v, hvalue, hassign⟩

/-- A measurement of a qubit of a normalized state removes the amplitudes at the indices that
do not have the bit that is seen, scales the others by a common factor, and sees the same bit
from then on. A reset leaves no amplitude at an index that has the bit. After a statement that
measures qubits and stores what is seen, there are amplitudes only at indices that have the
stored bits. -/
theorem measured_bits_remain :
    (∀ (s : Simulator ℝ) (q : QubitId), s.state.weight = 1 → q < s.state.qubits →
      0 ≤ s.draws s.position ∧ s.draws s.position < 1 →
        (∃ b v, Simulator.measure q s =
            (.ok b, { s with state := v, position := s.position + 1 }) ∧
          v.qubits = s.state.qubits ∧ v.weight = 1 ∧
          (∃ c : ℝ, 0 < c ∧
            ∀ i, v.get i = if i.testBit q = b then .ofReal c * s.state.get i else 0) ∧
          ∀ s' : Simulator ℝ, s'.state = v → 0 ≤ s'.draws s'.position ∧ s'.draws s'.position < 1 →
            Simulator.measure q s' = (.ok b, { s' with position := s'.position + 1 })) ∧
        ∃ v, Simulator.reset q s =
            (.ok (), { s with state := v, position := s.position + 1 }) ∧
          v.qubits = s.state.qubits ∧ v.weight = 1 ∧ ∀ i, i.testBit q = true → v.get i = 0) ∧
    ∀ (config : Config) (deeper : Option (BodyRunner ℝ (Simulator ℝ))) (target : Expr)
      (qargs : List Expr) (st : Stmt) (s t : Scope ℝ) (m m' : Machine ℝ (Simulator ℝ))
      (flow : Flow ℝ), st.Measures target qargs → m.backend.state.weight = 1 →
      (∀ i, 0 ≤ m.backend.draws i ∧ m.backend.draws i < 1) →
      Exec.stmt config deeper st (s, m) = (.ok flow, (t, m')) →
        ∃ name index qs bs, s.reference target = .ok (name, index) ∧
          s.measuredQubits qargs = .ok qs ∧ t.Holds name index bs ∧
          Projected qs bs m.backend.state m'.backend.state ∧
          ∀ i, m'.backend.state.get i ≠ 0 → bitsAt qs i = bs := by
  refine ⟨fun s q hs hq hdraw => ⟨?_, ?_⟩, ?_⟩
  · have hprojected := projected_measure (q := q) hs hdraw
    refine ⟨_, _, Simulator.measure_ok_iff.2 ⟨hq, rfl, rfl⟩, rfl, hprojected.weight, ?_, ?_⟩
    · simpa only [bitsAt_singleton] using hprojected.scaled
    · intro s' hstate hdraw'
      rw [Simulator.measure_ok_iff, hstate, hprojected.measure_eq hdraw']
      exact ⟨hq, rfl, by rw [← hstate]⟩
  · obtain ⟨b, c, -, hget⟩ := get_reset hq hs hdraw
    exact ⟨_, Simulator.reset_of_lt hq, Simulator.qubits_reset .., weight_reset hq hs hdraw,
      fun i hi => (hget i).trans (if_pos hi)⟩
  · intro config deeper target qargs st s t m m' flow hst hweight hdraws h
    obtain ⟨v, hvalue, hassign⟩ := hst.ran h
    obtain ⟨qs, bs, hqs, rfl, hprojected⟩ := projected_measure_value hdraws ⟨hweight, rfl⟩ hvalue
    obtain ⟨name, index, href, hholds⟩ := Scope.holds_of_assign hassign
    exact ⟨name, index, qs, bs, href, hqs, hholds, hprojected, fun i hi =>
      hprojected.bitsAt_eq hi⟩

noncomputable def entangledPair : Simulator ℝ :=
  ⟨Operation.applyAll [⟨StandardGate.matrixH, [], [0]⟩, ⟨StandardGate.matrixX, [⟨0, true⟩], [1]⟩]
    (StateVector.initial.resize 2), 2, fun _ => 2⁻¹, 0, 0⟩

theorem weight_entangledPair : entangledPair.state.weight = 1 := by
  refine (Operation.weight_applyAll ?_).trans ((weight_resize (Nat.zero_le 2)).trans weight_initial)
  have hknown : ∀ q ∈ [0, 1], q < ((initial : StateVector (Amplitude ℝ)).resize 2).qubits := by
    change ∀ q ∈ [0, 1], q < 2
    decide
  intro op hop
  simp only [List.mem_cons, List.not_mem_nil, or_false] at hop
  rcases hop with rfl | rfl
  · refine ⟨⟨rfl, by decide, fun q hq => hknown q ?_⟩, StandardGate.exact_matrixH.isometric⟩
    exact List.mem_cons.2 (.inl (List.mem_singleton.1 hq))
  · exact ⟨⟨rfl, by decide, hknown⟩, StandardGate.exact_matrixX.isometric⟩

noncomputable def pairScope : Scope ℝ :=
  (Scope.root.addQubits "q" [0, 1]).addBits "c" [false, false]

theorem measured_bits_remain_pair :
    (∃ b v, Simulator.measure 1 entangledPair =
        (.ok b, { entangledPair with state := v, position := 1 }) ∧
      ∀ i, i.testBit 1 ≠ b → v.get i = 0) ∧
    ∃ t m' bs, Exec.stmt {} none (.assign (.ident "c") (.measure [.ident "q"]))
        (pairScope, ⟨entangledPair, []⟩) = (.ok Exec.done, (t, m')) ∧
      t.Holds "c" none bs ∧ ∀ i, m'.backend.state.get i ≠ 0 → bitsAt [0, 1] i = bs := by
  have hdraws : ∀ i, 0 ≤ entangledPair.draws i ∧ entangledPair.draws i < 1 := by
    change ∀ _ : Nat, (0 : ℝ) ≤ 2⁻¹ ∧ (2⁻¹ : ℝ) < 1
    norm_num
  have hknown : (1 : Nat) < entangledPair.state.qubits := Nat.lt_add_one 1
  constructor
  · obtain ⟨⟨b, v, hmeasure, -, -, ⟨c, -, hget⟩, -⟩, -⟩ :=
      measured_bits_remain.1 entangledPair 1 weight_entangledPair hknown (hdraws 0)
    exact ⟨b, v, hmeasure, fun i hi => (hget i).trans (if_neg hi)⟩
  · obtain ⟨t, m', hrun⟩ : ∃ t m', Exec.stmt {} none (.assign (.ident "c") (.measure [.ident "q"]))
        (pairScope, ⟨entangledPair, []⟩) = (.ok Exec.done, (t, m')) := ⟨_, _, rfl⟩
    obtain ⟨name, index, qs, bs, href, hqs, hholds, -, hbits⟩ := measured_bits_remain.2 {} none
      (.ident "c") [.ident "q"] _ pairScope t ⟨entangledPair, []⟩ m' Exec.done .assign
      weight_entangledPair hdraws hrun
    cases href
    have hpair : pairScope.measuredQubits [.ident "q"] = .ok [0, 1] := rfl
    rw [hpair] at hqs
    cases hqs
    exact ⟨t, m', bs, hrun, hholds, hbits⟩

end OpenQasm
