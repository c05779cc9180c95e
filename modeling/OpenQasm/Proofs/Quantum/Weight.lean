import Mathlib.Algebra.BigOperators.Fin
import Mathlib.Algebra.BigOperators.Field
import OpenQasm.Proofs.Quantum.Exact
import OpenQasm.Proofs.Quantum.Operations

/-!
# The weight of a state

The weight of a state is the sum of its squared moduli. A unitary operation keeps the
weight of every column it acts on, and every index is in as many columns as any other, so
it keeps the weight of the state. Moving amplitudes around keeps it as well. A measurement
splits the weight into the probabilities of its two outcomes.
-/
namespace OpenQasm

namespace Amplitude

theorem normSq_eq (a : Amplitude ℝ) : a.normSq = (conj a * a).re := by
  simp [normSq]

@[simp] theorem normSq_zero : (0 : Amplitude ℝ).normSq = 0 := by
  simp [normSq]

@[simp] theorem normSq_one : (1 : Amplitude ℝ).normSq = 1 := by
  simp [normSq]

theorem normSq_divReal (a : Amplitude ℝ) (x : ℝ) : (a.divReal x).normSq = a.normSq / (x * x) := by
  have hre : (a.divReal x).re = a.re / x := rfl
  have him : (a.divReal x).im = a.im / x := rfl
  rw [normSq, normSq, hre, him]
  ring

theorem conj_add (a b : Amplitude ℝ) : conj (a + b) = conj a + conj b := by
  ext <;> simp [add_comm]

theorem conj_mul (a b : Amplitude ℝ) : conj (a * b) = conj a * conj b := by
  ext
  · simp
  · simp
    ring

theorem conj_sum {ι : Type} (s : Finset ι) (f : ι → Amplitude ℝ) :
    conj (∑ i ∈ s, f i) = ∑ i ∈ s, conj (f i) := by
  classical
  induction s using Finset.induction_on with
  | empty => ext <;> simp
  | insert i s hi ih => rw [Finset.sum_insert hi, Finset.sum_insert hi, conj_add, ih]

theorem sum_re {ι : Type} (s : Finset ι) (f : ι → Amplitude ℝ) :
    (∑ i ∈ s, f i).re = ∑ i ∈ s, (f i).re := by
  classical
  induction s using Finset.induction_on with
  | empty => simp
  | insert i s hi ih => rw [Finset.sum_insert hi, Finset.sum_insert hi, add_re, ih]

end Amplitude

namespace Unitary

/-- A matrix whose adjoint is a left inverse. -/
def Isometric (u : Unitary (Amplitude ℝ)) : Prop :=
  u.adjoint.toMatrix u.qubits * u.toMatrix u.qubits = 1

theorem Exact.isometric {u : Unitary (Amplitude ℝ)} (h : u.Exact) : u.Isometric :=
  h.adjoint_mul rfl

/-- An isometric matrix keeps the weight of a column. -/
theorem Isometric.sum_normSq_mulVec {k : Nat} {u : Unitary (Amplitude ℝ)} (h : u.Isometric)
    (hu : u.qubits = k) (x : Fin (dimension k) → Amplitude ℝ) :
    ∑ r, ((u.toMatrix k).mulVec x r).normSq = ∑ r, (x r).normSq := by
  have hone : u.adjoint.toMatrix k * u.toMatrix k = 1 := by
    subst hu
    exact h
  have hconj : (fun r => conj ((u.toMatrix k).mulVec x r)) =
      Matrix.vecMul (fun c => conj (x c)) (u.adjoint.toMatrix k) := by
    funext r
    simp only [Matrix.mulVec, Matrix.vecMul, dotProduct, Amplitude.conj_sum, Amplitude.conj_mul,
      toMatrix_adjoint hu]
    exact Finset.sum_congr rfl fun c _ => mul_comm _ _
  have hdot : (fun r => conj ((u.toMatrix k).mulVec x r)) ⬝ᵥ (u.toMatrix k).mulVec x =
      (fun r => conj (x r)) ⬝ᵥ x := by
    rw [hconj, Matrix.dotProduct_mulVec, Matrix.vecMul_vecMul, hone, Matrix.vecMul_one]
  have hre := congrArg Amplitude.re hdot
  simpa only [dotProduct, Amplitude.sum_re, ← Amplitude.normSq_eq] using hre

end Unitary

namespace StateVector

/-- Every index is written to as often as there are values to write. -/
theorem sum_writeRegister {n : Nat} {ts : List QubitId} (hts : ts.Nodup) (hlt : ∀ t ∈ ts, t < n)
    (g : Nat → ℝ) :
    ∑ i ∈ Finset.range (dimension n), ∑ c : Fin (dimension ts.length), g (writeRegister c ts i) =
      dimension ts.length * ∑ i ∈ Finset.range (dimension n), g i := by
  have hcount : ∑ i ∈ Finset.range (dimension n), ∑ _c : Fin (dimension ts.length), g i =
      dimension ts.length * ∑ i ∈ Finset.range (dimension n), g i := by
    simp [Finset.mul_sum]
  rw [← hcount, ← Finset.sum_product', ← Finset.sum_product']
  let exchange (p : Nat × Fin (dimension ts.length)) : Nat × Fin (dimension ts.length) :=
    (writeRegister p.2 ts p.1, Operation.row ts p.1)
  have hmaps : ∀ p ∈ Finset.range (dimension n) ×ˢ Finset.univ,
      exchange p ∈ Finset.range (dimension n) ×ˢ Finset.univ := by
    intro p hp
    rw [Finset.mem_product, Finset.mem_range] at hp ⊢
    exact ⟨writeRegister_lt hts hlt _ hp.1, Finset.mem_univ _⟩
  have hundo : ∀ p, exchange (exchange p) = p := by
    intro p
    refine Prod.ext ?_ (Operation.row_writeRegister hts p.2 p.1)
    exact (writeRegister_writeRegister hts _ _ _).trans (writeRegister_readRegister hts p.1)
  exact Finset.sum_nbij' exchange exchange hmaps hmaps (fun p _ => hundo p) (fun p _ => hundo p)
    fun p _ => rfl

/-- The sum of the squared moduli. -/
noncomputable def weight (v : StateVector (Amplitude ℝ)) : ℝ :=
  ∑ i ∈ Finset.range (dimension v.qubits), (v.get i).normSq

end StateVector

namespace Operation

open StateVector

/-- Within a column an isometric operation keeps the weight. -/
theorem sum_normSq_column_act {op : Operation (Amplitude ℝ)} (h : op.qubits.Nodup)
    (htargets : op.matrix.qubits = op.targets.length) (hmatrix : op.matrix.Isometric)
    (f : Nat → Amplitude ℝ) (i : Nat) :
    ∑ c, (column op.targets (op.act f) i c).normSq = ∑ c, (column op.targets f i c).normSq := by
  rw [column_act h]
  split
  · exact hmatrix.sum_normSq_mulVec htargets _
  · rfl

/-- An isometric operation keeps the weight of a state it fits. -/
theorem weight_apply {op : Operation (Amplitude ℝ)} {v : StateVector (Amplitude ℝ)}
    (h : op.Fits v.qubits) (hmatrix : op.matrix.Isometric) : (op.apply v).weight = v.weight := by
  have hts := nodup_targets h.nodup
  have hlt : ∀ t ∈ op.targets, t < v.qubits := fun t ht => h.known t (List.mem_append_right _ ht)
  have hpos : (0 : ℝ) < dimension op.targets.length :=
    Nat.cast_pos.2 (Nat.two_pow_pos op.targets.length)
  have hqubits : (op.apply v).qubits = v.qubits := rfl
  refine mul_left_cancel₀ hpos.ne' ?_
  rw [weight, weight, hqubits, get_apply h, ← sum_writeRegister hts hlt fun i => (op.act v.get i).normSq,
    ← sum_writeRegister hts hlt fun i => (v.get i).normSq]
  exact Finset.sum_congr rfl fun i _ => sum_normSq_column_act h.nodup h.targets hmatrix v.get i

theorem weight_applyAll {ops : List (Operation (Amplitude ℝ))} {v : StateVector (Amplitude ℝ)}
    (h : ∀ op ∈ ops, op.Fits v.qubits ∧ op.matrix.Isometric) :
    (applyAll ops v).weight = v.weight := by
  induction ops generalizing v with
  | nil => rfl
  | cons op ops ih =>
      obtain ⟨⟨hfits, hmatrix⟩, hops⟩ := List.forall_mem_cons.1 h
      exact (ih (v := op.apply v) hops).trans (weight_apply hfits hmatrix)

end Operation

namespace StateVector

theorem weight_initial : (initial : StateVector (Amplitude ℝ)).weight = 1 := by
  have hget : (initial : StateVector (Amplitude ℝ)).get 0 = 1 := rfl
  change ∑ i ∈ Finset.range 1, ((initial : StateVector (Amplitude ℝ)).get i).normSq = 1
  rw [Finset.sum_range_one, hget, Amplitude.normSq_one]

theorem weight_ofFn (n : Nat) (f : Nat → Amplitude ℝ) :
    (⟨n, Vector.ofFn fun i => f i⟩ : StateVector (Amplitude ℝ)).weight =
      ∑ i ∈ Finset.range (dimension n), (f i).normSq :=
  Finset.sum_congr rfl fun i hi => by rw [get_ofFn f (Finset.mem_range.1 hi)]

/-- In a longer vector there are only more indices whose amplitude is zero. -/
theorem weight_resize {n : Nat} {v : StateVector (Amplitude ℝ)} (h : v.qubits ≤ n) :
    (v.resize n).weight = v.weight := by
  have hle : dimension v.qubits ≤ dimension n := Nat.pow_le_pow_right Nat.two_pos h
  have hresize : (v.resize n).weight = ∑ i ∈ Finset.range (dimension n), (v.get i).normSq :=
    weight_ofFn n v.get
  rw [hresize]
  refine (Finset.sum_subset (Finset.range_mono hle) fun i _ hi => ?_).symm
  rw [Operation.get_of_le (Nat.not_lt.1 fun hlt => hi (Finset.mem_range.2 hlt)),
    Amplitude.normSq_zero]

/-- Amplitudes that are moved to places of their own keep the weight. -/
theorem weight_permute {f : Nat → Nat} {v : StateVector (Amplitude ℝ)}
    (hmaps : ∀ i < dimension v.qubits, f i < dimension v.qubits)
    (hinj : ∀ i < dimension v.qubits, ∀ j < dimension v.qubits, f i = f j → i = j) :
    (v.permute f).weight = v.weight := by
  have hmoved : ∀ i < dimension v.qubits, (v.permute f).get (f i) = v.get i := fun i hi =>
    get_permute hmaps hinj hi
  have hinjOn : Set.InjOn f (Finset.range (dimension v.qubits)) := fun i hi j hj =>
    hinj i (Finset.mem_range.1 hi) j (Finset.mem_range.1 hj)
  have himage : (Finset.range (dimension v.qubits)).image f = Finset.range (dimension v.qubits) := by
    refine Finset.eq_of_subset_of_card_le (Finset.image_subset_iff.2 fun i hi => ?_) ?_
    · exact Finset.mem_range.2 (hmaps i (Finset.mem_range.1 hi))
    · exact (Finset.card_image_of_injOn hinjOn).ge
  calc (v.permute f).weight
      = ∑ j ∈ (Finset.range (dimension v.qubits)).image f, ((v.permute f).get j).normSq := by
        rw [himage]
        rfl
    _ = ∑ i ∈ Finset.range (dimension v.qubits), ((v.permute f).get (f i)).normSq :=
        Finset.sum_image hinjOn
    _ = v.weight := Finset.sum_congr rfl fun i hi => by rw [hmoved i (Finset.mem_range.1 hi)]

/-- Exchanging the values of a qubit keeps the weight. -/
theorem weight_flip {q : QubitId} {v : StateVector (Amplitude ℝ)} (hq : q < v.qubits) :
    (v.flip q).weight = v.weight := by
  have hmaps : ∀ i ∈ Finset.range (dimension v.qubits),
      i ^^^ bitAt q ∈ Finset.range (dimension v.qubits) := by
    intro i hi
    have hbit : bitAt q < dimension v.qubits := Nat.pow_lt_pow_right Nat.one_lt_two hq
    exact Finset.mem_range.2 (Nat.xor_lt_two_pow (Finset.mem_range.1 hi) hbit)
  have hundo : ∀ i, (i ^^^ bitAt q) ^^^ bitAt q = i := fun i => by
    rw [Nat.xor_assoc, Nat.xor_self, Nat.xor_zero]
  have hflip : (v.flip q).weight =
      ∑ i ∈ Finset.range (dimension v.qubits), (v.get (i ^^^ bitAt q)).normSq :=
    weight_ofFn _ fun i => v.get (i ^^^ bitAt q)
  rw [hflip]
  exact Finset.sum_nbij' (· ^^^ bitAt q) (· ^^^ bitAt q) hmaps hmaps (fun i _ => hundo i)
    (fun i _ => hundo i) fun i _ => rfl

/-! Measurements -/

theorem probability_eq (q : QubitId) (outcome : Bool) (v : StateVector (Amplitude ℝ)) :
    v.probability q outcome = ∑ i ∈ Finset.range (dimension v.qubits),
      if i.testBit q = outcome then (v.get i).normSq else 0 := by
  unfold probability
  induction dimension v.qubits with
  | zero => rfl
  | succ n ih =>
      rw [Nat.fold_succ, ih, Finset.sum_range_succ]
      split
      · rfl
      · exact (add_zero _).symm

/-- One of the two outcomes is seen. -/
theorem probability_add (q : QubitId) (outcome : Bool) (v : StateVector (Amplitude ℝ)) :
    v.probability q outcome + v.probability q (!outcome) = v.weight := by
  rw [probability_eq, probability_eq, weight, ← Finset.sum_add_distrib]
  refine Finset.sum_congr rfl fun i _ => ?_
  cases i.testBit q <;> cases outcome <;> simp

theorem lt_sqrt_probability {q : QubitId} {outcome : Bool} {v : StateVector (Amplitude ℝ)}
    (h : 0 < v.probability q outcome) :
    Scalar.lt 0 (Scalar.sqrt (v.probability q outcome)) = true :=
  decide_eq_true (Real.sqrt_pos.2 h)

/-- A state that collapses to an outcome that can be seen has weight one. -/
theorem weight_collapse {q : QubitId} {outcome : Bool} {v : StateVector (Amplitude ℝ)}
    (h : 0 < v.probability q outcome) : (v.collapse q outcome).weight = 1 := by
  have hkept : (v.collapse q outcome).weight = ∑ i ∈ Finset.range (dimension v.qubits),
      ((if i.testBit q = outcome then v.get i else 0).divReal
        (Scalar.sqrt (v.probability q outcome))).normSq := by
    rw [← weight_ofFn v.qubits fun i =>
      (if i.testBit q = outcome then v.get i else 0).divReal (Scalar.sqrt (v.probability q outcome))]
    unfold collapse
    simp only [lt_sqrt_probability h, if_true]
  have hsquare : Scalar.sqrt (v.probability q outcome) * Scalar.sqrt (v.probability q outcome) =
      v.probability q outcome := Real.mul_self_sqrt h.le
  have hsum : ∑ i ∈ Finset.range (dimension v.qubits),
      (if i.testBit q = outcome then v.get i else 0).normSq = v.probability q outcome := by
    rw [probability_eq]
    refine Finset.sum_congr rfl fun i _ => ?_
    split
    · rfl
    · exact Amplitude.normSq_zero
  rw [hkept]
  simp only [Amplitude.normSq_divReal, hsquare]
  rw [← Finset.sum_div, hsum]
  exact div_self h.ne'

/-- A draw from `[0, 1)` never selects an outcome that cannot be seen. -/
theorem probability_measure_pos {q : QubitId} {draw : ℝ} {v : StateVector (Amplitude ℝ)}
    (hv : v.weight = 1) (hdraw : 0 ≤ draw ∧ draw < 1) :
    0 < v.probability q (v.measure q draw).1 := by
  have hadd := probability_add q true v
  rw [hv] at hadd
  by_cases hone : draw < v.probability q true
  · have houtcome : (v.measure q draw).1 = true := decide_eq_true hone
    rw [houtcome]
    exact lt_of_le_of_lt hdraw.1 hone
  · have houtcome : (v.measure q draw).1 = false := decide_eq_false hone
    rw [houtcome]
    rw [not_lt] at hone
    simp only [Bool.not_true] at hadd
    linarith [hdraw.2]

theorem weight_measure {q : QubitId} {draw : ℝ} {v : StateVector (Amplitude ℝ)}
    (hv : v.weight = 1) (hdraw : 0 ≤ draw ∧ draw < 1) : (v.measure q draw).2.weight = 1 :=
  weight_collapse (probability_measure_pos hv hdraw)

theorem weight_reset {q : QubitId} {draw : ℝ} {v : StateVector (Amplitude ℝ)} (hq : q < v.qubits)
    (hv : v.weight = 1) (hdraw : 0 ≤ draw ∧ draw < 1) : (v.reset q draw).weight = 1 := by
  have hmeasured := weight_measure (q := q) hv hdraw
  have hqubits : (v.measure q draw).2.qubits = v.qubits := rfl
  unfold reset
  dsimp only
  split
  · rw [weight_flip (hqubits ▸ hq), hmeasured]
  · exact hmeasured

end StateVector

end OpenQasm
