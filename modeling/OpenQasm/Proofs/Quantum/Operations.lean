import OpenQasm.Proofs.Quantum.Kernel
import OpenQasm.Proofs.Quantum.Matrices

/-!
# Operations as maps on amplitudes

An operation replaces the column of amplitudes that an index belongs to by the product
with its matrix. On one list of targets, operations therefore compose as their matrices
do; operations on different targets commute, even if they share controls.
-/
namespace OpenQasm

namespace Operation

variable {A : Type}

/-- What a state of `n` qubits asks of an operation. -/
structure Fits (n : Nat) (op : Operation A) : Prop where
  targets : op.matrix.qubits = op.targets.length
  nodup : op.qubits.Nodup
  known : ∀ q ∈ op.qubits, q < n

theorem nodup_targets {op : Operation A} (h : op.qubits.Nodup) : op.targets.Nodup :=
  (List.nodup_append'.1 h).2.1

theorem disjoint_controls {op : Operation A} (h : op.qubits.Nodup) :
    (op.controls.map Control.qubit).Disjoint op.targets :=
  (List.nodup_append'.1 h).2.2

/-- Whether an operation takes place at an index. -/
def Active (op : Operation A) (i : Nat) : Prop := ∀ c ∈ op.controls, c.Holds i

instance (op : Operation A) (i : Nat) : Decidable (op.Active i) :=
  inferInstanceAs (Decidable (∀ c ∈ op.controls, c.Holds i))

theorem active_writeRegister {op : Operation A} {ts : List QubitId} (hts : ts.Nodup)
    (h : (op.controls.map Control.qubit).Disjoint ts) (v i : Nat) :
    op.Active (StateVector.writeRegister v ts i) ↔ op.Active i :=
  StateVector.holds_writeRegister hts h v i

section Map

variable [Zero A] [Add A] [Mul A]

/-- What an operation does to amplitudes. -/
def act (op : Operation A) (f : Nat → A) (i : Nat) : A :=
  if op.Active i then StateVector.rowSum op.matrix op.targets f i else f i

def actAll (ops : List (Operation A)) (f : Nat → A) : Nat → A :=
  ops.foldl (fun f op => op.act f) f

theorem actAll_append (ops ops' : List (Operation A)) (f : Nat → A) :
    actAll (ops ++ ops') f = actAll ops' (actAll ops f) := List.foldl_append

/-- An operation that commutes with every one of a sequence commutes with the sequence. -/
theorem act_actAll {op : Operation A} {ops : List (Operation A)}
    (h : ∀ op' ∈ ops, ∀ f, op.act (op'.act f) = op'.act (op.act f)) (f : Nat → A) :
    op.act (actAll ops f) = actAll ops (op.act f) := by
  induction ops generalizing f with
  | nil => rfl
  | cons op' ops ih =>
      obtain ⟨hop, hops⟩ := List.forall_mem_cons.1 h
      rw [actAll, List.foldl_cons, actAll, List.foldl_cons, ← hop]
      exact ih hops (op'.act f)

/-- A sequence is undone in the same order if each operation that undoes one of it commutes
with the later ones. -/
theorem actAll_map_actAll_map {ι : Type} {g h : ι → Operation A} {is : List ι}
    (hundo : ∀ i ∈ is, ∀ f, (h i).act ((g i).act f) = f)
    (hcomm : is.Pairwise fun i j => ∀ f, (h i).act ((g j).act f) = (g j).act ((h i).act f))
    (f : Nat → A) : actAll (is.map h) (actAll (is.map g) f) = f := by
  induction is generalizing f with
  | nil => rfl
  | cons i is ih =>
      obtain ⟨hi, his⟩ := List.forall_mem_cons.1 hundo
      obtain ⟨hfirst, hrest⟩ := List.pairwise_cons.1 hcomm
      have hpast : (h i).act (actAll (is.map g) ((g i).act f)) =
          actAll (is.map g) ((h i).act ((g i).act f)) :=
        act_actAll (List.forall_mem_map.2 hfirst) _
      calc actAll ((i :: is).map h) (actAll ((i :: is).map g) f)
          = actAll (is.map h) ((h i).act (actAll (is.map g) ((g i).act f))) := rfl
        _ = actAll (is.map h) (actAll (is.map g) f) := by rw [hpast, hi]
        _ = f := ih his hrest f

/-- A sequence is undone by undoing its operations in the opposite order. -/
theorem actAll_reverse_map_actAll_map {ι : Type} {g h : ι → Operation A} {is : List ι}
    (hundo : ∀ i ∈ is, ∀ f, (h i).act ((g i).act f) = f) (f : Nat → A) :
    actAll (is.reverse.map h) (actAll (is.map g) f) = f := by
  induction is generalizing f with
  | nil => rfl
  | cons i is ih =>
      obtain ⟨hi, his⟩ := List.forall_mem_cons.1 hundo
      have hlast := ih his ((g i).act f)
      rw [List.reverse_cons, List.map_append, actAll_append]
      exact (congrArg (h i).act hlast).trans (hi f)

def apply (op : Operation A) (v : StateVector A) : StateVector A :=
  v.applyControlled op.matrix op.controls op.targets

def applyAll (ops : List (Operation A)) (v : StateVector A) : StateVector A :=
  ops.foldl (fun v op => op.apply v) v

theorem qubits_applyAll (ops : List (Operation A)) (v : StateVector A) :
    (applyAll ops v).qubits = v.qubits := by
  induction ops generalizing v with
  | nil => rfl
  | cons op ops ih => exact ih (op.apply v)

end Map

/-- Neither operation changes a qubit of the other one. -/
def Apart (op op' : Operation A) : Prop :=
  op.qubits.Disjoint op'.targets ∧ op'.qubits.Disjoint op.targets

section Columns

open StateVector

/-- The amplitudes at the indices that differ from `i` in the bits at `ts` only. -/
def column (ts : List QubitId) (f : Nat → A) (i : Nat) : Fin (dimension ts.length) → A :=
  fun c => f (writeRegister c ts i)

def row (ts : List QubitId) (i : Nat) : Fin (dimension ts.length) :=
  ⟨readRegister ts i, readRegister_lt ts i⟩

variable {ts : List QubitId}

theorem column_row (hts : ts.Nodup) (f : Nat → A) (i : Nat) : column ts f i (row ts i) = f i :=
  congrArg f (writeRegister_readRegister hts i)

theorem row_writeRegister (hts : ts.Nodup) (c : Fin (dimension ts.length)) (i : Nat) :
    row ts (writeRegister c ts i) = c :=
  Fin.ext (readRegister_writeRegister hts c.isLt i)

theorem column_writeRegister (hts : ts.Nodup) (f : Nat → A) (c i : Nat) :
    column ts f (writeRegister c ts i) = column ts f i := by
  funext d
  exact congrArg f (writeRegister_writeRegister hts d c i)

/-- Amplitudes are equal if their columns are. -/
theorem eq_of_column (hts : ts.Nodup) {f g : Nat → A} (h : ∀ i, column ts f i = column ts g i) :
    f = g := by
  funext i
  rw [← column_row hts f i, ← column_row hts g i, h i]

variable [CommRing A]

theorem fold_eq_sum (f : Nat → A) (n : Nat) :
    Nat.fold n (fun k _ sum => sum + f k) 0 = ∑ k : Fin n, f k := by
  induction n with
  | zero => simp
  | succ n ih =>
      rw [Nat.fold_succ, ih, Fin.sum_univ_castSucc]
      rfl

theorem rowSum_eq (m : Unitary A) (ts : List QubitId) (f : Nat → A) (i : Nat) :
    rowSum m ts f i = (m.toMatrix ts.length).mulVec (column ts f i) (row ts i) :=
  fold_eq_sum (fun c => m.get (readRegister ts i) c * f (writeRegister c ts i)) _

/-- An operation multiplies the columns where it takes place by its matrix. -/
theorem column_act {op : Operation A} (h : op.qubits.Nodup) (f : Nat → A) (i : Nat) :
    column op.targets (op.act f) i =
      if op.Active i then (op.matrix.toMatrix op.targets.length).mulVec (column op.targets f i)
      else column op.targets f i := by
  have hts := nodup_targets h
  funext c
  unfold column act
  simp only [active_writeRegister hts (disjoint_controls h)]
  split
  · rw [rowSum_eq, row_writeRegister hts, column_writeRegister hts]
    rfl
  · rfl

end Columns

section Composition

open StateVector

variable [CommRing A] {m m' : Unitary A} {cs cs' : List Control} {ts ts' : List QubitId}

/-- An operation is undone by another one if its matrix is. -/
theorem act_act_of_mul_eq_one (h : (⟨m, cs, ts⟩ : Operation A).qubits.Nodup)
    (hmatrix : m'.toMatrix ts.length * m.toMatrix ts.length = 1) (f : Nat → A) :
    act ⟨m', cs, ts⟩ (act ⟨m, cs, ts⟩ f) = f := by
  refine eq_of_column (nodup_targets h) fun i => ?_
  have hinner := column_act h f i
  have h' : (⟨m', cs, ts⟩ : Operation A).qubits.Nodup := h
  have houter := column_act h' (act ⟨m, cs, ts⟩ f) i
  rw [houter, hinner]
  by_cases hactive : Active (⟨m, cs, ts⟩ : Operation A) i
  · have hactive' : Active (⟨m', cs, ts⟩ : Operation A) i := hactive
    rw [if_pos hactive, if_pos hactive', Matrix.mulVec_mulVec, hmatrix, Matrix.one_mulVec]
  · have hactive' : ¬Active (⟨m', cs, ts⟩ : Operation A) i := hactive
    rw [if_neg hactive, if_neg hactive']

theorem column_actAll_replicate (h : (⟨m, cs, ts⟩ : Operation A).qubits.Nodup) (n : Nat)
    (f : Nat → A) (i : Nat) :
    column ts (actAll (List.replicate n ⟨m, cs, ts⟩) f) i =
      if Active (⟨m, cs, ts⟩ : Operation A) i then
        (m.toMatrix ts.length ^ n).mulVec (column ts f i)
      else column ts f i := by
  induction n generalizing f with
  | zero => simp [actAll]
  | succ n ih =>
      have hstep := column_act h f i
      rw [List.replicate_succ, actAll, List.foldl_cons]
      have hrest := ih (act ⟨m, cs, ts⟩ f)
      rw [actAll] at hrest
      rw [hrest, hstep]
      split
      · rw [Matrix.mulVec_mulVec, pow_succ]
      · rfl

/-- An operation that is repeated is the one with the power of its matrix. -/
theorem actAll_replicate (h : (⟨m, cs, ts⟩ : Operation A).qubits.Nodup) {n : Nat}
    (hmatrix : m'.toMatrix ts.length = m.toMatrix ts.length ^ n) (f : Nat → A) :
    actAll (List.replicate n ⟨m, cs, ts⟩) f = act ⟨m', cs, ts⟩ f := by
  refine eq_of_column (nodup_targets h) fun i => ?_
  have h' : (⟨m', cs, ts⟩ : Operation A).qubits.Nodup := h
  have hpower := column_act h' f i
  rw [hpower, column_actAll_replicate h, hmatrix]
  rfl

/-- On the same targets, operations commute if their matrices do. -/
theorem act_comm_of_commute (h : (⟨m, cs, ts⟩ : Operation A).qubits.Nodup)
    (h' : (⟨m', cs', ts⟩ : Operation A).qubits.Nodup)
    (hmatrix : Commute (m.toMatrix ts.length) (m'.toMatrix ts.length)) (f : Nat → A) :
    act ⟨m, cs, ts⟩ (act ⟨m', cs', ts⟩ f) = act ⟨m', cs', ts⟩ (act ⟨m, cs, ts⟩ f) := by
  refine eq_of_column (nodup_targets h) fun i => ?_
  have hfirst := column_act h
  have hsecond := column_act h'
  dsimp only at hfirst hsecond
  rw [hfirst, hsecond, hsecond, hfirst]
  split
  · split
    · rw [Matrix.mulVec_mulVec, Matrix.mulVec_mulVec, hmatrix.eq]
    · rfl
  · rfl

/-- An operation seen from an index that another one writes to. -/
theorem act_writeRegister {op : Operation A} {ts : List QubitId} (hop : op.targets.Nodup)
    (hts : ts.Nodup) (h : op.qubits.Disjoint ts) (f : Nat → A) (v i : Nat) :
    op.act f (writeRegister v ts i) = op.act (fun j => f (writeRegister v ts j)) i := by
  have hcontrols : (op.controls.map Control.qubit).Disjoint ts :=
    List.disjoint_of_disjoint_append_left_left h
  have htargets : op.targets.Disjoint ts := List.disjoint_of_disjoint_append_left_right h
  have hrow : row op.targets (writeRegister v ts i) = row op.targets i :=
    Fin.ext (readRegister_writeRegister_of_disjoint hts htargets v i)
  have hcolumn : column op.targets f (writeRegister v ts i) =
      column op.targets (fun j => f (writeRegister v ts j)) i := by
    funext c
    exact congrArg f (writeRegister_comm hop hts htargets c v i)
  unfold act
  rw [rowSum_eq, rowSum_eq, hrow, hcolumn]
  exact if_congr (active_writeRegister hts hcontrols v i) rfl rfl

/-- An operation on a sum of amplitudes. -/
theorem act_sum {ι : Type} (s : Finset ι) (op : Operation A) (a : ι → A) (f : ι → Nat → A)
    (i : Nat) : op.act (fun j => ∑ k ∈ s, a k * f k j) i = ∑ k ∈ s, a k * op.act (f k) i := by
  unfold act
  split
  · simp only [rowSum_eq, Matrix.mulVec, dotProduct, column, Finset.mul_sum]
    rw [Finset.sum_comm]
    refine Finset.sum_congr rfl fun k _ => Finset.sum_congr rfl fun c _ => ?_
    exact mul_left_comm _ _ _
  · rfl

/-- Only the column of an index matters. -/
theorem act_congr {op : Operation A} (hop : op.targets.Nodup) {f g : Nat → A} {i : Nat}
    (h : ∀ d, f (writeRegister d op.targets i) = g (writeRegister d op.targets i)) :
    op.act f i = op.act g i := by
  have hself : f i = g i := by
    have hrow := h (readRegister op.targets i)
    rwa [writeRegister_readRegister hop] at hrow
  have hcolumn : column op.targets f i = column op.targets g i := funext fun c => h c
  unfold act
  rw [rowSum_eq, rowSum_eq, hcolumn, hself]

theorem act_of_active {op : Operation A} {i : Nat} (h : op.Active i) (f : Nat → A) :
    op.act f i = ∑ c : Fin (dimension op.targets.length),
      op.matrix.get (readRegister op.targets i) c * f (writeRegister c op.targets i) := by
  rw [act, if_pos h, rowSum_eq]
  rfl

/-- Operations that are apart commute. -/
theorem act_comm_of_apart {op op' : Operation A} (hop : op.targets.Nodup)
    (hop' : op'.targets.Nodup) (h : op.Apart op') (f : Nat → A) :
    op.act (op'.act f) = op'.act (op.act f) := by
  have hcontrols : (op.controls.map Control.qubit).Disjoint op'.targets :=
    List.disjoint_of_disjoint_append_left_left h.1
  have htargets : op.targets.Disjoint op'.targets := List.disjoint_of_disjoint_append_left_right h.1
  funext i
  by_cases hactive : op.Active i
  · have hleft : op.act (op'.act f) i = op'.act (fun j => ∑ c : Fin (dimension op.targets.length),
        op.matrix.get (readRegister op.targets i) c * f (writeRegister c op.targets j)) i := by
      rw [act_sum, act_of_active hactive]
      refine Finset.sum_congr rfl fun c _ => ?_
      rw [← act_writeRegister hop' hop h.2]
    rw [hleft]
    refine act_congr hop' fun d => ?_
    have hactive' := (active_writeRegister hop' hcontrols d i).2 hactive
    rw [act_of_active hactive', readRegister_writeRegister_of_disjoint hop' htargets]
  · have hleft : op.act (op'.act f) i = op'.act f i := if_neg hactive
    rw [hleft]
    refine act_congr hop' fun d => ?_
    have hactive' : ¬op.Active (writeRegister d op'.targets i) :=
      fun hd => hactive ((active_writeRegister hop' hcontrols d i).1 hd)
    exact (if_neg hactive').symm

end Composition

section States

open StateVector

variable [CommRing A]

theorem get_of_le {v : StateVector A} {i : Nat} (h : dimension v.qubits ≤ i) : v.get i = 0 := by
  rw [get_eq, Vector.getElem?_eq_none h]
  rfl

/-- The amplitudes of a state after an operation that fits it. -/
theorem get_apply {op : Operation A} {v : StateVector A} (h : op.Fits v.qubits) :
    (op.apply v).get = op.act v.get := by
  have htargets : ∀ t ∈ op.targets, t < v.qubits :=
    fun t ht => h.known t (List.mem_append_right _ ht)
  have hts := nodup_targets h.nodup
  funext i
  by_cases hi : i < dimension v.qubits
  · exact get_applyControlled op.matrix h.nodup v htargets hi
  · have hout : ∀ c, v.get (writeRegister c op.targets i) = 0 := by
      intro c
      refine get_of_le (Nat.le_of_not_lt fun hlt => hi ?_)
      have hback := writeRegister_lt hts htargets (readRegister op.targets i) hlt
      rwa [writeRegister_writeRegister hts, writeRegister_readRegister hts] at hback
    have hzero : op.act v.get i = op.act (fun _ => 0) i := act_congr hts fun d => hout d
    have hnone : (op.apply v).get i = 0 := get_of_le (v := op.apply v) (Nat.le_of_not_lt hi)
    rw [hnone, hzero, act, rowSum_eq]
    split
    · exact (congrFun (Matrix.mulVec_zero _) _).symm
    · rfl

theorem get_applyAll {ops : List (Operation A)} {v : StateVector A}
    (h : ∀ op ∈ ops, op.Fits v.qubits) : (applyAll ops v).get = actAll ops v.get := by
  induction ops generalizing v with
  | nil => rfl
  | cons op ops ih =>
      obtain ⟨hop, hops⟩ := List.forall_mem_cons.1 h
      rw [applyAll, List.foldl_cons, actAll, List.foldl_cons, ← get_apply hop]
      exact ih hops

/-- Operations that do the same to all amplitudes do the same to a state. -/
theorem applyAll_congr {ops ops' : List (Operation A)} {v : StateVector A}
    (hops : ∀ op ∈ ops, op.Fits v.qubits) (hops' : ∀ op ∈ ops', op.Fits v.qubits)
    (h : ∀ f, actAll ops f = actAll ops' f) : applyAll ops v = applyAll ops' v := by
  refine ext_get ?_ fun i _ => ?_
  · rw [qubits_applyAll, qubits_applyAll]
  · rw [get_applyAll hops, get_applyAll hops', h]

/-- A state that goes through operations that undo each other is as before. -/
theorem applyAll_applyAll {ops ops' : List (Operation A)} {v : StateVector A}
    (hops : ∀ op ∈ ops, op.Fits v.qubits) (hops' : ∀ op ∈ ops', op.Fits v.qubits)
    (h : ∀ f, actAll ops' (actAll ops f) = f) : applyAll ops' (applyAll ops v) = v := by
  have hall : applyAll (ops ++ ops') v = applyAll [] v :=
    applyAll_congr (List.forall_mem_append.2 ⟨hops, hops'⟩) (by simp)
      fun f => (actAll_append ops ops' f).trans (h f)
  rwa [applyAll, List.foldl_append] at hall

end States

end Operation

end OpenQasm
