import OpenQasm.Proofs.Modifiers.Bodies
import Mathlib.Data.List.Forall2

/-!
# Modifiers of gates without a body

Folding the modifiers of a gate with a matrix comes down to the polarities of the
control arguments in a row and the product of all exponents. The operations that
such a gate stands for have the single qubits among these arguments as controls.
-/
namespace OpenQasm

def Applied.polarity : Applied → List Bool
  | control on args => List.replicate args.length on
  | _ => []

def Applied.controls : Applied → List Control
  | control on args => args.filterMap fun arg =>
      match arg with
      | [q] => some ⟨q, on⟩
      | _ => none
  | _ => []

/-- What a modifier multiplies the exponent by. -/
def Applied.factor : Applied → Int
  | control _ _ => 1
  | inverse => -1
  | power k => k

/-- What modifiers in a row make of the exponent one. -/
def Applied.exponent (as : List Applied) : Int := as.foldr (fun a k => a.factor * k) 1

theorem Applied.exponent_cons (a : Applied) (as : List Applied) :
    exponent (a :: as) = a.factor * exponent as := rfl

theorem Applied.exponent_append_inverse (as : List Applied) :
    exponent (as ++ [.inverse]) = -exponent as := by
  induction as with
  | nil => rfl
  | cons a as ih => rw [List.cons_append, exponent_cons, exponent_cons, ih, Int.mul_neg]

theorem toInt_of_int64? {v : Int} {k : Int64} (h : int64? v = some k) : k.toInt = v := by
  unfold int64? at h
  split at h
  · rename_i hv
    cases h
    have hmin : Int64.minValue.toInt = -2 ^ 63 := by decide
    have hmax : Int64.maxValue.toInt = 2 ^ 63 - 1 := by decide
    exact Int64.toInt_ofInt_of_le (by omega) (by omega)
  · cases h

/-- A product that fits is the one of machine words. -/
theorem eq_mul_of_int64? {j k p : Int64} (h : int64? (j.toInt * k.toInt) = some p) : p = j * k := by
  rw [← Int64.ofInt_toInt p, toInt_of_int64? h, Int64.ofInt_mul, Int64.ofInt_toInt,
    Int64.ofInt_toInt]

namespace Scope

variable {R : Type} [Scalar R]

/-- One modifier of a gate without a body. -/
theorem foldModifiers_cons_ok {s : Scope R} {folded folded' : FoldedModifiers} {m : Modifier}
    {ms : List Modifier} (h : s.foldModifiers folded (m :: ms) = .ok folded') :
    (m.kind = .inv ∧ s.foldModifiers { folded with power := -folded.power } ms = .ok folded') ∨
    (∃ k, m.kind = .pow ∧ s.exponent m = .ok k ∧
      (folded.power * k).toInt = folded.power.toInt * k.toInt ∧
      s.foldModifiers { folded with power := folded.power * k } ms = .ok folded') ∨
    (∃ n, m.isControl = true ∧ s.controlCount m = .ok n ∧
      s.foldModifiers { folded with
        controls := folded.controls ++ List.replicate n (decide (m.kind = .ctrl)) } ms =
          .ok folded') := by
  obtain ⟨kind, arg⟩ := m
  rw [foldModifiers] at h
  cases kind with
  | inv => exact .inl ⟨rfl, h⟩
  | pow =>
      obtain ⟨k, hk, h⟩ := bind_ok_iff.1 h
      cases hp : int64? (folded.power.toInt * k.toInt) with
      | none =>
          rw [hp] at h
          cases h
      | some p =>
          rw [hp] at h
          obtain rfl := eq_mul_of_int64? hp
          exact .inr (.inl ⟨k, rfl, hk, toInt_of_int64? hp, h⟩)
  | ctrl | negctrl =>
      obtain ⟨n, hn, h⟩ := bind_ok_iff.1 h
      exact .inr (.inr ⟨n, rfl, hn, h⟩)

theorem length_controls_le {s : Scope R} {folded folded' : FoldedModifiers} {ms : List Modifier}
    (h : s.foldModifiers folded ms = .ok folded') :
    folded.controls.length ≤ folded'.controls.length := by
  induction ms generalizing folded with
  | nil =>
      cases h
      exact Nat.le_refl _
  | cons m ms ih =>
      rcases foldModifiers_cons_ok h with ⟨-, h⟩ | ⟨k, -, -, -, h⟩ | ⟨n, -, -, h⟩
      · have := ih h
        exact this
      · have := ih h
        exact this
      · have := ih h
        simp only [List.length_append] at this
        omega

theorem mapM_take_drop {ε α β : Type} {f : α → Except ε β} {as : List α} {bs : List β}
    (h : as.mapM f = .ok bs) (n : Nat) :
    (as.take n).mapM f = .ok (bs.take n) ∧ (as.drop n).mapM f = .ok (bs.drop n) := by
  induction as generalizing n bs with
  | nil =>
      obtain rfl := mapM_nil_ok_iff.1 h
      simp only [List.take_nil, List.drop_nil]
      exact ⟨h, h⟩
  | cons a as ih =>
      obtain ⟨b, bs, hb, hbs, rfl⟩ := mapM_cons_ok_iff.1 h
      cases n with
      | zero => exact ⟨rfl, h⟩
      | succ n =>
          obtain ⟨htake, hdrop⟩ := ih hbs n
          exact ⟨mapM_cons_ok_iff.2 ⟨b, bs.take n, hb, htake, rfl⟩, hdrop⟩

/-- Modifiers of a gate without a body, once its arguments resolve. -/
theorem applied_of_foldModifiers {s : Scope R} {folded folded' : FoldedModifiers}
    {ms : List Modifier} {qs : List Expr} {args : List (List QubitId)}
    (h : s.foldModifiers folded ms = .ok folded') (hargs : qs.mapM s.qubitsOf = .ok args)
    (hlen : folded'.controls.length ≤ folded.controls.length + qs.length) :
    ∃ as, s.applied ms qs = .ok as ∧
      folded'.controls = folded.controls ++ as.flatMap Applied.polarity ∧
      folded'.power = folded.power * Int64.ofInt (Applied.exponent as) ∧
      as.flatMap Applied.args = args.take (folded'.controls.length - folded.controls.length) := by
  induction ms generalizing folded qs args with
  | nil =>
      cases h
      exact ⟨[], rfl, by simp, (Int64.mul_one _).symm, by simp⟩
  | cons m ms ih =>
      rcases foldModifiers_cons_ok h with ⟨hkind, h⟩ | ⟨k, hkind, hk, -, h⟩ | ⟨n, hm, hn, h⟩
      · obtain ⟨as, has, hcontrols, hpower, htaken⟩ := ih h hargs hlen
        refine ⟨.inverse :: as, applied_cons_ok_iff.2 ⟨.inverse, as, ?_, has, rfl⟩, hcontrols, ?_,
          htaken⟩
        · rw [resolveModifier, hkind]
        · rw [hpower, Applied.exponent_cons, Applied.factor, Int.neg_one_mul, Int64.ofInt_neg,
            Int64.mul_neg, Int64.neg_mul]
      · obtain ⟨as, has, hcontrols, hpower, htaken⟩ := ih h hargs hlen
        refine ⟨.power k.toInt :: as, applied_cons_ok_iff.2 ⟨.power k.toInt, as, ?_, has, rfl⟩,
          hcontrols, ?_, htaken⟩
        · rw [resolveModifier, hkind]
          exact bind_ok_iff.2 ⟨k, hk, rfl⟩
        · rw [hpower, Applied.exponent_cons, Applied.factor, Int64.ofInt_mul, Int64.ofInt_toInt,
            Int64.mul_assoc]
      · have hn_le := length_controls_le h
        simp only [List.length_append, List.length_replicate] at hn_le
        obtain ⟨htake, hdrop⟩ := mapM_take_drop hargs n
        have hown : (args.take n).length = n := by
          rw [List.length_take, length_of_mapM hargs]
          omega
        obtain ⟨as, has, hcontrols, hpower, htaken⟩ := ih h hdrop (by
          simp only [List.length_append, List.length_replicate, List.length_drop]
          omega)
        refine ⟨.control (m.kind = .ctrl) (args.take n) :: as,
          applied_cons_ok_iff.2 ⟨_, as, ?_, ?_, rfl⟩, ?_, ?_, ?_⟩
        · exact (resolveModifier_control hm).2 ⟨n, _, hn, htake, rfl⟩
        · rw [Applied.args, hown]
          exact has
        · rw [hcontrols, List.flatMap_cons, Applied.polarity, hown, List.append_assoc]
        · rw [hpower, Applied.exponent_cons, Applied.factor, Int.one_mul]
        · rw [List.flatMap_cons, htaken, Applied.args, List.length_append, List.length_replicate,
            ← List.take_add]
          congr 1
          omega

end Scope

/-! Operations -/

/-- The qubit of an argument that takes part in a run of a gate. -/
def picked (i : Nat) (arg : List QubitId) : Option QubitId :=
  if arg.length = 1 then arg[0]? else arg[i]?

theorem mem_of_picked {i : Nat} {arg : List QubitId} {q : QubitId} (h : picked i arg = some q) :
    q ∈ arg := by
  unfold picked at h
  split at h
  · exact List.mem_of_getElem? h
  · exact List.mem_of_getElem? h

theorem exists_picked {n i : Nat} (hi : i < n) {arg : List QubitId}
    (h : arg.length = 1 ∨ arg.length = n) : ∃ q, picked i arg = some q := by
  unfold picked
  split
  · exact ⟨arg.get ⟨0, by omega⟩, List.getElem?_eq_getElem (by omega)⟩
  · exact ⟨arg.get ⟨i, by omega⟩, List.getElem?_eq_getElem (by omega)⟩

/-- The number of runs is the size of the largest argument, and the others are single qubits. -/
theorem broadcast_ok {args runs : List (List QubitId)} (h : broadcast args = .ok runs) :
    ∃ n, (∀ arg ∈ args, arg.length = 1 ∨ arg.length = n) ∧ (∀ arg ∈ args, arg.length ≤ n) ∧
      runs = (List.range n).map fun i => args.filterMap (picked i) := by
  unfold broadcast at h
  dsimp only at h
  split at h
  · cases h
  · rename_i hnone
    cases h
    refine ⟨_, fun arg harg => ?_, fun arg harg => ?_, rfl⟩
    · have hsize := List.find?_eq_none.1 hnone arg harg
      simp only [decide_eq_true_eq, not_and_or, not_not] at hsize
      exact hsize
    · have hmem : arg.length ∈ args.map List.length := List.mem_map_of_mem harg
      cases hmax : (args.map List.length).max? with
      | none =>
          rw [List.max?_eq_none_iff] at hmax
          rw [hmax] at hmem
          cases hmem
      | some n => exact (List.max?_eq_some_iff.1 hmax).2 _ hmem

theorem forall2_run {n i : Nat} (hi : i < n) {args : List (List QubitId)}
    (h : ∀ arg ∈ args, arg.length = 1 ∨ arg.length = n) :
    List.Forall₂ (· ∈ ·) (args.filterMap (picked i)) args := by
  induction args with
  | nil => exact .nil
  | cons arg args ih =>
      obtain ⟨harg, hargs⟩ := List.forall_mem_cons.1 h
      obtain ⟨q, hq⟩ := exists_picked hi harg
      rw [List.filterMap_cons_some hq]
      exact .cons (mem_of_picked hq) (ih hargs)

/-- Every run of a gate takes one qubit of each argument. -/
theorem forall2_broadcast {args runs : List (List QubitId)} (h : broadcast args = .ok runs) :
    ∀ run ∈ runs, List.Forall₂ (· ∈ ·) run args := by
  obtain ⟨n, hsizes, -, rfl⟩ := broadcast_ok h
  intro run hrun
  obtain ⟨i, hi, rfl⟩ := List.mem_map.1 hrun
  exact forall2_run (List.mem_range.1 hi) hsizes

theorem broadcast_ne_nil {args runs : List (List QubitId)} (h : broadcast args = .ok runs)
    {arg : List QubitId} (harg : arg ∈ args) (hne : arg ≠ []) : runs ≠ [] := by
  obtain ⟨n, -, hle, rfl⟩ := broadcast_ok h
  have hpos : 0 < arg.length := List.length_pos_of_ne_nil hne
  have hn := hle arg harg
  simp only [ne_eq, List.map_eq_nil_iff, List.range_eq_nil]
  omega

theorem controls_subset_replicate {on : Bool} {args : List (List QubitId)} {qs : List QubitId}
    (h : List.Forall₂ (· ∈ ·) qs args) :
    (Applied.control on args).controls ⊆
      List.zipWith Control.mk qs (List.replicate args.length on) := by
  induction h with
  | nil => exact List.nil_subset _
  | @cons q arg qs args hq _ ih =>
      rw [List.length_cons, List.replicate_succ, List.zipWith_cons_cons]
      intro c hc
      rw [Applied.controls, List.filterMap_cons] at hc
      split at hc
      · exact List.mem_cons_of_mem _ (ih hc)
      · rename_i c' hsome
        rcases List.mem_cons.1 hc with rfl | hc
        · split at hsome
          · rename_i q'
            cases hsome
            rw [List.mem_singleton.1 hq]
            exact List.mem_cons_self
          · cases hsome
        · exact List.mem_cons_of_mem _ (ih hc)

/-- The single qubits among control arguments are controls of every run. -/
theorem controls_subset_zipWith {as : List Applied} {args : List (List QubitId)}
    {qs : List QubitId} (h : List.Forall₂ (· ∈ ·) qs (as.flatMap Applied.args ++ args))
    (polarity : List Bool) :
    as.flatMap Applied.controls ⊆
      List.zipWith Control.mk qs (as.flatMap Applied.polarity ++ polarity) := by
  induction as generalizing qs with
  | nil => exact List.nil_subset _
  | cons a as ih =>
      cases a with
      | inverse => exact ih h
      | power k => exact ih h
      | control on args' =>
          simp only [List.flatMap_cons, List.append_assoc, Applied.args, Applied.polarity] at h ⊢
          have hown := List.forall₂_take_append _ _ _ h
          have hrest := List.forall₂_drop_append _ _ _ h
          have hlen : (qs.take args'.length).length = (List.replicate args'.length on).length := by
            rw [List.length_replicate, hown.length_eq]
          rw [← List.take_append_drop args'.length qs, List.zipWith_append hlen]
          exact List.append_subset.2
            ⟨fun c hc => List.mem_append_left _ (controls_subset_replicate hown hc),
              fun c hc => List.mem_append_right _ (ih hrest hc)⟩

theorem zipWith_take_length {α β γ : Type} (f : α → β → γ) (as : List α) (bs : List β) :
    List.zipWith f (as.take bs.length) bs = List.zipWith f as bs := by
  induction as generalizing bs with
  | nil => simp
  | cons a as ih =>
      cases bs with
      | nil => simp
      | cons b bs => simp [ih]

theorem map_qubit_zipWith {qs : List QubitId} {polarity : List Bool}
    (h : qs.length ≤ polarity.length) :
    (List.zipWith Control.mk qs polarity).map Control.qubit = qs := by
  induction qs generalizing polarity with
  | nil => simp
  | cons q qs ih =>
      cases polarity with
      | nil => simp at h
      | cons on polarity =>
          rw [List.zipWith_cons_cons, List.map_cons, ih (by simpa using h)]

theorem Scope.qubits_operation {R : Type} (matrix : Unitary (Amplitude R)) (polarity : List Bool)
    (run : List QubitId) : (operation matrix polarity run).qubits = run := by
  rw [operation, Operation.qubits, map_qubit_zipWith (by rw [List.length_take]; omega)]
  exact List.take_append_drop _ _

namespace Fourier

variable {R : Type} [Scalar R]

theorem subset_phaseSteps {controls : List Control} {target : QubitId} {distance : Nat}
    {qs : List QubitId} {op : Operation (Amplitude R)}
    (h : op ∈ phaseSteps controls target distance qs) : controls ⊆ op.controls := by
  induction qs generalizing distance with
  | nil => cases h
  | cons q qs ih =>
      rcases List.mem_cons.1 h with rfl | h
      · exact List.subset_cons_self _ _
      · exact ih h

theorem subset_rotations {controls : List Control} {qs : List QubitId}
    {op : Operation (Amplitude R)} (h : op ∈ rotations controls qs) :
    controls ⊆ op.controls := by
  induction qs with
  | nil => cases h
  | cons q qs ih =>
      rcases List.mem_cons.1 h with rfl | h
      · exact List.Subset.refl _
      · rcases List.mem_append.1 h with h | h
        · exact subset_phaseSteps h
        · exact ih h

/-- All operations of a Fourier transform stand under its controls. -/
theorem subset_operations {controls : List Control} {qs : List QubitId}
    {op : Operation (Amplitude R)} (h : op ∈ operations controls qs) :
    controls ⊆ op.controls := by
  rcases List.mem_append.1 h with h | h
  · exact subset_rotations h
  · obtain ⟨pair, -, rfl⟩ := List.mem_map.1 h
    exact List.Subset.refl _

theorem subset_inverseOperations {controls : List Control} {qs : List QubitId}
    {op : Operation (Amplitude R)} (h : op ∈ inverseOperations controls qs) :
    controls ⊆ op.controls := by
  obtain ⟨op', hop', rfl⟩ := List.mem_map.1 h
  have := subset_operations (List.mem_reverse.1 hop')
  exact this

end Fourier

namespace Scope

variable {R : Type} [Scalar R]

/-- What the operations of a gate with a matrix are made of. -/
theorem standardOperations_ok {s : Scope R} {gate : StandardGate} {ms : List Modifier}
    {params qargs : List Expr} {ops : List (Operation (Amplitude R))}
    (h : s.standardOperations gate ms params qargs = .ok ops) :
    ∃ folded angles args runs, s.resolveModifiers ms = .ok folded ∧
      params.mapM s.angle = .ok angles ∧
      qargs.length = folded.controls.length + gate.qubitCount ∧
      qargs.mapM s.qubitsOf = .ok args ∧ broadcast args = .ok runs ∧
      ops = runs.map (operation
        (if folded.power.toInt = 1 then gate.matrix angles
          else (gate.matrix angles).pow folded.power.toInt)
        (folded.controls ++ List.replicate gate.controlCount true)) := by
  unfold standardOperations at h
  obtain ⟨folded, hfolded, h⟩ := bind_ok_iff.1 h
  by_cases hparams : params.length ≠ gate.paramCount
  · rw [if_pos hparams] at h
    cases h
  rw [if_neg hparams] at h
  dsimp only at h
  by_cases hlen : qargs.length ≠ folded.controls.length + gate.qubitCount
  · rw [if_pos hlen] at h
    cases h
  rw [if_neg hlen] at h
  push Not at hlen
  obtain ⟨angles, hangles, h⟩ := bind_ok_iff.1 h
  have hcount : angles.length = gate.paramCount := by
    rw [length_of_mapM hangles]
    exact not_not.1 hparams
  rw [StandardGate.decompose, if_pos hcount] at h
  obtain ⟨_, hbase, h⟩ := bind_ok_iff.1 h
  cases hbase
  obtain ⟨args, hargs, h⟩ := bind_ok_iff.1 h
  obtain ⟨runs, hruns, h⟩ := bind_ok_iff.1 h
  cases h
  exact ⟨folded, angles, args, runs, hfolded, hangles, hlen, hargs, hruns, rfl⟩

/-- If a gate with a matrix can be applied, its modifiers resolve, and all operations it
stands for have their single control qubits. -/
theorem applied_of_standardOperations {s : Scope R} {gate : StandardGate} {ms : List Modifier}
    {params qargs : List Expr} {ops : List (Operation (Amplitude R))}
    (h : s.standardOperations gate ms params qargs = .ok ops) :
    ∃ as, s.applied ms qargs = .ok as ∧ ∀ op ∈ ops, as.flatMap Applied.controls ⊆ op.controls := by
  obtain ⟨folded, angles, args, runs, hfolded, -, hlen, hargs, hruns, rfl⟩ :=
    standardOperations_ok h
  obtain ⟨as, has, hcontrols, -, htaken⟩ :=
    applied_of_foldModifiers hfolded hargs (by rw [List.length_nil]; omega)
  refine ⟨as, has, fun op hop => ?_⟩
  obtain ⟨run, hrun, rfl⟩ := List.mem_map.1 hop
  have hforall := forall2_broadcast hruns run hrun
  rw [← List.take_append_drop folded.controls.length args] at hforall
  simp only [List.length_nil, Nat.sub_zero, List.nil_append] at htaken hcontrols
  rw [← htaken] at hforall
  rw [operation, hcontrols, zipWith_take_length]
  exact controls_subset_zipWith hforall _

/-- What a Fourier transform acts on. -/
theorem fourierCall_ok {s : Scope R} {gate : Builtin} {ms : List Modifier}
    {params qargs : List Expr} {c : FourierCall}
    (h : s.fourierCall gate ms params qargs = .ok c) :
    ∃ folded qs registers, params = [] ∧ s.resolveModifiers ms = .ok folded ∧
      folded.controls.length < qargs.length ∧ qs.length = folded.controls.length ∧
      qargs.mapM s.qubitsOf = .ok (qs.map (fun q => [q]) ++ registers) ∧
      c.controls = List.zipWith Control.mk qs folded.controls ∧ c.register = registers.flatten ∧
      c.times = folded.power.toInt.natAbs ∧
      c.inverse = ((gate = .iqft) != (folded.power.toInt < 0)) := by
  unfold fourierCall at h
  by_cases hparams : params.isEmpty
  swap
  · rw [if_neg hparams] at h
    cases h
  rw [if_pos hparams] at h
  obtain ⟨folded, hfolded, h⟩ := bind_ok_iff.1 h
  dsimp only at h
  by_cases hlen : qargs.length ≤ folded.controls.length
  · rw [if_pos hlen] at h
    cases h
  rw [if_neg hlen] at h
  obtain ⟨qs, hqs, h⟩ := bind_ok_iff.1 h
  obtain ⟨registers, hregisters, h⟩ := bind_ok_iff.1 h
  cases h
  have hargs := mapM_append_ok_iff.2
    ⟨_, _, mapM_singleQubit_ok_iff.1 hqs, hregisters, rfl⟩
  rw [List.take_append_drop] at hargs
  refine ⟨folded, qs, registers, List.isEmpty_iff.1 hparams, hfolded, Nat.not_le.1 hlen, ?_, hargs,
    rfl, rfl, rfl, rfl⟩
  rw [length_of_mapM hqs, List.length_take]
  omega

/-- If a Fourier transform can be applied, its modifiers resolve to its controls. -/
theorem applied_of_fourierCall {s : Scope R} {gate : Builtin} {ms : List Modifier}
    {params qargs : List Expr} {c : FourierCall}
    (h : s.fourierCall gate ms params qargs = .ok c) :
    ∃ as, s.applied ms qargs = .ok as ∧ as.flatMap Applied.controls ⊆ c.controls := by
  obtain ⟨folded, qs, registers, -, hfolded, hlen, hqs, hargs, hc, -, -⟩ := fourierCall_ok h
  obtain ⟨as, has, hcontrols, -, htaken⟩ :=
    applied_of_foldModifiers hfolded hargs (by rw [List.length_nil]; omega)
  refine ⟨as, has, ?_⟩
  simp only [List.length_nil, Nat.sub_zero, List.nil_append] at htaken hcontrols
  rw [List.take_left' (by rw [List.length_map, hqs])] at htaken
  have hforall : List.Forall₂ (· ∈ ·) qs (as.flatMap Applied.args ++ []) := by
    rw [htaken, List.append_nil, List.forall₂_map_right_iff]
    exact List.forall₂_same.2 fun q _ => List.mem_singleton_self q
  have hsubset := controls_subset_zipWith hforall []
  rwa [List.append_nil, ← hcontrols, ← hc] at hsubset

end Scope

end OpenQasm
