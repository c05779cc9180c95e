import OpenQasm.Proofs.Quantum.InverseTransform
import OpenQasm.Proofs.Quantum.Runs

/-!
# Undoing a gate

A gate without a body is followed by the same statement under `inv`. The second statement
makes its runs in the order of the first one, so the state is restored if each run of the
inverse commutes with the later runs of the gate: if all runs have the same targets, or
none of them changes a qubit of another one. Where one target is a single qubit and the
other a register, the state is not restored.
-/
namespace OpenQasm

/-! Modifiers with one more `inv` -/

namespace Scope

variable {R : Type} [Scalar R]

/-- A product that fits with either sign of a factor is not the least 64-bit integer, which has
no negation. -/
theorem toInt_neg_mul {p k : Int64} (hp : (-p).toInt = -p.toInt)
    (h : (p * k).toInt = p.toInt * k.toInt) (h' : (-p * k).toInt = (-p).toInt * k.toInt) :
    (-(p * k)).toInt = -(p * k).toInt := by
  rw [← Int64.neg_mul, h', hp, h, Int.neg_mul]

/-- An exponent that is negated at the start is negated in the end. -/
theorem foldModifiers_neg {s : Scope R} {ms : List Modifier} {cs : List Bool} {p : Int64}
    (hp : (-p).toInt = -p.toInt) {folded folded' : FoldedModifiers}
    (h : s.foldModifiers ⟨cs, p⟩ ms = .ok folded)
    (h' : s.foldModifiers ⟨cs, -p⟩ ms = .ok folded') :
    folded'.controls = folded.controls ∧ folded'.power.toInt = -folded.power.toInt := by
  induction ms generalizing cs p with
  | nil =>
      cases h
      cases h'
      exact ⟨rfl, hp⟩
  | cons m ms ih =>
      rcases foldModifiers_cons_ok h with ⟨hkind, h⟩ | ⟨k, hkind, hk, hfits, h⟩ | ⟨n, hm, hn, h⟩
      · rcases foldModifiers_cons_ok h' with ⟨-, h'⟩ | ⟨k, hkind', -⟩ | ⟨n, hm, -⟩
        · refine ih ?_ h h'
          rw [hp, Int64.neg_neg, Int.neg_neg]
        · rw [hkind] at hkind'
          cases hkind'
        · rw [Modifier.isControl, hkind] at hm
          cases hm
      · rcases foldModifiers_cons_ok h' with ⟨hkind', -⟩ | ⟨k', -, hk', hfits', h'⟩ | ⟨n, hm, -⟩
        · rw [hkind] at hkind'
          cases hkind'
        · obtain rfl : k = k' := Except.ok.inj (hk.symm.trans hk')
          have hnext := toInt_neg_mul hp hfits hfits'
          rw [Int64.neg_mul] at h'
          exact ih hnext h h'
        · rw [Modifier.isControl, hkind] at hm
          cases hm
      · rcases foldModifiers_cons_ok h' with ⟨hkind, -⟩ | ⟨k, hkind, -⟩ | ⟨n', -, hn', h'⟩
        · rw [Modifier.isControl, hkind] at hm
          cases hm
        · rw [Modifier.isControl, hkind] at hm
          cases hm
        · obtain rfl : n = n' := Except.ok.inj (hn.symm.trans hn')
          exact ih hp h h'

theorem resolveModifiers_inv {s : Scope R} {ms : List Modifier} {folded folded' : FoldedModifiers}
    (h : s.resolveModifiers ms = .ok folded)
    (h' : s.resolveModifiers (Modifier.inv :: ms) = .ok folded') :
    folded'.controls = folded.controls ∧ folded'.power.toInt = -folded.power.toInt :=
  foldModifiers_neg (by decide) h h'

end Scope

/-! Operations that undo each other -/

section Undone

open Operation

variable {R : Type} [ExactScalar R]

/-- Where a sequence is undone once, it can be undone as often as it is repeated. -/
theorem actAll_replicate_flatten {ops ops' : List (Operation (Amplitude R))}
    (h : ∀ f, actAll ops' (actAll ops f) = f) (n : Nat) (f : Nat → Amplitude R) :
    actAll (List.replicate n ops').flatten (actAll (List.replicate n ops).flatten f) = f := by
  induction n with
  | zero => rfl
  | succ n ih =>
      have hlast : (List.replicate (n + 1) ops).flatten = (List.replicate n ops).flatten ++ ops := by
        rw [List.replicate_succ', List.flatten_append, List.flatten_singleton]
      rw [hlast, List.replicate_succ, List.flatten_cons, actAll_append, actAll_append, h, ih]

namespace Scope

/-- The operations of a gate with a matrix, and those of the same gate under `inv`. -/
theorem actAll_standardOperations_inv (hexact : StandardGate.AllExact R) {s : Scope R}
    (hs : s.RegistersApart) {g : StandardGate} {ms : List Modifier} {ps qs : List Expr}
    (halike : s.TargetsAlike (.standard g) qs) {ops ops' : List (Operation (Amplitude R))}
    (hops : s.standardOperations g ms ps qs = .ok ops)
    (hops' : s.standardOperations g (Modifier.inv :: ms) ps qs = .ok ops') {n : Nat}
    (hfits : ∀ op ∈ ops, op.Fits n) (f : Nat → Amplitude R) : actAll ops' (actAll ops f) = f := by
  obtain ⟨folded, angles, args, runs, hfolded, hangles, hlen, hargs, hruns, rfl⟩ :=
    standardOperations_ok hops
  obtain ⟨folded', angles', args', runs', hfolded', hangles', -, hargs', hruns', rfl⟩ :=
    standardOperations_ok hops'
  obtain ⟨hcontrols, hpower⟩ := resolveModifiers_inv hfolded hfolded'
  rw [hcontrols, hpower]
  obtain rfl : angles = angles' := Except.ok.inj (hangles.symm.trans hangles')
  obtain rfl : args = args' := Except.ok.inj (hargs.symm.trans hargs')
  obtain rfl : runs = runs' := Except.ok.inj (hruns.symm.trans hruns')
  have hrun : ∀ run ∈ runs, run.Nodup := by
    intro run hrun
    have hnodup := (hfits _ (List.mem_map_of_mem hrun)).nodup
    rwa [qubits_operation] at hnodup
  have hpolarity : (folded.controls ++ List.replicate g.controlCount true).length =
      args.length - g.targetCount := by
    rw [List.length_append, List.length_replicate, length_of_mapM hargs, hlen,
      StandardGate.qubitCount]
    omega
  change actAll (runs.map (operation ((g.matrix angles).raised (-folded.power.toInt)) _))
    (actAll (runs.map (operation ((g.matrix angles).raised folded.power.toInt) _)) f) = f
  refine actAll_runs hruns (hs.nodup_flatten hargs hruns hrun) ?_
    (fun run hmem => ⟨hrun run hmem, ?_⟩) f
  · rw [hpolarity]
    exact halike g rfl args hargs
  · have htargets := (hfits _ (List.mem_map_of_mem hmem)).targets
    exact (hexact g angles).raised_neg_mul_raised
      ((Unitary.qubits_raised _ folded.power.toInt).symm.trans htargets) folded.power.toInt

/-- Under `inv`, a Fourier transform goes the other way. -/
theorem fourierCall_inv {s : Scope R} {b : Builtin} {ms : List Modifier} {ps qs : List Expr}
    {c c' : FourierCall} (hc : s.fourierCall b ms ps qs = .ok c)
    (hc' : s.fourierCall b (Modifier.inv :: ms) ps qs = .ok c') :
    c'.controls = c.controls ∧ c'.register = c.register ∧ c'.times = c.times ∧
      (c.times ≠ 0 → c'.inverse = !c.inverse) := by
  obtain ⟨folded, cqs, registers, -, hfolded, -, hcqs, hargs, hcontrols, hregister, htimes,
    hinverse⟩ := fourierCall_ok hc
  obtain ⟨folded', cqs', registers', -, hfolded', -, hcqs', hargs', hcontrols', hregister', htimes',
    hinverse'⟩ := fourierCall_ok hc'
  obtain ⟨hsame, hpower⟩ := resolveModifiers_inv hfolded hfolded'
  rw [hsame] at hcqs' hcontrols'
  rw [hpower] at htimes' hinverse'
  have hlength : (cqs.map fun q => [q]).length = (cqs'.map fun q => [q]).length := by
    rw [List.length_map, List.length_map, hcqs, hcqs']
  obtain ⟨hsingle, rfl⟩ := List.append_inj (Except.ok.inj (hargs.symm.trans hargs')) hlength
  obtain rfl : cqs = cqs' := List.map_injective_iff.2 List.singleton_injective hsingle
  refine ⟨hcontrols'.trans hcontrols.symm, hregister'.trans hregister.symm, ?_, fun hne => ?_⟩
  · rw [htimes', htimes, Int.natAbs_neg]
  · rw [hinverse', hinverse]
    rw [htimes] at hne
    have hsign : decide (-folded.power.toInt < 0) = !decide (folded.power.toInt < 0) := by
      rw [← decide_not, decide_eq_decide]
      omega
    rw [hsign]
    cases decide (b = Builtin.iqft) <;> cases decide (folded.power.toInt < 0) <;> rfl

/-- The operations of a Fourier transform, and those of the same transform under `inv`. -/
theorem actAll_fourierCall_inv (hexact : StandardGate.AllExact R) {s : Scope R} {b : Builtin}
    {ms : List Modifier} {ps qs : List Expr} {c c' : FourierCall}
    (hc : s.fourierCall b ms ps qs = .ok c)
    (hc' : s.fourierCall b (Modifier.inv :: ms) ps qs = .ok c') {n : Nat}
    (hfits : ∀ op ∈ (c.operations : List (Operation (Amplitude R))), op.Fits n)
    (f : Nat → Amplitude R) : actAll c'.operations (actAll c.operations f) = f := by
  obtain ⟨hcontrols, hregister, htimes, hinverse⟩ := fourierCall_inv hc hc'
  unfold FourierCall.operations at hfits ⊢
  rw [hcontrols, hregister, htimes]
  by_cases hzero : c.times = 0
  · rw [hzero]
    rfl
  · rw [hinverse hzero]
    have honce : ∀ op ∈ (if c.inverse then Fourier.inverseOperations c.controls c.register
        else Fourier.operations c.controls c.register : List (Operation (Amplitude R))),
        op.Fits n := by
      intro op hop
      exact hfits op (List.mem_flatten.2 ⟨_, List.mem_replicate.2 ⟨hzero, rfl⟩, hop⟩)
    refine actAll_replicate_flatten (fun f => ?_) c.times f
    cases hdirection : c.inverse with
    | true =>
        rw [hdirection] at honce
        exact Fourier.actAll_operations (.of_allExact hexact) honce f
    | false =>
        rw [hdirection] at honce
        exact Fourier.actAll_inverseOperations (.of_allExact hexact) honce f

theorem actAll_leafOperations_inv (hexact : StandardGate.AllExact R) {s : Scope R}
    (hs : s.RegistersApart) {gate : LeafGate} {ms : List Modifier} {ps qs : List Expr}
    (halike : s.TargetsAlike gate qs) {ops ops' : List (Operation (Amplitude R))}
    (hops : s.leafOperations gate ms ps qs = .ok ops)
    (hops' : s.leafOperations gate (Modifier.inv :: ms) ps qs = .ok ops') {n : Nat}
    (hfits : ∀ op ∈ ops, op.Fits n) (f : Nat → Amplitude R) : actAll ops' (actAll ops f) = f := by
  cases gate with
  | standard g => exact actAll_standardOperations_inv hexact hs halike hops hops' hfits f
  | fourier | inverseFourier =>
      obtain ⟨c, hc, rfl⟩ := map_ok_iff.1 hops
      obtain ⟨c', hc', rfl⟩ := map_ok_iff.1 hops'
      exact actAll_fourierCall_inv hexact hc hc' hfits f

end Scope

/-- A machine whose state goes through operations that undo each other is as before. -/
theorem Machine.applyAll_applyAll {m : Machine R (Simulator R)}
    {ops ops' : List (Operation (Amplitude R))}
    (hops : ∀ op ∈ ops, op.Fits m.backend.state.qubits)
    (hops' : ∀ op ∈ ops', op.Fits (m.applyAll ops).backend.state.qubits)
    (h : ∀ f, actAll ops' (actAll ops f) = f) : (m.applyAll ops).applyAll ops' = m := by
  change ∀ op ∈ ops', op.Fits (Operation.applyAll ops m.backend.state).qubits at hops'
  rw [qubits_applyAll] at hops'
  unfold Machine.applyAll
  rw [Operation.applyAll_applyAll hops hops' h]

end Undone

variable {R : Type} [ExactScalar R]

/-- A gate without a body, with any modifiers, parameters and arguments, is undone by the same
statement under one more `inv`: scope, state, output and random draws are as before. The last
arguments, which are changed, have to be of one size. -/
theorem inv_undoes_gate (hexact : StandardGate.AllExact R) (config : Config)
    (deeper : Option (BodyRunner R (Simulator R))) {s s₁ s₂ : Scope R} (hs : s.RegistersApart)
    {w : GateWord} {gate : LeafGate} (hw : w.Means s gate) {ms : List Modifier} {ps qs : List Expr}
    (halike : s.TargetsAlike gate qs) {m m₁ m₂ : Machine R (Simulator R)} {flow flow' : Flow R}
    (hrun : Exec.stmt config deeper (w.stmt ms ps qs) (s, m) = (.ok flow, (s₁, m₁)))
    (hundo : Exec.stmt config deeper (w.stmt (Modifier.inv :: ms) ps qs) (s₁, m₁) =
      (.ok flow', (s₂, m₂))) :
    s₂ = s ∧ m₂ = m := by
  obtain ⟨rfl, -, ops, hops, hfits, rfl⟩ := Exec.ran_gateWord hw hrun
  obtain ⟨rfl, -, ops', hops', hfits', rfl⟩ := Exec.ran_gateWord hw hundo
  refine ⟨rfl, Machine.applyAll_applyAll hfits hfits' fun f => ?_⟩
  exact Scope.actAll_leafOperations_inv hexact hs halike hops hops' hfits f

noncomputable def twoPairs : Scope ℝ :=
  { Scope.root with qubits := ⟨[("n", [0]), ("c", [1, 2]), ("t", [3, 4])]⟩ }

def rotatePairs (ms : List Modifier) : Stmt :=
  (GateWord.named "crx").stmt
    (ms ++ [.mk .negctrl none, .mk .pow (some (.unary .neg (.lit ⟨.int, "3"⟩)))])
    [.ident "pi"] [.ident "n", .ident "c", .ident "t"]

noncomputable def rotatedPairs : Scope ℝ × Machine ℝ (Simulator ℝ) :=
  (Exec.stmt {} none (rotatePairs []) (twoPairs, zeroMachine 5)).2

theorem inv_undoes_rotatePairs :
    (Exec.stmt {} none (rotatePairs []) (twoPairs, zeroMachine 5)).1.isOk = true ∧
      (Exec.stmt {} none (rotatePairs [Modifier.inv]) rotatedPairs).1.isOk = true ∧
      (Exec.stmt {} none (rotatePairs [Modifier.inv]) rotatedPairs).2 = (twoPairs, zeroMachine 5) := by
  have hrun : (Exec.stmt {} none (rotatePairs []) (twoPairs, zeroMachine 5)).1.isOk = true := by
    decide +kernel
  have hundo : (Exec.stmt {} none (rotatePairs [Modifier.inv]) rotatedPairs).1.isOk = true := by
    decide +kernel
  obtain ⟨flow, hflow⟩ := exists_of_isOk hrun
  obtain ⟨flow', hflow'⟩ := exists_of_isOk hundo
  have hmeans : (GateWord.named "crx").Means twoPairs (.standard .crx) := ⟨rfl, rfl, .crx, rfl, rfl⟩
  have hapart : twoPairs.RegistersApart := by decide
  have halike : twoPairs.TargetsAlike (.standard .crx) [.ident "n", .ident "c", .ident "t"] := by
    rintro g ⟨⟩ args hargs
    cases hargs
    exact ⟨2, by decide⟩
  obtain ⟨hscope, hmachine⟩ :=
    inv_undoes_gate StandardGate.allExact_real {} none hapart hmeans halike hflow hflow'
  exact ⟨hrun, hundo, Prod.ext hscope hmachine⟩

/-! A target that takes part in every run -/

/-- An exchange of two qubits moves the amplitudes. -/
theorem act_swap {matrix : Unitary (Amplitude ℝ)}
    (h : matrix.toMatrix 2 = StandardGate.matrixSwap.toMatrix 2) (a b : QubitId)
    (f : Nat → Amplitude ℝ) (i : Nat) :
    Operation.act ⟨matrix, [], [a, b]⟩ f i =
      f (StateVector.writeRegister ((StateVector.readRegister [a, b] i % 2) * 2 +
        StateVector.readRegister [a, b] i / 2) [a, b] i) := by
  have hactive : Operation.Active (⟨matrix, [], [a, b]⟩ : Operation (Amplitude ℝ)) i :=
    fun c hc => nomatch hc
  have hlt : StateVector.readRegister [a, b] i < 4 := StateVector.readRegister_lt [a, b] i
  have hcell : ∀ c < 4, matrix.get (StateVector.readRegister [a, b] i) c =
      if StateVector.readRegister [a, b] i = (c % 2) * 2 + c / 2 then 1 else 0 := by
    intro c hc
    rw [← StandardGate.get_matrixSwap hlt hc]
    exact congrFun (congrFun h ⟨_, hlt⟩) ⟨c, hc⟩
  rw [Operation.act_of_active hactive]
  change ∑ c : Fin 4, matrix.get (StateVector.readRegister [a, b] i) c *
    f (StateVector.writeRegister c [a, b] i) = _
  rw [Fin.sum_univ_four]
  generalize StateVector.readRegister [a, b] i = r at hlt hcell ⊢
  interval_cases r <;> simp [hcell]

noncomputable def oneAndPair : Scope ℝ :=
  { Scope.root with qubits := ⟨[("a", [0]), ("q", [1, 2])]⟩ }

noncomputable def firstOne : Machine ℝ (Simulator ℝ) :=
  ⟨⟨⟨3, Vector.ofFn fun i => if (i : Nat) = 1 then 1 else 0⟩, 3, fun _ => 0, 0, 0⟩, []⟩

def exchangeEach (ms : List Modifier) : Stmt :=
  (GateWord.named "swap").stmt ms [] [.ident "a", .ident "q"]

def exchanges (matrix : Unitary (Amplitude ℝ)) : List (Operation (Amplitude ℝ)) :=
  [⟨matrix, [], [0, 1]⟩, ⟨matrix, [], [0, 2]⟩]

theorem get_firstOne {i : Nat} (hi : i < 8) :
    firstOne.backend.state.get i = if i = 1 then 1 else 0 := by
  rw [StateVector.get_eq]
  change ((Vector.ofFn fun i : Fin 8 => if (i : Nat) = 1 then (1 : Amplitude ℝ) else 0)[i]?).getD 0 = _
  rw [Vector.getElem?_eq_getElem hi, Vector.getElem_ofFn]
  rfl

/-- Twice the same exchanges move the one qubit to the end of the register. -/
theorem actAll_exchanges {matrix : Unitary (Amplitude ℝ)}
    (h : matrix.toMatrix 2 = StandardGate.matrixSwap.toMatrix 2) (f : Nat → Amplitude ℝ) :
    Operation.actAll (exchanges matrix) (Operation.actAll (exchanges StandardGate.matrixSwap) f) 4 =
      f 1 := by
  simp only [exchanges, Operation.actAll, List.foldl_cons, List.foldl_nil]
  rw [act_swap h, act_swap h, act_swap rfl, act_swap rfl]
  rfl

theorem toMatrix_pow_matrixSwap :
    (StandardGate.matrixSwap.pow (-1) : Unitary (Amplitude ℝ)).toMatrix 2 =
      StandardGate.matrixSwap.toMatrix 2 := by
  have hqubits : (StandardGate.matrixSwap : Unitary (Amplitude ℝ)).qubits = 2 := rfl
  rw [Unitary.toMatrix_pow hqubits, if_pos (by omega), StandardGate.adjoint_matrixSwap]
  exact pow_one _

theorem exchanges_fit {matrix : Unitary (Amplitude ℝ)} (h : matrix.qubits = 2) :
    ∀ op ∈ exchanges matrix, op.Fits 3 := by
  refine List.forall_mem_cons.2 ⟨⟨h, ?_, ?_⟩, List.forall_mem_singleton.2 ⟨h, ?_, ?_⟩⟩
  · change [0, 1].Nodup
    decide
  · change ∀ q ∈ [0, 1], q < 3
    decide
  · change [0, 2].Nodup
    decide
  · change ∀ q ∈ [0, 2], q < 3
    decide

/-- The same exchanges in the same order do not undo themselves. -/
theorem inv_repeats_exchanges :
    ¬∀ (s s₁ s₂ : Scope ℝ) (w : GateWord) (gate : LeafGate) (ms : List Modifier)
      (ps qs : List Expr) (m m₁ m₂ : Machine ℝ (Simulator ℝ)) (flow flow' : Flow ℝ),
      s.RegistersApart → w.Means s gate →
      Exec.stmt {} none (w.stmt ms ps qs) (s, m) = (.ok flow, (s₁, m₁)) →
      Exec.stmt {} none (w.stmt (Modifier.inv :: ms) ps qs) (s₁, m₁) = (.ok flow', (s₂, m₂)) →
      m₂.backend.state = m.backend.state := by
  intro h
  have hmeans : (GateWord.named "swap").Means oneAndPair (.standard .swap) :=
    ⟨rfl, rfl, .swap, rfl, rfl⟩
  have hrun : Exec.stmt {} none (exchangeEach []) (oneAndPair, firstOne) =
      (.ok Exec.done, (oneAndPair, firstOne.applyAll (exchanges StandardGate.matrixSwap))) := rfl
  have hundo : (Exec.stmt {} none (exchangeEach [Modifier.inv])
      (oneAndPair, firstOne.applyAll (exchanges StandardGate.matrixSwap))).1.isOk = true := by
    decide +kernel
  obtain ⟨flow, hflow⟩ := exists_of_isOk hundo
  have hstate := h _ _ _ _ _ _ _ _ _ _ _ _ _ (by decide) hmeans hrun hflow
  obtain ⟨-, -, ops, hops, -, hmachine⟩ := Exec.ran_gateWord hmeans hflow
  obtain rfl : ops = exchanges (StandardGate.matrixSwap.pow (-1)) :=
    Except.ok.inj (hops.symm.trans rfl)
  rw [hmachine] at hstate
  have hget : Operation.actAll (exchanges (StandardGate.matrixSwap.pow (-1)))
      (Operation.actAll (exchanges StandardGate.matrixSwap) firstOne.backend.state.get) 4 =
        firstOne.backend.state.get 4 := by
    rw [← Operation.get_applyAll (exchanges_fit rfl), ← Operation.get_applyAll ?_]
    · exact congrArg (StateVector.get · 4) hstate
    · rw [Operation.qubits_applyAll]
      exact exchanges_fit (Unitary.qubits_pow _ _)
  rw [actAll_exchanges toMatrix_pow_matrixSwap, get_firstOne (by omega), get_firstOne (by omega)] at hget
  have hone : (1 : ℝ) = 0 := congrArg Amplitude.re hget
  norm_num at hone

end OpenQasm
