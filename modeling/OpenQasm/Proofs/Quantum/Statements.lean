import OpenQasm.Proofs.Modifiers.Leaves
import OpenQasm.Proofs.Quantum.Exact
import OpenQasm.Proofs.Quantum.Simulation

/-!
# Gates without a body on the simulator

A statement that applies a gate without a body stands for a list of operations. If it
succeeds on the simulator, all of them fit the state, and the state has gone through
them in order.
-/
namespace OpenQasm

/-- How a gate is written: by a word of its own or by a name. -/
inductive GateWord where
  | builtin (b : Builtin)
  | named (name : String)

namespace GateWord

/-- The statement that applies a gate. -/
def stmt (w : GateWord) (ms : List Modifier) (ps qs : List Expr) : Stmt :=
  match w with
  | builtin b => .apply b ms ps qs
  | named name => .expr (.call name ms ps qs)

/-- What a word means in a scope, if it means a gate without a body. -/
def Means {R : Type} (s : Scope R) (w : GateWord) (gate : LeafGate) : Prop :=
  match w with
  | builtin b => LeafGate.ofBuiltin? b = some gate
  | named name => s.gates.get? name = none ∧ s.subroutines.get? name = none ∧
      ∃ g, StandardGate.ofName? name = some g ∧ gate = .standard g

end GateWord

namespace Scope

variable {R : Type} [Scalar R]

/-- The operations of a Fourier transform, repeated as often as it is. -/
def FourierCall.operations (c : FourierCall) : List (Operation (Amplitude R)) :=
  (List.replicate c.times (if c.inverse then Fourier.inverseOperations c.controls c.register
    else Fourier.operations c.controls c.register)).flatten

/-- The operations that a gate without a body stands for. -/
def leafOperations (s : Scope R) (gate : LeafGate) (ms : List Modifier) (ps qs : List Expr) :
    Except EvalError (List (Operation (Amplitude R))) :=
  match gate with
  | .standard g => s.standardOperations g ms ps qs
  | .fourier => (s.fourierCall .qft ms ps qs).map FourierCall.operations
  | .inverseFourier => (s.fourierCall .iqft ms ps qs).map FourierCall.operations

end Scope

def Machine.applyAll {R : Type} [Scalar R] (ops : List (Operation (Amplitude R)))
    (m : Machine R (Simulator R)) : Machine R (Simulator R) :=
  { m with backend := { m.backend with state := Operation.applyAll ops m.backend.state } }

theorem Machine.applyAll_append {R : Type} [Scalar R] (ops ops' : List (Operation (Amplitude R)))
    (m : Machine R (Simulator R)) : m.applyAll (ops ++ ops') = (m.applyAll ops).applyAll ops' := by
  simp only [applyAll, Operation.applyAll, List.foldl_append]

/-- Operations that do the same to all amplitudes do the same to the machine. -/
theorem Machine.applyAll_congr {R : Type} [ExactScalar R] {m : Machine R (Simulator R)}
    {ops ops' : List (Operation (Amplitude R))}
    (hops : ∀ op ∈ ops, op.Fits m.backend.state.qubits)
    (hops' : ∀ op ∈ ops', op.Fits m.backend.state.qubits)
    (h : ∀ f, Operation.actAll ops f = Operation.actAll ops' f) :
    m.applyAll ops = m.applyAll ops' := by
  unfold applyAll
  rw [Operation.applyAll_congr hops hops' h]

namespace Run

variable {R : Type} [Scalar R] {m m' : Machine R (Simulator R)}

/-- Operations that were requested fit the state, and it has gone through them. -/
theorem ran_applyAll {ops : List (Operation (Amplitude R))}
    (h : request (Backend.applyAll ops) m = (.ok (), m')) :
    (∀ op ∈ ops, op.Fits m.backend.state.qubits) ∧ m' = m.applyAll ops := by
  obtain ⟨hgranted, hm⟩ := ran_request h
  obtain ⟨hops, hb⟩ := Simulator.of_applyAll_ok hgranted
  refine ⟨hops, ?_⟩
  rw [hm, hb]
  rfl

theorem ran_repeat_applyAll {ops : List (Operation (Amplitude R))} {n : Nat}
    (h : repeatRequest (Backend.applyAll ops) n m = (.ok (), m')) :
    (∀ op ∈ (List.replicate n ops).flatten, op.Fits m.backend.state.qubits) ∧
      m' = m.applyAll (List.replicate n ops).flatten := by
  induction n generalizing m with
  | zero =>
      cases h
      exact ⟨by simp, rfl⟩
  | succ n ih =>
      obtain ⟨_, m₁, hfirst, hrest⟩ := ran_bind.1 h
      obtain ⟨hops, rfl⟩ := ran_applyAll hfirst
      obtain ⟨hall, rfl⟩ := ih hrest
      rw [List.replicate_succ, List.flatten_cons]
      refine ⟨List.forall_mem_append.2 ⟨hops, ?_⟩, ?_⟩
      · have hqubits : (m.applyAll ops).backend.state.qubits = m.backend.state.qubits :=
          Operation.qubits_applyAll ops m.backend.state
        rw [hqubits] at hall
        exact hall
      · rw [Machine.applyAll_append]

/-- What a gate without a body does to the machine. -/
theorem ran_applyStandard {s : Scope R} {gate : StandardGate} {ms : List Modifier}
    {ps qs : List Expr} (h : applyStandard s gate ms ps qs m = (.ok (), m')) :
    ∃ ops, s.leafOperations (.standard gate) ms ps qs = .ok ops ∧
      (∀ op ∈ ops, op.Fits m.backend.state.qubits) ∧ m' = m.applyAll ops := by
  obtain ⟨ops, m₁, hlift, hrequest⟩ := ran_bind.1 h
  obtain ⟨hops, rfl⟩ := ran_lift.1 hlift
  exact ⟨ops, hops, ran_applyAll hrequest⟩

theorem ran_applyFourier {s : Scope R} {b : Builtin} {ms : List Modifier} {ps qs : List Expr}
    (h : applyFourier s b ms ps qs m = (.ok (), m')) :
    ∃ c, s.fourierCall b ms ps qs = .ok c ∧
      (∀ op ∈ (c.operations : List (Operation (Amplitude R))),
        op.Fits m.backend.state.qubits) ∧ m' = m.applyAll c.operations := by
  obtain ⟨c, m₁, hlift, hrepeat⟩ := ran_bind.1 h
  obtain ⟨hc, rfl⟩ := ran_lift.1 hlift
  refine ⟨c, hc, ?_⟩
  unfold Scope.FourierCall.operations
  split at hrepeat
  · rename_i hinverse
    rw [if_pos hinverse]
    exact ran_repeat_applyAll hrepeat
  · rename_i hinverse
    rw [if_neg hinverse]
    exact ran_repeat_applyAll hrepeat

theorem ran_applyBuiltin {s : Scope R} {b : Builtin} {gate : LeafGate}
    (hgate : LeafGate.ofBuiltin? b = some gate) {ms : List Modifier} {ps qs : List Expr}
    (h : applyBuiltin s b ms ps qs m = (.ok (), m')) :
    ∃ ops, s.leafOperations gate ms ps qs = .ok ops ∧
      (∀ op ∈ ops, op.Fits m.backend.state.qubits) ∧ m' = m.applyAll ops := by
  cases b with
  | qft | iqft =>
      cases hgate
      obtain ⟨c, hc, hrun⟩ := ran_applyFourier h
      refine ⟨c.operations, ?_, hrun⟩
      rw [Scope.leafOperations, hc]
      rfl
  | cmodexp2 => cases hgate
  | _ =>
      cases hgate
      exact ran_applyStandard h

end Run

namespace Exec

variable {R : Type} [Scalar R]

/-- What a statement that applies a gate without a body does: the scope stays, there is no
value, and the state goes through the operations that the statement stands for. -/
theorem ran_gateWord {config : Config} {deeper : Option (BodyRunner R (Simulator R))}
    {w : GateWord} {gate : LeafGate} {s s' : Scope R} (hw : w.Means s gate) {ms : List Modifier}
    {ps qs : List Expr} {m m' : Machine R (Simulator R)} {flow : Flow R}
    (h : stmt config deeper (w.stmt ms ps qs) (s, m) = (.ok flow, (s', m'))) :
    s' = s ∧ flow = done ∧ ∃ ops, s.leafOperations gate ms ps qs = .ok ops ∧
      (∀ op ∈ ops, op.Fits m.backend.state.qubits) ∧ m' = m.applyAll ops := by
  cases w with
  | builtin b =>
      rw [GateWord.stmt, stmt] at h
      obtain ⟨_, ⟨s₁, m₁⟩, hrun, hdone⟩ := ran_bind.1 h
      cases hdone
      obtain ⟨rfl, hrun⟩ := ran_ofRun.1 hrun
      exact ⟨rfl, rfl, Run.ran_applyBuiltin hw hrun⟩
  | named name =>
      obtain ⟨hgates, hsubroutines, g, hg, rfl⟩ := hw
      rw [GateWord.stmt, stmt] at h
      obtain ⟨_, ⟨s₁, m₁⟩, hrun, hdone⟩ := ran_bind.1 h
      cases hdone
      obtain ⟨rfl, hrun⟩ := ran_ofRun.1 hrun
      rw [Run.value, hgates, hsubroutines, hg] at hrun
      obtain ⟨_, m₂, hrun, hdone⟩ := ran_bind.1 hrun
      cases hdone
      exact ⟨rfl, rfl, Run.ran_applyStandard hrun⟩

end Exec

/-! Runs on real amplitudes -/

noncomputable def zeroMachine (n : Nat) : Machine ℝ (Simulator ℝ) :=
  ⟨⟨StateVector.initial.resize n, n, fun _ => 0, 0, 0⟩, []⟩

end OpenQasm
