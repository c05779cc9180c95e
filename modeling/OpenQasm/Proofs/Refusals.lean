import OpenQasm.Proofs.Quantum.Exact
import OpenQasm.Proofs.Quantum.Simulation

/-!
# Requests that are refused

Every request to the simulator is checked before anything is changed, so one that is
refused leaves no trace. The Fourier transform is the exception: it is a sequence of
operations that are checked one by one, and those before the refused one stay applied.
-/
namespace OpenQasm

/-- Something that a backend can be asked for. -/
inductive Demand (R : Type) where
  | allocate (n : Nat)
  | apply (op : Operation (Amplitude R))
  | measure (q : QubitId)
  | reset (q : QubitId)
  | fourier (controls : List Control) (register : List QubitId)
  | inverseFourier (controls : List Control) (register : List QubitId)
  | modularPower (a n : Nat) (control target : List QubitId)

namespace Demand

variable {R : Type} [Scalar R]

/-- Ask a backend, and forget what it answers. -/
def send {B : Type} [Backend R B] : Demand R → Request B Unit
  | allocate n => do let _ ← Backend.allocate n
  | apply op => Backend.apply op
  | measure q => do let _ ← Backend.measure q
  | reset q => Backend.reset q
  | fourier controls register => Backend.fourier controls register
  | inverseFourier controls register => Backend.inverseFourier controls register
  | modularPower a n control target => Backend.modularPower a n control target

/-- The operations that a demand is made of, if it is not a single request. -/
def steps? : Demand R → Option (List (Operation (Amplitude R)))
  | fourier controls register => some (Fourier.operations controls register)
  | inverseFourier controls register => some (Fourier.inverseOperations controls register)
  | _ => none

theorem send_steps {d : Demand R} {ops : List (Operation (Amplitude R))} (h : d.steps? = some ops) :
    (d.send : Request (Simulator R) Unit) = Backend.applyAll ops := by
  cases d with
  | fourier controls register =>
      cases h
      rfl
  | inverseFourier controls register =>
      cases h
      rfl
  | _ => cases h

end Demand

/-- A request that leaves a backend as it is if it is refused. -/
def Request.Atomic {B α : Type} (r : Request B α) (b : B) : Prop :=
  ∀ e b', r b = (.error e, b') → b' = b

namespace Request.Atomic

variable {B α β : Type} {b : B}

/-- Only what the request does to this backend matters. -/
theorem congr {r r' : Request B α} (h : Atomic r' b) (heq : r b = r' b) : Atomic r b := by
  intro e b' he
  exact h e b' (heq ▸ he)

theorem of_ok {r : Request B α} {a : α} {b' : B} (h : r b = (.ok a, b')) : Atomic r b := by
  intro e b'' he
  rw [h] at he
  cases he

/-- Checks in front of a request change nothing. -/
theorem check {c : Except BackendError α} {f : α → Request B β} (h : ∀ a, Atomic (f a) b) :
    Atomic (liftM c >>= f : Request B β) b := by
  intro e b' he
  cases c with
  | error e' =>
      cases he
      rfl
  | ok a => exact h a e b' he

/-- What is done with the answer changes nothing either. -/
theorem forget {r : Request B α} (h : Atomic r b) :
    Atomic (do let _ ← r : Request B Unit) b := by
  intro e b' he
  rw [run_bind] at he
  rcases hr : r b with ⟨result, b₁⟩
  rw [hr] at he
  cases result with
  | error e' =>
      cases he
      exact h e b' hr
  | ok a => cases he

end Request.Atomic

namespace Simulator

variable {R : Type} [Scalar R]

theorem atomic_allocate (n : Nat) (s : Simulator R) : Request.Atomic (allocate n) s := by
  rcases allocate_cases n s with hrefused | ⟨total, -, -, -, hgranted⟩
  · intro e s' h
    rw [hrefused] at h
    cases h
    rfl
  · exact .of_ok hgranted

theorem atomic_apply (op : Operation (Amplitude R)) (s : Simulator R) :
    Request.Atomic (apply op) s := by
  refine Request.Atomic.congr ?_ (apply_eq op s)
  exact .check fun _ => .check fun _ => .check fun _ => .of_ok rfl

theorem atomic_measure (q : QubitId) (s : Simulator R) : Request.Atomic (measure q) s := by
  refine Request.Atomic.congr ?_ (measure_eq q s)
  exact .check fun _ => .of_ok rfl

theorem atomic_reset (q : QubitId) (s : Simulator R) : Request.Atomic (reset q) s := by
  refine Request.Atomic.congr ?_ (reset_eq q s)
  exact .check fun _ => .of_ok rfl

theorem atomic_modularPower (a n : Nat) (control target : List QubitId) (s : Simulator R) :
    Request.Atomic (modularPower a n control target) s := by
  refine Request.Atomic.congr ?_ (modularPower_eq a n control target s)
  exact .check fun _ => .check fun _ => .of_ok rfl

end Simulator

namespace Demand

variable {R : Type} [Scalar R]

/-- A single request is granted or leaves no trace. -/
theorem atomic_send {d : Demand R} (h : d.steps? = none) (s : Simulator R) :
    Request.Atomic d.send s := by
  cases d with
  | allocate n => exact .forget (Simulator.atomic_allocate n s)
  | apply op => exact Simulator.atomic_apply op s
  | measure q => exact .forget (Simulator.atomic_measure q s)
  | reset q => exact Simulator.atomic_reset q s
  | modularPower a n control target => exact Simulator.atomic_modularPower a n control target s
  | fourier controls register => cases h
  | inverseFourier controls register => cases h

/-- What a refused demand leaves of a simulator: the number of qubits and the random draws are
as before. A single request leaves the amplitudes as well. A Fourier transform leaves the
operations applied that come before the first one that does not fit. -/
theorem refused_demand (d : Demand R) {s s' : Simulator R} {e : BackendError}
    (h : d.send s = (.error e, s')) :
    s'.qubits = s.qubits ∧ s'.state.qubits = s.state.qubits ∧ s'.limit = s.limit ∧
      s'.draws = s.draws ∧ s'.position = s.position ∧
      (d.steps? = none → s' = s) ∧
      ∀ ops, d.steps? = some ops → ∃ done op rest, ops = done ++ op :: rest ∧
        (∀ op ∈ done, op.Fits s.state.qubits) ∧ ¬op.Fits s.state.qubits ∧
        s'.state = Operation.applyAll done s.state := by
  cases hsteps : d.steps? with
  | none =>
      obtain rfl := atomic_send hsteps s e s' h
      simp
  | some ops =>
      rw [send_steps hsteps] at h
      rcases Simulator.applyAll_cases ops s with ⟨-, hall⟩ | ⟨done, op, rest, e', hops, hdone, hop, hall⟩
      · rw [hall] at h
        cases h
      · rw [hall] at h
        cases h
        have hroom : (Operation.applyAll done s.state).qubits = s.state.qubits :=
          Operation.qubits_applyAll done s.state
        refine ⟨congrArg (· + s.excess) hroom, hroom, rfl, rfl, rfl, nofun, ?_⟩
        rintro _ ⟨⟩
        exact ⟨done, op, rest, hops, hdone, hop, rfl⟩

end Demand

/-- A qubit that is zero. -/
noncomputable def zeroQubit : Simulator ℝ := ⟨StateVector.initial.resize 1, 1, fun _ => 0, 0, 0⟩

/-- The first operation of a Fourier transform of the first qubit. -/
def firstHadamard {R : Type} [Scalar R] : Operation (Amplitude R) :=
  ⟨StandardGate.matrixH, [], [0]⟩

/-- A transform of the same qubit twice is refused after its first operation. -/
theorem send_repeated_register :
    (Demand.fourier [] [0, 0]).send zeroQubit =
      (.error (.duplicateQubit 0),
        { zeroQubit with state := firstHadamard.apply zeroQubit.state }) := rfl

theorem refused_transform_keeps_count :
    ∃ s' : Simulator ℝ, (Demand.fourier [] [0, 0]).send zeroQubit = (.error (.duplicateQubit 0), s') ∧
      s'.state.qubits = 1 ∧ s'.position = 0 ∧
      ∃ done op rest, Fourier.operations [] [0, 0] = done ++ op :: rest ∧
        (∀ op ∈ done, op.Fits 1) ∧ ¬op.Fits 1 ∧
        s'.state = Operation.applyAll done zeroQubit.state := by
  obtain ⟨-, hqubits, -, -, hposition, -, hdone⟩ :=
    Demand.refused_demand _ send_repeated_register
  exact ⟨_, send_repeated_register, hqubits, hposition, hdone _ rfl⟩

theorem firstHadamard_fits : (firstHadamard : Operation (Amplitude ℝ)).Fits 1 :=
  ⟨rfl, by decide, by decide⟩

theorem get_zeroQubit {i : Nat} (hi : i < 2) :
    zeroQubit.state.get i = if i = 0 then 1 else 0 := by
  have hresize : zeroQubit.state.get i = StateVector.initial.get i := by
    rw [StateVector.get_eq]
    change ((Vector.ofFn fun i : Fin 2 => StateVector.initial.get (i : Nat))[i]?).getD 0 = _
    rw [Vector.getElem?_eq_getElem hi, Vector.getElem_ofFn]
    rfl
  rw [hresize]
  interval_cases i
  · rfl
  · rfl

theorem get_firstHadamard :
    (firstHadamard.apply zeroQubit.state).get 1 = .ofReal (Scalar.sqrt (Scalar.half 1)) := by
  have hactive : (firstHadamard : Operation (Amplitude ℝ)).Active 1 := fun c hc => nomatch hc
  rw [Operation.get_apply firstHadamard_fits, Operation.act_of_active hactive]
  change ∑ c : Fin 2, StandardGate.matrixH.get 1 c *
    zeroQubit.state.get (StateVector.writeRegister c [0] 1) = _
  rw [Fin.sum_univ_two]
  change StandardGate.matrixH.get 1 0 * zeroQubit.state.get 0 +
    StandardGate.matrixH.get 1 1 * zeroQubit.state.get 1 = _
  rw [get_zeroQubit (by omega), get_zeroQubit (by omega), StandardGate.matrixH,
    StandardGate.get_cells2 (by omega) (by omega)]
  simp

/-- A refused request can change the amplitudes. -/
theorem refused_transform_changes_state :
    ¬∀ (d : Demand ℝ) (s s' : Simulator ℝ) (e : BackendError), d.send s = (.error e, s') →
      s'.state.qubits = s.state.qubits ∧ s'.state = s.state ∧ s'.draws = s.draws ∧
        s'.position = s.position := by
  intro h
  obtain ⟨-, hstate, -⟩ := h _ _ _ _ send_repeated_register
  have hget : (firstHadamard.apply zeroQubit.state).get 1 = 0 := by
    refine (congrArg (StateVector.get · 1) hstate).trans ?_
    exact get_zeroQubit (by omega)
  rw [get_firstHadamard] at hget
  have hroot : Scalar.sqrt (Scalar.half (1 : ℝ)) = 0 := congrArg Amplitude.re hget
  have hsquare := StandardGate.sqrt_half_mul_self_add
  rw [hroot] at hsquare
  norm_num at hsquare

end OpenQasm
