import OpenQasm.Quantum.Backend
import OpenQasm.Quantum.Keystream
import OpenQasm.Quantum.ModularPower

/-!
# The simulator

A backend that keeps the whole state vector. Qubits are added on demand, up to a
limit. Measurements use a given sequence of draws, one draw for each measured or
reset qubit, so the outcomes of a run are determined by that sequence.

The number of qubits is a machine word, and from 64 qubits on the vector is too short for
them. Requests about a qubit without room in the vector make no sense and are refused.
-/
namespace OpenQasm

/-- A simulated quantum state. -/
structure Simulator (R : Type) where
  state : StateVector (Amplitude R)
  /-- The largest number of qubits. -/
  limit : Nat
  /-- The random draws, all of them from `[0, 1)`. -/
  draws : Nat → R
  /-- The number of draws used up. -/
  position : Nat
  /-- The number of qubits that the vector has no room for. -/
  excess : Nat := 0

namespace Simulator

variable {R : Type} [Scalar R]

def seededDraws (seed : UInt64) (i : Nat) : R :=
  Scalar.ofInt (Keystream.draw seed i) / Scalar.twoPow 53

def seeded (seed : UInt64) (limit : Nat) : Simulator R :=
  { state := .initial, limit, draws := seededDraws seed, position := 0 }

def qubits (s : Simulator R) : Nat := s.state.qubits + s.excess

/-- Refuse a qubit that was never allocated or that has no room. -/
def check (s : Simulator R) (q : QubitId) : Except BackendError Unit :=
  if q < s.state.qubits then .ok ()
  else if q < s.qubits then .error (.capacity 0 s.qubits s.limit)
  else .error (.unknownQubit q)

/-- Refuse unknown and repeated qubits. -/
def checkAll (s : Simulator R) (seen : List QubitId) : List QubitId → Except BackendError Unit
  | [] => .ok ()
  | q :: qs => do
      s.check q
      if q ∈ seen then throw (.duplicateQubit q)
      s.checkAll (q :: seen) qs

def checkControls (s : Simulator R) (cs : List Control) : Except BackendError Unit :=
  cs.forM fun c => s.check c.qubit

def probabilityOne (s : Simulator R) (q : QubitId) : Except BackendError R := do
  s.check q
  return s.state.probability q true

/-- Count `n` qubits, and resize the vector to them. -/
def resize (n : Nat) (s : Simulator R) : Simulator R :=
  { s with state := s.state.resize (roomFor n), excess := n - roomFor n }

/-- Add qubits that are zero. The number of a qubit has 32 bits. -/
def allocate (n : Nat) : Request (Simulator R) (List QubitId) := do
  let s ← get
  let total := wordOf (s.qubits + n)
  if s.limit < total ∨ s.qubits < total ∧ Nat.pow 2 32 < total then
    throw (.capacity n s.qubits s.limit)
  set (s.resize total)
  return (List.range (total - s.qubits)).map (s.qubits + ·)

def apply (op : Operation (Amplitude R)) : Request (Simulator R) Unit := do
  let s ← get
  op.validate
  s.checkAll [] op.targets
  s.checkControls op.controls
  set { s with state := s.state.applyControlled op.matrix op.controls op.targets }

/-- Measure a qubit with the next draw. -/
def measure (q : QubitId) : Request (Simulator R) Bool := do
  let s ← get
  s.check q
  let (outcome, state) := s.state.measure q (s.draws s.position)
  set { s with state, position := s.position + 1 }
  return outcome

def reset (q : QubitId) : Request (Simulator R) Unit := do
  let s ← get
  s.check q
  set { s with
    state := s.state.reset q (s.draws s.position)
    position := s.position + 1 }

/-- Multiply a register by a modular power held in another one. -/
def modularPower (a n : Nat) (control target : List QubitId) : Request (Simulator R) Unit := do
  let s ← get
  s.checkAll [] (control ++ target)
  ModularPower.check a n target.length
  set { s with state := s.state.permute (ModularPower.basisMap a n control target) }

instance : Backend R (Simulator R) where
  name _ := "statevector"
  qubitCount s := s.qubits
  amplitudes s := s.state.amplitudes.toArray
  allocate := allocate
  apply := apply
  measure := measure
  reset := reset
  modularPower := modularPower

end Simulator

end OpenQasm
