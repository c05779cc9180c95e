import OpenQasm.Quantum.Operation

/-!
# State vectors

The amplitudes of `n` qubits, one for each of `2 ^ n` basis states; bit `q` of an
index is the state of qubit `q`. Gates are applied in place: the indices fall into
groups that differ only in their target bits, and each group whose controls hold is
read, multiplied by the matrix, and written back.
-/
namespace OpenQasm

/-- The amplitudes of a number of qubits. -/
structure StateVector (A : Type) where
  qubits : Nat
  amplitudes : Vector A (dimension qubits)

namespace StateVector

/-- The index with exactly the bits of `qs`. -/
def mask : List QubitId → Nat
  | [] => 0
  | q :: qs => bitAt q ||| mask qs

/-- The index with the bits of `m` at `qs`, the first one being the most significant. -/
def spread : List QubitId → Nat → Nat
  | [], _ => 0
  | q :: qs, m => (if m.testBit qs.length then bitAt q else 0) ||| spread qs m

/-- The bits of an index at `qs` as a number, the first one being the most significant. -/
def readRegister (qs : List QubitId) (index : Nat) : Nat :=
  qs.foldl (fun acc q => 2 * acc + (index.testBit q).toNat) 0

/-- An index with one bit set or cleared. -/
def writeBit (q : QubitId) (b : Bool) (index : Nat) : Nat :=
  if index.testBit q = b then index else index ^^^ bitAt q

/-- An index with the bits at `qs` replaced by those of a number. -/
def writeRegister (value : Nat) : List QubitId → Nat → Nat
  | [], index => index
  | q :: qs, index => writeRegister value qs (writeBit q (value.testBit qs.length) index)

section Kernel

variable {A : Type} [Zero A]

def get (v : StateVector A) (i : Nat) : A := (v.amplitudes.toArray[i]?).getD 0

def initial [One A] : StateVector A := ⟨0, Vector.ofFn fun _ => 1⟩

/-- Make the vector as long as `n` qubits need. Amplitudes keep their indices, those that are
added are zero, and those beyond the new length are lost. -/
def resize (n : Nat) (v : StateVector A) : StateVector A :=
  ⟨n, Vector.ofFn fun i => v.get i⟩

/-- Move the amplitude at each index `i` to `f i`. -/
def permute (f : Nat → Nat) (v : StateVector A) : StateVector A :=
  ⟨v.qubits, Nat.fold (dimension v.qubits) (fun i _ next => next.setIfInBounds (f i) (v.get i))
    (Vector.replicate (dimension v.qubits) 0)⟩

variable [Add A] [Mul A]

/-- One row of a matrix times a column of amplitudes. -/
def rowTimes (m : Unitary A) (row : Nat) (column : Array A) : A :=
  Nat.fold column.size (fun col _ sum => sum + m.get row col * (column[col]?).getD 0) 0

/-- Multiply the group of amplitudes at `base` by a matrix; `offsets` lists where the
members of the group lie. -/
def applyGroup {n : Nat} (m : Unitary A) (offsets : Array Nat) (base : Nat) (v : Vector A n) :
    Vector A n :=
  let column := offsets.map fun o => (v[base ||| o]?).getD 0
  Nat.fold offsets.size (fun row _ w =>
    w.setIfInBounds (base ||| (offsets[row]?).getD 0) (rowTimes m row column)) v

/-- Apply a matrix to targets where every control holds. -/
def applyControlled (m : Unitary A) (controls : List Control) (targets : List QubitId)
    (v : StateVector A) : StateVector A :=
  let targetMask := mask targets
  let controlMask := mask (controls.map Control.qubit)
  let controlValue := mask ((controls.filter Control.on).map Control.qubit)
  let offsets := (Array.range (dimension targets.length)).map (spread targets)
  ⟨v.qubits, Nat.fold (dimension v.qubits) (fun base _ w =>
    if base &&& targetMask = 0 ∧ base &&& controlMask = controlValue then
      applyGroup m offsets base w
    else w) v.amplitudes⟩

end Kernel

section Measurement

variable {R : Type} [Scalar R]

/-- The probability that measuring a qubit gives `outcome`. -/
def probability (q : QubitId) (outcome : Bool) (v : StateVector (Amplitude R)) : R :=
  Nat.fold (dimension v.qubits) (fun i _ sum =>
    if i.testBit q = outcome then sum + (v.get i).normSq else sum) 0

/-- Keep the basis states in which a qubit has a given value, and scale them so that
their probabilities add up to one. -/
def collapse (q : QubitId) (outcome : Bool) (v : StateVector (Amplitude R)) :
    StateVector (Amplitude R) :=
  let norm := Scalar.sqrt (v.probability q outcome)
  let kept (i : Nat) : Amplitude R := if i.testBit q = outcome then v.get i else 0
  ⟨v.qubits, Vector.ofFn fun i =>
    if Scalar.lt 0 norm then (kept i).divReal norm else kept i⟩

def flip (q : QubitId) (v : StateVector (Amplitude R)) : StateVector (Amplitude R) :=
  ⟨v.qubits, Vector.ofFn fun i => v.get (i ^^^ bitAt q)⟩

/-- Measure a qubit with a draw from `[0, 1)`: the outcome is one if the draw is
below the probability of that. -/
def measure (q : QubitId) (draw : R) (v : StateVector (Amplitude R)) :
    Bool × StateVector (Amplitude R) :=
  let outcome := Scalar.lt draw (v.probability q true)
  (outcome, v.collapse q outcome)

/-- Measure a qubit and flip it if it was one. -/
def reset (q : QubitId) (draw : R) (v : StateVector (Amplitude R)) : StateVector (Amplitude R) :=
  let (outcome, w) := v.measure q draw
  if outcome then w.flip q else w

end Measurement

end StateVector

end OpenQasm
