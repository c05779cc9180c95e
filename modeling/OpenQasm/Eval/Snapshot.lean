import OpenQasm.Json
import OpenQasm.Quantum.Amplitude
import OpenQasm.Quantum.BackendError
import OpenQasm.Value.Value

/-!
# Snapshots

The registers and the quantum state at one point of a run, as `print` shows them.
Only basis states with a noticeable probability are listed, in the order of their
indices, and none at all if no qubit register was asked for.
-/
namespace OpenQasm

/-- Some qubits and the name they were asked for by. -/
structure QubitView where
  name : String
  qubits : List QubitId

structure BitView where
  name : String
  bits : List Bool

/-- A basis state that is listed. -/
structure BasisState (R : Type) where
  /-- Index in the whole state vector. -/
  index : Nat
  /-- The bits of each qubit register asked for. -/
  registers : List (List Bool)
  amplitude : Amplitude R

/-- Registers and state at one point of a run. -/
structure Snapshot (R : Type) where
  qubits : List QubitView
  bits : List BitView
  states : List (BasisState R)

def BasisState.probability {R : Type} [Scalar R] (s : BasisState R) : R := s.amplitude.normSq

namespace Snapshot

variable {R : Type} [Scalar R]

/-- The listed state at an index, if its amplitude is large enough. -/
def basisState? (qubits : List QubitView) (index : Nat) (a : Amplitude R) :
    Option (BasisState R) :=
  if a.listed then some ⟨index, qubits.map (·.qubits.map index.testBit), a⟩ else none

/-- Read registers out of amplitudes. -/
def capture (qubits : List QubitView) (bits : List BitView) (amplitudes : Array (Amplitude R)) :
    Snapshot R :=
  let states :=
    if qubits.isEmpty then []
    else amplitudes.toList.zipIdx.filterMap fun (a, i) => basisState? qubits i a
  ⟨qubits, bits, states⟩

def total (s : Snapshot R) : R := s.states.foldl (fun sum b => sum + b.probability) 0

/-- A line for a bit register. -/
def bitLine (v : BitView) : String := v.name ++ ": " ++ bitsText v.bits ++ "\n"

/-- A line for a basis state: its bits, its amplitude and its probability, with four
places. -/
def stateLine (b : BasisState R) : String :=
  String.join (b.registers.map fun bits => "[" ++ bitsText bits ++ "]") ++ " " ++
    Scalar.fixed .always 4 b.amplitude.re ++ Scalar.fixed .always 4 b.amplitude.im ++ "i  " ++
    Scalar.fixed .minusOnly 4 b.probability ++ "\n"

/-- The text of a snapshot: bit registers, then basis states. -/
def text (s : Snapshot R) : String :=
  String.join (s.bits.map bitLine) ++ String.join (s.states.map stateLine)

def toJson (s : Snapshot R) : Json :=
  .object
    [("qubits", .array (s.qubits.map fun v =>
        .object [("name", .string v.name), ("qubits", .array (v.qubits.map .nat))])),
      ("bits", .array (s.bits.map fun v =>
        .object [("name", .string v.name), ("bits", .array (v.bits.map fun b => .nat b.toNat))])),
      ("states", .array (s.states.map fun b =>
        .object [("index", .nat b.index),
          ("registers", .array (b.registers.map fun bits => .string (bitsText bits))),
          ("amplitude", .array [.number (Scalar.text b.amplitude.re),
            .number (Scalar.text b.amplitude.im)]),
          ("probability", .number (Scalar.text b.probability))]))]

end Snapshot

end OpenQasm
