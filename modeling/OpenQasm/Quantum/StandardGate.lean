import OpenQasm.Quantum.Unitary

/-!
# The standard gates

Gates known by name, in upper or lower case. Each splits into a number of leading
control qubits and the matrix that acts on the others: `cx` is one control on the
matrix of `x`.
-/
namespace OpenQasm

/-- Gates with a known matrix. -/
inductive StandardGate where
  | id
  | x
  | y
  | z
  | h
  | s
  | sdg
  | t
  | tdg
  | sx
  | rx
  | ry
  | rz
  | p
  | u
  | cx
  | cy
  | cz
  | ch
  | swap
  | crx
  | cry
  | crz
  | cp
  | ccx
  | cswap
  deriving DecidableEq, Repr

namespace StandardGate

def all : List StandardGate :=
  [id, x, y, z, h, s, sdg, t, tdg, sx, rx, ry, rz, p, u, cx, cy, cz, ch, swap, crx, cry, crz, cp,
    ccx, cswap]

def name : StandardGate → String
  | id => "id"
  | x => "x"
  | y => "y"
  | z => "z"
  | h => "h"
  | s => "s"
  | sdg => "sdg"
  | t => "t"
  | tdg => "tdg"
  | sx => "sx"
  | rx => "rx"
  | ry => "ry"
  | rz => "rz"
  | p => "p"
  | u => "u"
  | cx => "cx"
  | cy => "cy"
  | cz => "cz"
  | ch => "ch"
  | swap => "swap"
  | crx => "crx"
  | cry => "cry"
  | crz => "crz"
  | cp => "cp"
  | ccx => "ccx"
  | cswap => "cswap"

/-- The gate of a name, in either case. -/
def ofName? (n : String) : Option StandardGate :=
  let lower := String.ofList (n.toList.map Char.toLower)
  all.find? (·.name = lower)

/-- The number of angles a gate takes. -/
def paramCount : StandardGate → Nat
  | rx => 1
  | ry => 1
  | rz => 1
  | p => 1
  | crx => 1
  | cry => 1
  | crz => 1
  | cp => 1
  | u => 3
  | _ => 0

/-- The number of leading control qubits of a gate. -/
def controlCount : StandardGate → Nat
  | cx => 1
  | cy => 1
  | cz => 1
  | ch => 1
  | crx => 1
  | cry => 1
  | crz => 1
  | cp => 1
  | cswap => 1
  | ccx => 2
  | _ => 0

/-- The number of qubits the matrix of a gate acts on. -/
def targetCount : StandardGate → Nat
  | swap => 2
  | cswap => 2
  | _ => 1

/-- The number of qubits a gate takes, controls included. -/
def qubitCount (g : StandardGate) : Nat := g.controlCount + g.targetCount

section Matrices

variable {R : Type} [Scalar R]

/-- The matrix with four given cells. -/
def cells2 (a b c d : Amplitude R) : Unitary (Amplitude R) :=
  .ofFn 1 fun row col => if row = 0 then (if col = 0 then a else b) else (if col = 0 then c else d)

def matrixX : Unitary (Amplitude R) := cells2 0 1 1 0

def matrixY : Unitary (Amplitude R) := cells2 0 ⟨0, -1⟩ ⟨0, 1⟩ 0

def matrixH : Unitary (Amplitude R) :=
  let r : R := Scalar.sqrt (Scalar.half 1)
  cells2 (.ofReal r) (.ofReal r) (.ofReal r) (.ofReal (-r))

/-- A phase on the second basis state. -/
def phase (theta : R) : Unitary (Amplitude R) := cells2 1 0 0 (.polar 1 theta)

def rotationX (theta : R) : Unitary (Amplitude R) :=
  let s := Scalar.sin (Scalar.half theta)
  let c := Scalar.cos (Scalar.half theta)
  cells2 ⟨c, 0⟩ ⟨0, -s⟩ ⟨0, -s⟩ ⟨c, 0⟩

def rotationY (theta : R) : Unitary (Amplitude R) :=
  let s := Scalar.sin (Scalar.half theta)
  let c := Scalar.cos (Scalar.half theta)
  cells2 ⟨c, 0⟩ ⟨-s, 0⟩ ⟨s, 0⟩ ⟨c, 0⟩

def rotationZ (theta : R) : Unitary (Amplitude R) :=
  cells2 (.polar 1 (Scalar.half (-theta))) 0 0 (.polar 1 (Scalar.half theta))

/-- The general matrix on one qubit. -/
def general (theta phi lambda : R) : Unitary (Amplitude R) :=
  let s := Scalar.sin (Scalar.half theta)
  let c := Scalar.cos (Scalar.half theta)
  cells2 ⟨c, 0⟩ (-.polar s lambda) (.polar s phi) (.polar c (phi + lambda))

def matrixSwap : Unitary (Amplitude R) :=
  .ofFn 2 fun row col => if row = (col % 2) * 2 + col / 2 then 1 else 0

def quarterTurn : R := Scalar.half Scalar.pi

/-- The matrix of a gate with given angles; angles it does not take are ignored. -/
def matrix (g : StandardGate) (angles : List R) : Unitary (Amplitude R) :=
  let angle (i : Nat) : R := (angles[i]?).getD 0
  match g with
  | id => .identity 1
  | x => matrixX
  | y => matrixY
  | z => phase Scalar.pi
  | h => matrixH
  | s => phase quarterTurn
  | sdg => phase (-quarterTurn)
  | t => phase (Scalar.half quarterTurn)
  | tdg => phase (-Scalar.half quarterTurn)
  | sx => rotationX quarterTurn
  | rx => rotationX (angle 0)
  | ry => rotationY (angle 0)
  | rz => rotationZ (angle 0)
  | p => phase (angle 0)
  | u => general (angle 0) (angle 1) (angle 2)
  | cx => matrixX
  | cy => matrixY
  | cz => phase Scalar.pi
  | ch => matrixH
  | swap => matrixSwap
  | crx => rotationX (angle 0)
  | cry => rotationY (angle 0)
  | crz => rotationZ (angle 0)
  | cp => phase (angle 0)
  | ccx => matrixX
  | cswap => matrixSwap

/-- The leading controls of a gate and its matrix, if the angles are as many as it
takes. -/
def decompose (g : StandardGate) (angles : List R) :
    Except BackendError (Nat × Unitary (Amplitude R)) :=
  if angles.length = g.paramCount then .ok (g.controlCount, g.matrix angles)
  else .error (.parameterCount g.name g.paramCount angles.length)

end Matrices

end StandardGate

end OpenQasm
