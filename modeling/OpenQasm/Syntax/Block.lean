import OpenQasm.Syntax.Stmt

/-!
# Transforms of gate bodies

A modified call of a gate runs a transformed copy of its body. Inverting reverses
the statements and puts `inv` after the modifiers of each gate application;
raising to a power repeats the statements; adding a control puts a modifier and
its qubits in front of each gate application. Nested blocks are transformed along
with the statements around them, and statements that apply no gate are kept.
-/
namespace OpenQasm

/-- Edit the modifiers and the qubit arguments of a gate application; keep any
other statement. -/
def Stmt.editGate (f : List Modifier → List Modifier) (g : List Expr → List Expr) : Stmt → Stmt
  | .apply b ms ps qs => .apply b (f ms) ps (g qs)
  | .expr (.call name ms ps qs) => .expr (.call name (f ms) ps (g qs))
  | s => s

mutual

/-- A statement with its gate applications inverted. -/
def Stmt.inv : Stmt → Stmt
  | .block body => .block (Stmt.invEach body).reverse
  | s => s.editGate (· ++ [Modifier.inv]) id

def Stmt.invEach : List Stmt → List Stmt
  | [] => []
  | s :: ss => s.inv :: Stmt.invEach ss

end

mutual

/-- A statement with a modifier and its qubits in front of its gate applications. -/
def Stmt.add (m : Modifier) (qargs : List Expr) : Stmt → Stmt
  | .block body => .block (Stmt.addEach m qargs body)
  | s => s.editGate (m :: ·) (qargs ++ ·)

def Stmt.addEach (m : Modifier) (qargs : List Expr) : List Stmt → List Stmt
  | [] => []
  | s :: ss => s.add m qargs :: Stmt.addEach m qargs ss

end

/-- A list of statements run as one unit. -/
abbrev Block := List Stmt

namespace Block

def inv (b : Block) : Block := (b.map Stmt.inv).reverse

/-- A block `n` times over. An empty block stays empty whatever `n` is. -/
def pow (n : Nat) (b : Block) : Block :=
  if b.isEmpty then [] else (List.replicate n b).flatten

/-- A block with a modifier and its qubits in front of every gate application. -/
def add (m : Modifier) (qargs : List Expr) (b : Block) : Block := b.map (Stmt.add m qargs)

end Block

theorem Stmt.invEach_eq_map (b : List Stmt) : Stmt.invEach b = b.map Stmt.inv := by
  induction b with
  | nil => simp [Stmt.invEach]
  | cons s ss ih => simp [Stmt.invEach, ih]

theorem Stmt.addEach_eq_map (m : Modifier) (qargs : List Expr) (b : List Stmt) :
    Stmt.addEach m qargs b = b.map (Stmt.add m qargs) := by
  induction b with
  | nil => simp [Stmt.addEach]
  | cons s ss ih => simp [Stmt.addEach, ih]

end OpenQasm
