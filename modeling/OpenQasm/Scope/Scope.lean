import OpenQasm.Scope.Table
import OpenQasm.Syntax.Layout
import OpenQasm.Value.Value

/-!
# Scopes

A call runs in a scope of its own, which starts without registers. Constants are
looked up in it and then in the scopes it was called from, innermost first;
registers only in it; definitions are global. A scope remembers the chain of
definitions being run and the modifiers its own call carried.
-/
namespace OpenQasm

/-- A scalar binding; `assignable` marks a variable. -/
structure Binding (R : Type) where
  value : Const R
  assignable : Bool

/-- What a statement can refer to. -/
structure Scope (R : Type) where
  qubits : RegisterTable QubitId
  bits : RegisterTable Bool
  scalars : Table (Binding R)
  /-- Scalars of the scopes around this one, innermost first; empty in the global scope. -/
  outer : List (Table (Binding R))
  gates : Table GateDef
  subroutines : Table SubroutineDef
  /-- Names of the definitions being run, outermost first. -/
  chain : List String
  /-- Modifiers of the call this scope runs. -/
  modifiers : List Modifier

namespace Scope

variable {R : Type} [Scalar R]

def builtinConstants : List (String × R) :=
  MathConstant.all.flatMap fun c =>
    let v : R := match c with
      | .pi => Scalar.pi
      | .tau => Scalar.ofInt 2 * Scalar.pi
      | .euler => Scalar.euler
    [(c.text, v), (String.ofList [c.glyph], v)]

/-- The global scope of a fresh program. -/
def root : Scope R where
  qubits := .empty
  bits := .empty
  scalars := ⟨builtinConstants.map fun (name, v) => (name, ⟨.float v, false⟩)⟩
  outer := []
  gates := .empty
  subroutines := .empty
  chain := []
  modifiers := []

/-- A scope for running the body of a definition. -/
def enclosed (s : Scope R) (name : String) (modifiers : List Modifier) : Scope R where
  qubits := .empty
  bits := .empty
  scalars := .empty
  outer := s.scalars :: s.outer
  gates := s.gates
  subroutines := s.subroutines
  chain := s.chain ++ [name]
  modifiers := modifiers

def isGlobal (s : Scope R) : Bool := s.outer.isEmpty

/-- The number of calls this scope is nested in. -/
def depth (s : Scope R) : Nat := s.chain.length

def setConst (s : Scope R) (name : String) (c : Const R) : Scope R :=
  { s with scalars := s.scalars.set name ⟨c, false⟩ }

/-- Declare a variable or assign to it. A constant of this scope is refused. -/
def setVariable (s : Scope R) (name : String) (c : Const R) : Except EvalError (Scope R) :=
  match s.scalars.get? name with
  | some ⟨_, false⟩ => .error (.assignToConst name)
  | _ => .ok { s with scalars := s.scalars.set name ⟨c, true⟩ }

def isVariable (s : Scope R) (name : String) : Bool :=
  match s.scalars.get? name with
  | some b => b.assignable
  | none => false

/-- The value of a constant or variable, here or further out. -/
def const? (s : Scope R) (name : String) : Option (Const R) :=
  ((s.scalars :: s.outer).findSome? (·.get? name)).map Binding.value

def addQubits (s : Scope R) (name : String) (qs : List QubitId) : Scope R :=
  { s with qubits := s.qubits.set name qs }

def addBits (s : Scope R) (name : String) (bs : List Bool) : Scope R :=
  { s with bits := s.bits.set name bs }

/-- Add a gate definition, in the global scope only. -/
def addGate (s : Scope R) (d : GateDef) : Except EvalError (Scope R) :=
  if s.isGlobal then .ok { s with gates := s.gates.set d.name d } else .error (.notGlobal d.name)

/-- Add a subroutine definition, in the global scope only. -/
def addSubroutine (s : Scope R) (d : SubroutineDef) : Except EvalError (Scope R) :=
  if s.isGlobal then .ok { s with subroutines := s.subroutines.set d.name d }
  else .error (.notGlobal d.name)

/-- Fold an expression over the constants and bits in scope. -/
def fold (s : Scope R) : Expr → Except EvalError (Const R)
  | .lit l => Const.ofLiteral l
  | .ident name =>
      match s.const? name with
      | some c => .ok c
      | none =>
          if s.bits.contains name then do Value.toConst (.bits (← s.bits.select name none))
          else .error (.undefined name)
  | .index name i => do
      let k ← (← s.fold i).toInt
      Value.toConst (.bits (← s.bits.select name (some k)))
  | .binary op l r => do
      let a ← s.fold l
      let b ← s.fold r
      Const.binary op a b
  | .unary op e => do Const.unary op (← s.fold e)
  | .paren e => s.fold e
  | .call name ms ps qs => .error (.typeMismatch (.notConstant (Expr.call name ms ps qs).text))
  | .measure qs => .error (.typeMismatch (.notConstant (Expr.measure qs).text))

/-- The register an expression refers to, and the index into it. -/
def reference (s : Scope R) : Expr → Except EvalError (String × Option Int64)
  | .ident name => .ok (name, none)
  | .index name i => do return (name, some (← (← s.fold i).toInt))
  | e => .error (.typeMismatch (.notRegister e.text))

/-- The qubits an expression refers to. -/
def qubitsOf (s : Scope R) (e : Expr) : Except EvalError (List QubitId) := do
  let (name, index) ← s.reference e
  s.qubits.select name index

def bitsOf (s : Scope R) (e : Expr) : Except EvalError (List Bool) := do
  let (name, index) ← s.reference e
  s.bits.select name index

end Scope

end OpenQasm
