import OpenQasm.Decimal.Numeral
import OpenQasm.Syntax.Vocabulary

/-!
# Expressions

Expression trees and the gate modifiers that calls carry. Parentheses written
in the source are nodes of their own, and literals keep their text, so a tree
determines the text it is printed as.
-/
namespace OpenQasm

inductive LiteralKind where
  | int
  | float
  | string
  deriving DecidableEq, Repr

/-- A literal, kept as its text. -/
structure Literal where
  kind : LiteralKind
  text : String
  deriving DecidableEq, Repr

/-- The value of an integer literal that fits 64 bits. -/
def Literal.int? (l : Literal) : Option Int64 :=
  match l.kind with
  | .int => Decimal.readInt64? l.text
  | _ => none

def Literal.ofInt64 (v : Int64) : Literal := ⟨.int, toString v.toInt⟩

mutual

/-- An expression. -/
inductive Expr where
  | ident (name : String)
  | index (name : String) (position : Expr)
  | lit (literal : Literal)
  | binary (op : BinaryOp) (left right : Expr)
  | unary (op : UnaryOp) (operand : Expr)
  /-- A gate or subroutine call; `params` stand in parentheses, `qargs` after them. -/
  | call (name : String) (modifiers : List Modifier) (params qargs : List Expr)
  /-- A measurement; no `qargs` means every qubit in scope. -/
  | measure (qargs : List Expr)
  | paren (inner : Expr)

/-- A gate modifier with its optional argument. -/
inductive Modifier where
  | mk (kind : ModifierKind) (arg : Option Expr)

end

def Modifier.kind : Modifier → ModifierKind
  | mk kind _ => kind

def Modifier.arg : Modifier → Option Expr
  | mk _ arg => arg

/-- Whether a modifier adds control qubits. -/
def Modifier.isControl (m : Modifier) : Bool :=
  match m.kind with
  | .ctrl => true
  | .negctrl => true
  | _ => false

def Modifier.inv : Modifier := mk .inv none

/-- The name an expression refers by: that of a register, or the text of a literal. -/
def Expr.name? : Expr → Option String
  | ident name => some name
  | index name _ => some name
  | lit literal => some literal.text
  | _ => none

def Expr.ofInt64 (v : Int64) : Expr := lit (Literal.ofInt64 v)

/-- A gate or subroutine call. -/
structure Call where
  name : String
  modifiers : List Modifier
  params : List Expr
  qargs : List Expr

end OpenQasm
