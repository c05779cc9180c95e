import OpenQasm.Syntax.Expr

/-!
# Statements and programs

Declarations are statements. Blocks and the bodies of definitions are plain
lists of statements.
-/
namespace OpenQasm

/-- A type, optionally sized: `qubit`, `bit[4]`. -/
structure TypeSpec where
  kind : TypeKind
  size : Option Expr

structure TypedName where
  type : TypeSpec
  name : String

inductive Stmt where
  /-- `OPENQASM 3.0;` -/
  | version (text : String)
  /-- `include "file";` -/
  | includes (path : String)
  /-- `qubit[2] q;` -/
  | declare (decl : TypedName)
  /-- `const int n = 3;` -/
  | const (type : Option TypeSpec) (name : String) (value : Expr)
  /-- `gate g(t) a, b { ... }` -/
  | gate (name : String) (params qargs : List String) (body : List Stmt)
  /-- `def f(int n) q -> bit { ... }` -/
  | subroutine (name : String) (params : List TypedName) (qargs : List String)
      (result : Option TypeSpec) (body : List Stmt)
  /-- `return value;` -/
  | returns (value : Option Expr)
  /-- `value -> target;` -/
  | arrow (value target : Expr)
  /-- `target = value;` -/
  | assign (target value : Expr)
  /-- `reset q, r;` -/
  | reset (qargs : List Expr)
  /-- `print q, c;` -/
  | print (args : List Expr)
  /-- A gate with a word of its own: `ctrl @ X c, t;` -/
  | apply (gate : Builtin) (modifiers : List Modifier) (params qargs : List Expr)
  /-- A call or a measurement whose value is not used. -/
  | expr (e : Expr)
  /-- `{ ... }` -/
  | block (body : List Stmt)

structure GateDef where
  name : String
  /-- Names of its angles. -/
  params : List String
  /-- Names of its qubit arguments. -/
  qargs : List String
  body : List Stmt

/-- The statement a gate definition was declared by. -/
def GateDef.toStmt (d : GateDef) : Stmt := .gate d.name d.params d.qargs d.body

structure SubroutineDef where
  name : String
  /-- Typed parameters from the parenthesised signature. -/
  params : List TypedName
  /-- Untyped qubit arguments after the signature. -/
  qargs : List String
  result : Option TypeSpec
  body : List Stmt

def SubroutineDef.toStmt (d : SubroutineDef) : Stmt :=
  .subroutine d.name d.params d.qargs d.result d.body

/-- A program is a list of statements. -/
structure Program where
  statements : List Stmt

/-- The declared version of the language, if the program opens with one. -/
def Program.version? (p : Program) : Option String :=
  match p.statements with
  | .version text :: _ => some text
  | _ => none

/-- Whether a statement declares something, a version included. -/
def Stmt.isDeclaration : Stmt → Bool
  | version _ => true
  | declare _ => true
  | const .. => true
  | gate .. => true
  | subroutine .. => true
  | _ => false

def Stmt.declaredName? : Stmt → Option String
  | declare decl => some decl.name
  | const _ name _ => some name
  | gate name .. => some name
  | subroutine name .. => some name
  | _ => none

/-- The number of elements a register declaration asks for, when it can be read
off the text: one without a size, the literal itself with a literal size. -/
def TypedName.literalSize? (d : TypedName) : Option Nat :=
  match d.type.size with
  | none => some 1
  | some (.lit l) => l.int?.bind fun v => if 0 ≤ v.toInt then some v.toInt.toNat else none
  | some _ => none

end OpenQasm
