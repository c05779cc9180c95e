/-!
# The words of the language

Fixed vocabularies: types, gate modifiers, gates with a word of their own,
named constants, keywords and symbols, each with its spelling. Tokens and
syntax trees are both built from them.
-/
namespace OpenQasm

/-- Scalar and register types. -/
inductive TypeKind where
  | qubit
  | bit
  | int
  | uint
  | float
  | angle
  deriving DecidableEq, Repr

def TypeKind.text : TypeKind → String
  | qubit => "qubit"
  | bit => "bit"
  | int => "int"
  | uint => "uint"
  | float => "float"
  | angle => "angle"

def TypeKind.all : List TypeKind := [qubit, bit, int, uint, float, angle]

/-- Ways to modify a gate. -/
inductive ModifierKind where
  | ctrl
  | negctrl
  | inv
  | pow
  deriving DecidableEq, Repr

def ModifierKind.text : ModifierKind → String
  | ctrl => "ctrl"
  | negctrl => "negctrl"
  | inv => "inv"
  | pow => "pow"

def ModifierKind.all : List ModifierKind := [ctrl, negctrl, inv, pow]

/-- Gates with a word of their own. -/
inductive Builtin where
  | u
  | x
  | y
  | z
  | h
  | s
  | t
  | qft
  | iqft
  | cmodexp2
  deriving DecidableEq, Repr

def Builtin.text : Builtin → String
  | u => "U"
  | x => "X"
  | y => "Y"
  | z => "Z"
  | h => "H"
  | s => "S"
  | t => "T"
  | qft => "QFT"
  | iqft => "IQFT"
  | cmodexp2 => "CMODEXP2"

def Builtin.all : List Builtin := [u, x, y, z, h, s, t, qft, iqft, cmodexp2]

inductive MathConstant where
  | pi
  | tau
  | euler
  deriving DecidableEq, Repr

def MathConstant.text : MathConstant → String
  | pi => "pi"
  | tau => "tau"
  | euler => "euler"

/-- The one-character spelling of a constant. -/
def MathConstant.glyph : MathConstant → Char
  | pi => 'π'
  | tau => 'τ'
  | euler => 'ℇ'

def MathConstant.all : List MathConstant := [pi, tau, euler]

/-- Words that open a statement. -/
inductive Keyword where
  | openqasm
  | includes
  | const
  | gate
  | defn
  | returns
  | measure
  | reset
  | print
  deriving DecidableEq, Repr

def Keyword.text : Keyword → String
  | openqasm => "OPENQASM"
  | includes => "include"
  | const => "const"
  | gate => "gate"
  | defn => "def"
  | returns => "return"
  | measure => "measure"
  | reset => "reset"
  | print => "print"

def Keyword.all : List Keyword :=
  [openqasm, includes, const, gate, defn, returns, measure, reset, print]

/-- Operators and punctuation. -/
inductive Symbol where
  | plus
  | minus
  | star
  | slash
  | percent
  | assign
  | arrow
  | atSign
  | lparen
  | rparen
  | lbracket
  | rbracket
  | lbrace
  | rbrace
  | semicolon
  | comma
  deriving DecidableEq, Repr

def Symbol.text : Symbol → String
  | plus => "+"
  | minus => "-"
  | star => "*"
  | slash => "/"
  | percent => "%"
  | assign => "="
  | arrow => "->"
  | atSign => "@"
  | lparen => "("
  | rparen => ")"
  | lbracket => "["
  | rbracket => "]"
  | lbrace => "\x7b"
  | rbrace => "\x7d"
  | semicolon => ";"
  | comma => ","

inductive BinaryOp where
  | add
  | sub
  | mul
  | div
  | mod
  deriving DecidableEq, Repr

def BinaryOp.symbol : BinaryOp → Symbol
  | add => .plus
  | sub => .minus
  | mul => .star
  | div => .slash
  | mod => .percent

/-- The binary operator a symbol stands for between two operands. -/
def Symbol.binaryOp? : Symbol → Option BinaryOp
  | plus => some .add
  | minus => some .sub
  | star => some .mul
  | slash => some .div
  | percent => some .mod
  | _ => none

/-- Binding strength; larger binds tighter. -/
def BinaryOp.precedence : BinaryOp → Nat
  | add => 1
  | sub => 1
  | mul => 2
  | div => 2
  | mod => 2

/-- Signs before an operand. -/
inductive UnaryOp where
  | neg
  | pos
  deriving DecidableEq, Repr

def UnaryOp.symbol : UnaryOp → Symbol
  | neg => .minus
  | pos => .plus

/-- The sign a symbol stands for before an operand. -/
def Symbol.unaryOp? : Symbol → Option UnaryOp
  | minus => some .neg
  | plus => some .pos
  | _ => none

end OpenQasm
