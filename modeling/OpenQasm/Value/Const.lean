import OpenQasm.Eval.EvalError
import OpenQasm.Scalar
import OpenQasm.Syntax.Expr

/-!
# Constants

Typed constants and the arithmetic that folds them. Integers are 64 bits wide and
never wrap: a result is computed exactly and reported if it is out of range.
Division rounds toward zero. An operation with a real operand is done on reals,
where nothing is out of range and division by zero has a value.
-/
namespace OpenQasm

/-- A typed constant. -/
inductive Const (R : Type) where
  | int (v : Int64)
  | float (v : R)
  | string (s : String)

/-- Fold an operation on integers. The quotient decides whether a remainder is in
range, as both are taken together. -/
def foldInt (a : Int64) (op : BinaryOp) (b : Int64) : Except EvalError Int64 :=
  let exact (v : Int) : Except EvalError Int64 :=
    match int64? v with
    | some r => .ok r
    | none => .error (.overflow (.operation a op b))
  match op with
  | .add => exact (a.toInt + b.toInt)
  | .sub => exact (a.toInt - b.toInt)
  | .mul => exact (a.toInt * b.toInt)
  | .div => if b = 0 then .error .divisionByZero else exact (a.toInt.tdiv b.toInt)
  | .mod =>
      if b = 0 then .error .divisionByZero
      else match exact (a.toInt.tdiv b.toInt) with
        | .ok _ => exact (a.toInt.tmod b.toInt)
        | .error e => .error e

namespace Const

variable {R : Type} [Scalar R]

def typeName : Const R → String
  | int _ => "int"
  | float _ => "float"
  | string _ => "string"

/-- The text of a constant. Strings stand in double quotes, unescaped. -/
def text : Const R → String
  | int v => toString v.toInt
  | float v => Scalar.text v
  | string s => "\"" ++ s ++ "\""

def toReal : Const R → Except EvalError R
  | int v => .ok (Scalar.ofInt v.toInt)
  | float v => .ok v
  | string s => .error (.typeMismatch (.stringAsNumber s))

/-- A constant as an integer. Reals are refused, not rounded. -/
def toInt : Const R → Except EvalError Int64
  | int v => .ok v
  | c => .error (.typeMismatch (.notInt c.typeName))

def foldReal (a : R) (op : BinaryOp) (b : R) : R :=
  match op with
  | .add => a + b
  | .sub => a - b
  | .mul => a * b
  | .div => a / b
  | .mod => Scalar.rem a b

def binary (op : BinaryOp) : Const R → Const R → Except EvalError (Const R)
  | int a, int b => (foldInt a op b).map int
  | int a, float b => .ok (float (foldReal (Scalar.ofInt a.toInt) op b))
  | float a, int b => .ok (float (foldReal a op (Scalar.ofInt b.toInt)))
  | float a, float b => .ok (float (foldReal a op b))
  | a, b => .error (.typeMismatch (.badOperands op a.typeName b.typeName))

def unary (op : UnaryOp) : Const R → Except EvalError (Const R)
  | string _ => .error (.typeMismatch .negatedString)
  | int v =>
      match op with
      | .pos => .ok (int v)
      | .neg =>
          match int64? (-v.toInt) with
          | some w => .ok (int w)
          | none => .error (.overflow (.negation v))
  | float v =>
      match op with
      | .pos => .ok (float v)
      | .neg => .ok (float (-v))

/-- Convert to a declared type. -/
def coerce (kind : TypeKind) (c : Const R) : Except EvalError (Const R) :=
  match kind, c with
  | .int, int v => .ok (int v)
  | .uint, int v =>
      if v.toInt < 0 then .error (.typeMismatch (.negativeUint v)) else .ok (int v)
  | .float, int v => .ok (float (Scalar.ofInt v.toInt))
  | .angle, int v => .ok (float (Scalar.ofInt v.toInt))
  | .float, float v => .ok (float v)
  | .angle, float v => .ok (float v)
  | _, _ => .error (.typeMismatch (.badConversion c.typeName kind))

def ofLiteral (l : Literal) : Except EvalError (Const R) :=
  match l.kind with
  | .int =>
      match l.int? with
      | some v => .ok (int v)
      | none => .error (.overflow (.literal l.text))
  | .float =>
      match Decimal.readNumeral? l.text with
      | some n => .ok (float (Scalar.ofNumeral n))
      | none => .error (.typeMismatch (.malformedFloat l.text))
  | .string => .ok (string l.text)

end Const

/-- The value of a numeric literal as a real. -/
def Literal.real? {R : Type} [Scalar R] (l : Literal) : Option R :=
  match l.kind with
  | .int => l.int?.map fun v => Scalar.ofInt v.toInt
  | .float => (Decimal.readNumeral? l.text).map Scalar.ofNumeral
  | .string => none

def Literal.ofReal {R : Type} [Scalar R] (x : R) : Literal := ⟨.float, Scalar.text x⟩

end OpenQasm
