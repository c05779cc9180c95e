import OpenQasm.Quantum.BackendError
import OpenQasm.Syntax.Vocabulary

/-!
# Errors of evaluation

Every error names its cause; the wording is in `EvalError.message` alone.
-/
namespace OpenQasm

/-- What a call passes in the wrong number. -/
inductive ArgumentKind where
  | parameter
  | argument
  | qubit
  deriving DecidableEq, Repr

def ArgumentKind.text : ArgumentKind → String
  | parameter => "parameter(s)"
  | argument => "argument(s)"
  | qubit => "qubit argument(s)"

/-- A value of the wrong kind for its use. -/
inductive TypeFault where
  | malformedFloat (literal : String)
  | stringAsNumber (text : String)
  | notInt (type : String)
  | badOperands (op : BinaryOp) (left right : String)
  | negatedString
  | negativeUint (value : Int64)
  | badConversion (type : String) (target : TypeKind)
  | doesNotFit (value : Int64) (width : Nat)
  | notStorable (type : String)
  | notScalar (type : String)
  | notRegister (expr : String)
  | notConstant (expr : String)
  | qubitTarget (name : String)
  | negativeSize (size : Int64)
  | negativeInt (value : Int64)
  | qubitResult (subroutine : String)
  deriving DecidableEq, Repr

def TypeFault.message : TypeFault → String
  | malformedFloat literal => s!"malformed float {literal}"
  | stringAsNumber text => s!"expected a number, got string \"{text}\""
  | notInt type => s!"expected an int, got {type}"
  | badOperands op left right => "cannot apply '" ++ op.symbol.text ++ s!"' to {left} and {right}"
  | negatedString => "cannot negate a string"
  | negativeUint value => "uint cannot hold " ++ toString value.toInt
  | badConversion type target => s!"cannot use {type} as " ++ target.text
  | doesNotFit value width => toString value.toInt ++ s!" does not fit in {width} bit(s)"
  | notStorable type => s!"cannot store {type} in a bit register"
  | notScalar type => s!"expected a scalar, got {type}"
  | notRegister expr => s!"expected a register reference, got '{expr}'"
  | notConstant expr => s!"'{expr}' is not a constant expression"
  | qubitTarget name => s!"cannot assign to qubit register '{name}'"
  | negativeSize size => "register size " ++ toString size.toInt ++ " is negative"
  | negativeInt value => "expected a non-negative int, got " ++ toString value.toInt
  | qubitResult subroutine => s!"subroutine '{subroutine}' cannot return qubits"

/-- A modifier that cannot be used where it stands. -/
inductive ModifierFault where
  | badCount (kind : ModifierKind) (got : String)
  | missingExponent
  | badExponent (got : String)
  | onNonUnitary (kind : ModifierKind) (what definition : String)
  | onModularPower (kind : ModifierKind)
  | onSubroutine (kind : ModifierKind) (name : String)
  deriving DecidableEq, Repr

def ModifierFault.message : ModifierFault → String
  | badCount kind got => kind.text ++ s!" needs a positive integer count, got {got}"
  | missingExponent => "pow without exponent"
  | badExponent got => s!"pow exponent must be an integer, got {got}"
  | onNonUnitary kind what definition =>
      "'" ++ kind.text ++ s!"' cannot apply to non-unitary '{what}' in '{definition}'"
  | onModularPower kind => "'" ++ kind.text ++ "' cannot apply to CMODEXP2"
  | onSubroutine kind name => "'" ++ kind.text ++ s!"' cannot apply to subroutine '{name}'"

/-- Where an integer left the range of 64 bits. -/
inductive OverflowSource where
  | literal (text : String)
  | negation (value : Int64)
  | operation (left : Int64) (op : BinaryOp) (right : Int64)
  | power (exponent : Int64)
  /-- A call asks for more control names or statements than any memory holds. -/
  | expansion (gate : String)
  deriving DecidableEq, Repr

def OverflowSource.message : OverflowSource → String
  | literal text => s!"literal {text}"
  | negation value => "-" ++ toString value.toInt
  | operation left op right =>
      toString left.toInt ++ " " ++ op.symbol.text ++ " " ++ toString right.toInt
  | power exponent => "pow(" ++ toString exponent.toInt ++ ")"
  | expansion gate => s!"the body of '{gate}'"

inductive EvalError where
  | undefined (name : String)
  | indexOutOfRange (register : String) (index : Int64) (size : Nat)
  | arity (name : String) (what : ArgumentKind) (expected got : Nat)
  | sizeMismatch (expected got : Nat)
  | unknownGate (name : String)
  | typeMismatch (fault : TypeFault)
  | divisionByZero
  | overflow (source : OverflowSource)
  | invalidModifier (fault : ModifierFault)
  | notGlobal (name : String)
  | assignToConst (name : String)
  | noEffect (expr : String)
  | recursion (name : String)
  | depthLimit (limit : Nat)
  | unrollLimit (name : String) (limit : Nat)
  | backend (error : BackendError)
  /-- An error raised by a top-level statement, with the text of the statement. -/
  | inStatement (source : EvalError) (stmt : String)
  deriving DecidableEq, Repr

namespace EvalError

def message : EvalError → String
  | undefined name => s!"Undefined identifier: {name}"
  | indexOutOfRange register index size =>
      "Index " ++ toString index.toInt ++ s!" out of range for register '{register}' of size {size}"
  | arity name what expected got =>
      s!"'{name}' expects {expected} " ++ what.text ++ s!", got {got}"
  | sizeMismatch expected got => s!"Size mismatch: expected {expected}, got {got}"
  | unknownGate name => s!"Unknown gate or subroutine: {name}"
  | typeMismatch fault => "Type mismatch: " ++ fault.message
  | divisionByZero => "Division by zero"
  | overflow source => "Integer overflow in " ++ source.message
  | invalidModifier fault => "Invalid modifier: " ++ fault.message
  | notGlobal name => s!"'{name}' may only be declared in the global scope"
  | assignToConst name => s!"Cannot assign to constant '{name}'"
  | noEffect expr => s!"Invalid statement: expression '{expr}' has no effect"
  | recursion name => s!"Recursive call to '{name}'"
  | depthLimit limit => s!"Call depth exceeds the limit of {limit}"
  | unrollLimit name limit => s!"Expanding '{name}' exceeds the limit of {limit} statements"
  | backend error => "Backend error: " ++ error.message
  | inStatement source stmt => source.message ++ "\n  in: " ++ stmt

/-- The error without the statement around it. -/
def root : EvalError → EvalError
  | inStatement source _ => source.root
  | e => e

/-- The messages of an error and of the errors it wraps, outermost first. -/
def chain : EvalError → List String
  | inStatement source stmt => (inStatement source stmt).message :: source.chain
  | backend error => [(backend error).message, error.message]
  | e => [e.message]

end EvalError

end OpenQasm
