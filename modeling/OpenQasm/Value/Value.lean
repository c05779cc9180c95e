import OpenQasm.Value.Const

/-!
# Values

What an expression or a call evaluates to: a constant, a string of bits, or
nothing. Bits are kept in register order; read as a number, the first bit is the
most significant one.
-/
namespace OpenQasm

/-- The number a string of bits stands for. -/
def bitsValue (bits : List Bool) : Nat := bits.foldl (fun acc b => 2 * acc + b.toNat) 0

/-- The lowest `len` bits of a number, the most significant one first. -/
def bitsOf (len n : Nat) : List Bool := (List.range len).map fun i => n.testBit (len - 1 - i)

def bitsText (bits : List Bool) : String :=
  String.ofList (bits.map fun b => if b then '1' else '0')

/-- The value of an expression or a call. -/
inductive Value (R : Type) where
  /-- Gates, and subroutines without a result. -/
  | none
  | const (c : Const R)
  | bits (bs : List Bool)

namespace Value

variable {R : Type} [Scalar R]

def typeName : Value R → String
  | none => "none"
  | const c => c.typeName
  | bits _ => "bits"

def text : Value R → String
  | none => "none"
  | const c => c.text
  | bits bs => bitsText bs

/-- The bits to store in a register of `len` bits. An integer must fit. Integers
are below `2 ^ 63`, so only short registers have to be checked for that. -/
def toBits (len : Nat) : Value R → Except EvalError (List Bool)
  | bits bs => if bs.length = len then .ok bs else .error (.sizeMismatch len bs.length)
  | const (.int v) =>
      if v.toInt < 0 ∨ (len < 63 ∧ Nat.pow 2 len ≤ v.toInt.toNat) then
        .error (.typeMismatch (.doesNotFit v len))
      else .ok (bitsOf len v.toInt.toNat)
  | v => .error (.typeMismatch (.notStorable v.typeName))

/-- A value as a constant. Bits are read as a number if they are few enough. -/
def toConst : Value R → Except EvalError (Const R)
  | const c => .ok c
  | bits bs =>
      if bs.length ≤ 63 then .ok (.int (Int64.ofNat (bitsValue bs)))
      else .error (.typeMismatch (.notScalar "bits"))
  | none => .error (.typeMismatch (.notScalar "none"))

end Value

end OpenQasm
