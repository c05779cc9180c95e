import OpenQasm.Decimal.Fixed
import OpenQasm.Decimal.Numeral
import OpenQasm.Decimal.Shortest

/-!
# Real arithmetic

The interpreter is written once, over any type of real numbers with the
operations below. It runs on doubles. Statements about exact amplitudes are made
by taking exact reals in their place.
-/
namespace OpenQasm

/-- The operations on real numbers that constants, gates and measurements need. -/
class Scalar (R : Type) extends Zero R, One R, Add R, Sub R, Mul R, Div R, Neg R where
  /-- The remainder of a division with the quotient rounded toward zero. -/
  rem : R → R → R
  sqrt : R → R
  sin : R → R
  cos : R → R
  pi : R
  euler : R
  /-- The number nearest to an integer of 64 bits. -/
  ofInt : Int → R
  /-- The number nearest to a written one. -/
  ofNumeral : Decimal.Numeral → R
  lt : R → R → Bool
  /-- The double that stands for a number wherever it is written out. -/
  toFloat : R → Float

namespace Scalar

variable {R : Type} [Scalar R]

def half (x : R) : R := x / ofInt 2

/-- `2 ^ n`. -/
def twoPow : Nat → R
  | 0 => 1
  | n + 1 => ofInt 2 * twoPow n

/-- A number as constants are written: the shortest decimal that reads back. -/
def text (x : R) : String := (Decimal.Binary64.ofFloat (toFloat x)).text

/-- A number with a fixed number of places. -/
def fixed (rule : Decimal.SignRule) (places : Nat) (x : R) : String :=
  (Decimal.Binary64.ofFloat (toFloat x)).fixed rule places

end Scalar

instance : Scalar Float where
  rem x y := (Decimal.Binary64.rem (.ofFloat x) (.ofFloat y)).toFloat
  sqrt := Float.sqrt
  sin := Float.sin
  cos := Float.cos
  pi := 3.141592653589793
  euler := 2.718281828459045
  ofInt n := (Int64.ofInt n).toFloat
  ofNumeral := Decimal.Numeral.toFloat
  lt x y := x < y
  toFloat x := x

end OpenQasm
