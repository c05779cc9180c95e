import OpenQasm.Decimal.Binary64

/-!
# Reading numbers

Integers are an optional sign and digits. Reals also take a point, an exponent,
and the words `inf`, `infinity` and `nan` in any case. Nothing else is skipped
or ignored: blanks, separators and trailing text are all refused. What is read
is kept as an exact `Numeral`; rounding it to a number type is left to that
type.
-/
namespace OpenQasm

/-- An exact integer, if it fits 64 bits. -/
def int64? (v : Int) : Option Int64 :=
  if Int64.minValue.toInt ≤ v ∧ v ≤ Int64.maxValue.toInt then some (Int64.ofInt v) else none

namespace Decimal

/-- A real number as written: `decimal s m e` is `± m * 10 ^ e`. -/
inductive Numeral where
  | decimal (negative : Bool) (mantissa : Nat) (exponent : Int)
  | infinite (negative : Bool)
  | nan
  deriving DecidableEq, Repr

def digitsValue (ds : List Char) : Nat :=
  ds.foldl (fun acc c => 10 * acc + (c.toNat - '0'.toNat)) 0

/-- An optional sign: whether it is a minus, and what follows. -/
def splitSign : List Char → Bool × List Char
  | '-' :: cs => (true, cs)
  | '+' :: cs => (false, cs)
  | cs => (false, cs)

/-- A whole, non-empty list of digits. -/
def readDigits? (cs : List Char) : Option Nat :=
  if !cs.isEmpty && cs.all Char.isDigit then some (digitsValue cs) else none

def readInt? (text : String) : Option Int :=
  let (negative, ds) := splitSign text.toList
  (readDigits? ds).map fun n => if negative then -(n : Int) else n

/-- A 64-bit integer; numbers out of range are refused. -/
def readInt64? (text : String) : Option Int64 := (readInt? text).bind int64?

/-- A non-negative integer below `bound`; a plus sign is allowed, a minus sign is not. -/
def readNat? (bound : Nat) (text : String) : Option Nat :=
  let cs := match text.toList with
    | '+' :: cs => cs
    | cs => cs
  (readDigits? cs).filter (· < bound)

/-- The exponent part of a real; a missing one is zero. -/
def readExponent? : List Char → Option Int
  | [] => some 0
  | c :: cs =>
      if c = 'e' ∨ c = 'E' then
        let (negative, ds) := splitSign cs
        (readDigits? ds).map fun n => if negative then -(n : Int) else n
      else none

/-- A real without its sign. -/
def readMagnitude? (negative : Bool) (cs : List Char) : Option Numeral :=
  let word := String.ofList (cs.map Char.toLower)
  if word = "inf" ∨ word = "infinity" then some (.infinite negative)
  else if word = "nan" then some .nan
  else
    let whole := cs.takeWhile Char.isDigit
    let afterWhole := cs.dropWhile Char.isDigit
    let (fraction, rest) := match afterWhole with
      | '.' :: ds => (ds.takeWhile Char.isDigit, ds.dropWhile Char.isDigit)
      | ds => ([], ds)
    if whole.isEmpty && fraction.isEmpty then none
    else (readExponent? rest).map fun e =>
      .decimal negative (digitsValue (whole ++ fraction)) (e - fraction.length)

def readNumeral? (text : String) : Option Numeral :=
  let (negative, cs) := splitSign text.toList
  readMagnitude? negative cs

/-- The double nearest to a numeral. Exponents far outside the range of doubles
are settled before any power of ten is formed. -/
def Numeral.toFloat : Numeral → Float
  | .nan => Binary64.toFloat .nan
  | .infinite negative => Binary64.toFloat (.infinite negative)
  | .decimal negative m e =>
      let top := e + (Nat.toDigits 10 m).length
      if m = 0 ∨ top < -400 then Binary64.nearest negative 0 1
      else if 400 < top then Binary64.toFloat (.infinite negative)
      else if 0 ≤ e then Binary64.nearest negative (m * Nat.pow 10 e.toNat) 1
      else Binary64.nearest negative m (Nat.pow 10 (-e).toNat)

end Decimal

end OpenQasm
