/-!
# Doubles as exact binary fractions

A double is taken apart into sign, mantissa and binary exponent, so that text
can be produced from it, and remainders taken, in exact integer arithmetic.
Going back, `nearest` rounds an arbitrary fraction once, to the closest double,
with ties to the even mantissa. Underflow to subnormals and overflow to
infinity need no separate cases: the packed exponent and mantissa are added,
and a carry out of the mantissa moves into the exponent by itself.
-/
namespace OpenQasm.Decimal

/-- The value of a double: `finite s m e` is `± m * 2 ^ e`. -/
inductive Binary64 where
  | nan
  | infinite (negative : Bool)
  | finite (negative : Bool) (mantissa : Nat) (exponent : Int)
  deriving DecidableEq, Repr

namespace Binary64

/-- Mantissas of normal doubles lie in `[mantissaUnit, 2 * mantissaUnit)`. -/
def mantissaUnit : Nat := Nat.pow 2 52

/-- The binary exponent of the smallest positive double. -/
def minExponent : Int := -1074

def infinityBits : Nat := 2047 * mantissaUnit

/-- Take a double apart. -/
def ofFloat (x : Float) : Binary64 :=
  let bits := x.toBits.toNat
  let negative := decide (Nat.pow 2 63 ≤ bits)
  let field := bits / mantissaUnit % 2048
  let fraction := bits % mantissaUnit
  if field = 2047 then
    if fraction = 0 then .infinite negative else .nan
  else if field = 0 then .finite negative fraction minExponent
  else .finite negative (fraction + mantissaUnit) (field - 1075)

/-- `n / d` rounded to the nearest integer, a half going to the even one. -/
def roundDiv (n d : Nat) : Nat :=
  let q := n / d
  let r := n % d
  if d < 2 * r ∨ (d = 2 * r ∧ q % 2 = 1) then q + 1 else q

/-- Scale a fraction by a power of two, keeping numerator and denominator whole. -/
def scale (num den : Nat) (e : Int) : Nat × Nat :=
  if 0 ≤ e then (num <<< e.toNat, den) else (num, den <<< (-e).toNat)

/-- The largest `e` with `2 ^ e ≤ num / den`, for a positive fraction. -/
def floorLog2 (num den : Nat) : Int :=
  let guess : Int := (num.log2 : Int) - den.log2
  let (n, d) := scale num den (-guess)
  if d ≤ n then guess else guess - 1

/-- The packed double nearest to the fraction `num / den`. -/
def nearestBits (num den : Nat) : Nat :=
  if num = 0 then 0
  else
    let e := max minExponent (floorLog2 num den - 52)
    let (n, d) := scale num den (-e)
    min infinityBits ((e - minExponent).toNat * mantissaUnit + roundDiv n d)

def nearest (negative : Bool) (num den : Nat) : Float :=
  Float.ofBits (UInt64.ofNat (nearestBits num den + if negative then Nat.pow 2 63 else 0))

def toFloat : Binary64 → Float
  | nan => Float.ofBits 0x7FF8000000000000
  | infinite negative => nearest negative (Nat.pow 2 1024) 1
  | finite negative m e =>
      let (n, d) := scale m 1 e
      nearest negative n d

/-- The exact remainder of `x / y` with the sign of `x`; the quotient is
rounded toward zero. There is none when `x` is infinite or `y` is zero. -/
def rem : Binary64 → Binary64 → Binary64
  | nan, _ => nan
  | _, nan => nan
  | infinite _, _ => nan
  | x@(finite ..), infinite _ => x
  | finite s m e, finite _ n f =>
      if n = 0 then nan
      else
        let g := min e f
        finite s ((m <<< (e - g).toNat) % (n <<< (f - g).toNat)) g

end Binary64

end OpenQasm.Decimal
