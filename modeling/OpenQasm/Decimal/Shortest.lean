import OpenQasm.Decimal.Binary64

/-!
# The shortest decimal that reads back

Among the decimals that round to a given double, `shortest` finds one with the
fewest digits, and of those the nearest to the double. The search tries one
digit, then two, and so on. On each decimal grid only the two neighbours of the
exact value have to be tested against the interval of reals that round to the
double. `Float.text` lays the digits out as constants of the language are
written.
-/
namespace OpenQasm.Decimal

/-- A positive decimal: `digits * 10 ^ exponent`. -/
structure Digits where
  digits : Nat
  exponent : Int
  deriving DecidableEq, Repr

/-- Scale a fraction by a power of ten, keeping numerator and denominator whole. -/
def scaleTen (num den : Nat) (e : Int) : Nat × Nat :=
  if 0 ≤ e then (num * Nat.pow 10 e.toNat, den) else (num, den * Nat.pow 10 (-e).toNat)

def digitCount (n : Nat) : Nat := (Nat.toDigits 10 n).length

/-- The largest `e` with `10 ^ e ≤ num / den`, for a positive fraction. -/
def floorLog10 (num den : Nat) : Int :=
  let guess : Int := (digitCount num : Int) - digitCount den
  let (n, d) := scaleTen num den (-guess)
  if d ≤ n then guess else guess - 1

/-- The reals that round to a positive double, as multiples of a quarter of its
last place: `low` and `high` bound the interval, `mid` is the double itself. -/
structure RoundingInterval where
  low : Nat
  mid : Nat
  high : Nat
  closed : Bool
  exponent : Int
  deriving DecidableEq, Repr

/-- The rounding interval of `m * 2 ^ e`. Below a power of two the gap is half as wide. -/
def RoundingInterval.ofMantissa (m : Nat) (e : Int) : RoundingInterval :=
  let narrow := m = Binary64.mantissaUnit ∧ Binary64.minExponent < e
  { low := if narrow then 4 * m - 1 else 4 * m - 2
    mid := 4 * m
    high := 4 * m + 2
    closed := m % 2 = 0
    exponent := e - 2 }

def RoundingInterval.contains (i : RoundingInterval) (n d : Nat) : Bool :=
  let (l, dl) := Binary64.scale i.low 1 i.exponent
  let (h, dh) := Binary64.scale i.high 1 i.exponent
  if i.closed then l * d ≤ n * dl ∧ n * dh ≤ h * d
  else l * d < n * dl ∧ n * dh < h * d

/-- The decimal on the grid `10 ^ e` that lies in the interval and is nearest to
its middle; of two at the same distance the larger. -/
def RoundingInterval.onGrid (i : RoundingInterval) (e : Int) : Option Digits :=
  let (num, den) := Binary64.scale i.mid 1 i.exponent
  let (n, d) := scaleTen num den (-e)
  let down := n / d
  let fits (k : Nat) : Bool :=
    let (a, b) := scaleTen k 1 e
    i.contains a b
  match fits down, fits (down + 1) with
  | true, true => some ⟨if d ≤ 2 * (n % d) then down + 1 else down, e⟩
  | true, false => some ⟨down, e⟩
  | false, true => some ⟨down + 1, e⟩
  | false, false => none

/-- Try finer and finer grids, `fuel` of them, starting at `10 ^ e`. -/
def RoundingInterval.search (i : RoundingInterval) : Nat → Int → Digits
  | 0, e =>
      let (num, den) := Binary64.scale i.mid 1 i.exponent
      let (n, d) := scaleTen num den (-e)
      ⟨n / d, e⟩
  | fuel + 1, e => (i.onGrid e).getD (i.search fuel (e - 1))

/-- The shortest decimal that reads back to the positive double `m * 2 ^ e`.
Seventeen digits always suffice. -/
def shortest (m : Nat) (e : Int) : Digits :=
  let i := RoundingInterval.ofMantissa m e
  let (num, den) := Binary64.scale m 1 e
  i.search 17 (floorLog10 num den)

/-- Digits without trailing zeros, and the power of ten of the first one. -/
def Digits.normal (x : Digits) : List Char × Int :=
  let ds := Nat.toDigits 10 x.digits
  ((ds.reverse.dropWhile (· = '0')).reverse, x.exponent + ds.length - 1)

/-- Digits whose first one stands for `10 ^ e`, written without an exponent and
with at least one place after the point. -/
def positional (ds : List Char) (e : Int) : List Char :=
  if e < 0 then '0' :: '.' :: (List.replicate ((-e).toNat - 1) '0' ++ ds)
  else
    let whole := e.toNat + 1
    let padded := ds ++ List.replicate (whole - ds.length) '0'
    let fraction := padded.drop whole
    padded.take whole ++ '.' :: (if fraction.isEmpty then ['0'] else fraction)

/-- Digits whose first one stands for `10 ^ e`, written with an exponent. -/
def scientific (ds : List Char) (e : Int) : List Char :=
  let mantissa := match ds with
    | [] => ['0']
    | [d] => [d]
    | d :: rest => d :: '.' :: rest
  mantissa ++ 'e' :: (toString e).toList

/-- Constants are written positionally from `10 ^ -4` up to `10 ^ 16`. -/
def positionalExponent (e : Int) : Bool := -4 ≤ e ∧ e < 16

/-- A constant: the shortest decimal that reads back. -/
def Binary64.text : Binary64 → String
  | nan => "NaN"
  | infinite negative => if negative then "-inf" else "inf"
  | finite negative m e =>
      let sign := if negative then "-" else ""
      if m = 0 then sign ++ "0.0"
      else
        let (ds, k) := (shortest m e).normal
        sign ++ String.ofList (if positionalExponent k then positional ds k else scientific ds k)

end OpenQasm.Decimal
