import OpenQasm.Decimal.Binary64

/-!
# A fixed number of decimal places

The exact value of a double is rounded once, to a given number of places, a
half going to the even neighbour. The sign is kept even when every digit
vanishes.
-/
namespace OpenQasm.Decimal

/-- `n` with a point before its last `places` digits. -/
def withPoint (places n : Nat) : List Char :=
  let ds := Nat.toDigits 10 n
  let padded := List.replicate (places + 1 - ds.length) '0' ++ ds
  let whole := padded.length - places
  if places = 0 then padded else padded.take whole ++ '.' :: padded.drop whole

/-- Whether a `+` is written before a number that is not negative. -/
inductive SignRule where
  | minusOnly
  | always
  deriving DecidableEq, Repr

def SignRule.sign (rule : SignRule) (negative : Bool) : String :=
  if negative then "-" else match rule with
    | minusOnly => ""
    | always => "+"

def Binary64.fixed (rule : SignRule) (places : Nat) : Binary64 → String
  | nan => "NaN"
  | infinite negative => rule.sign negative ++ "inf"
  | finite negative m e =>
      let (n, d) := Binary64.scale (m * Nat.pow 10 places) 1 e
      rule.sign negative ++ String.ofList (withPoint places (Binary64.roundDiv n d))

end OpenQasm.Decimal
