import OpenQasm.Quantum.StateVector

/-!
# Modular powers of a register

The basis map behind modular exponentiation: the target register is multiplied by
`a ^ x` modulo `n`, where `x` is held in the control register. Target values from
`n` on stay as they are.
-/
namespace OpenQasm.ModularPower

/-- The greatest common divisor, by division with remainder. -/
def divisor (a b : Nat) : Nat := if b = 0 then a else divisor b (a % b)
termination_by b
decreasing_by exact Nat.mod_lt _ (Nat.pos_of_ne_zero ‹_›)

/-- `result * base ^ e` modulo `n`, by repeated squaring. -/
def powInto (n result base e : Nat) : Nat :=
  if e = 0 then result
  else powInto n (if e % 2 = 1 then result * base % n else result) (base * base % n) (e / 2)
termination_by e
decreasing_by omega

def powMod (a e n : Nat) : Nat := powInto n (1 % n) (a % n) e

/-- Where a basis state goes. -/
def basisMap (a n : Nat) (control target : List QubitId) (index : Nat) : Nat :=
  let x := StateVector.readRegister control index
  let y := StateVector.readRegister target index
  if n ≤ y then index
  else StateVector.writeRegister (powMod a x n * y % n) target index

/-- The modulus must be positive and fit the target register, and `a` must be
invertible. -/
def check (a n width : Nat) : Except BackendError Unit :=
  if n = 0 then .error .zeroModulus
  else if width < 64 ∧ Nat.pow 2 width < n then .error (.modulusTooLarge n width)
  else if divisor a n ≠ 1 then .error (.notCoprime a n (divisor a n))
  else .ok ()

end OpenQasm.ModularPower
