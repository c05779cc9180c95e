import OpenQasm.Scalar

/-!
# Complex amplitudes
-/
namespace OpenQasm

/-- Types with a conjugation. -/
class Conj (A : Type) where
  conj : A → A

export Conj (conj)

/-- A complex number over a type of reals. -/
structure Amplitude (R : Type) where
  re : R
  im : R
  deriving DecidableEq, Repr

namespace Amplitude

variable {R : Type} [Scalar R]

instance : Zero (Amplitude R) := ⟨⟨0, 0⟩⟩

instance : One (Amplitude R) := ⟨⟨1, 0⟩⟩

instance : Add (Amplitude R) := ⟨fun a b => ⟨a.re + b.re, a.im + b.im⟩⟩

instance : Sub (Amplitude R) := ⟨fun a b => ⟨a.re - b.re, a.im - b.im⟩⟩

instance : Neg (Amplitude R) := ⟨fun a => ⟨-a.re, -a.im⟩⟩

instance : Mul (Amplitude R) :=
  ⟨fun a b => ⟨a.re * b.re - a.im * b.im, a.re * b.im + a.im * b.re⟩⟩

instance : Conj (Amplitude R) := ⟨fun a => ⟨a.re, -a.im⟩⟩

def ofReal (x : R) : Amplitude R := ⟨x, 0⟩

/-- The amplitude of modulus `r` at angle `t`. -/
def polar (r t : R) : Amplitude R := ⟨r * Scalar.cos t, r * Scalar.sin t⟩

def normSq (a : Amplitude R) : R := a.re * a.re + a.im * a.im

def norm (a : Amplitude R) : R := Scalar.sqrt a.normSq

def divReal (a : Amplitude R) (x : R) : Amplitude R := ⟨a.re / x, a.im / x⟩

/-- States whose probability is not above this are not listed. -/
def negligible : R := 1 / Scalar.ofInt 10000000000

/-- Whether the state with this amplitude is listed. -/
def listed (a : Amplitude R) : Bool := Scalar.lt negligible a.normSq

end Amplitude

end OpenQasm
