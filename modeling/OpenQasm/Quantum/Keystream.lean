/-!
# Random draws

Draws come from the ChaCha stream cipher with twelve rounds, keyed by a 64-bit
seed that is stretched to eight words by a permuted congruential generator. A draw
is a number below `2 ^ 53` and depends on the seed and on its position only.
-/
namespace OpenQasm.Keystream

def rotl (x : UInt32) (n : UInt32) : UInt32 := (x <<< n) ||| (x >>> (32 - n))

def rotr (x : UInt32) (n : UInt32) : UInt32 := (x >>> n) ||| (x <<< (32 - n))

/-- One step of the generator that stretches a seed. -/
def stretch (s : UInt64) : UInt64 := s * 6364136223846793005 + 11634580027462260723

/-- The word a state of that generator gives. -/
def stretchOutput (s : UInt64) : UInt32 :=
  rotr (((s >>> 18) ^^^ s) >>> 27).toUInt32 (s >>> 59).toUInt32

/-- Four words of the cipher state. -/
structure Row where
  a : UInt32
  b : UInt32
  c : UInt32
  d : UInt32
  deriving DecidableEq, Repr

namespace Row

def zipWith (f : UInt32 → UInt32 → UInt32) (x y : Row) : Row :=
  ⟨f x.a y.a, f x.b y.b, f x.c y.c, f x.d y.d⟩

def rotl (n : UInt32) (x : Row) : Row :=
  ⟨Keystream.rotl x.a n, Keystream.rotl x.b n, Keystream.rotl x.c n, Keystream.rotl x.d n⟩

/-- Move the words of a row one place to the left, the first one to the end. -/
def turn (x : Row) : Row := ⟨x.b, x.c, x.d, x.a⟩

def words (x : Row) : List UInt32 := [x.a, x.b, x.c, x.d]

end Row

/-- The cipher state. -/
structure State where
  r0 : Row
  r1 : Row
  r2 : Row
  r3 : Row
  deriving DecidableEq, Repr

namespace State

/-- Half of a quarter round, on all columns at once. -/
def halfRound (n m : UInt32) (s : State) : State :=
  let r0 := Row.zipWith (· + ·) s.r0 s.r1
  let r3 := (Row.zipWith (· ^^^ ·) s.r3 r0).rotl n
  let r2 := Row.zipWith (· + ·) s.r2 r3
  let r1 := (Row.zipWith (· ^^^ ·) s.r1 r2).rotl m
  ⟨r0, r1, r2, r3⟩

/-- A round on the columns. -/
def columns (s : State) : State := (s.halfRound 16 12).halfRound 8 7

/-- A round on the columns and one on the diagonals. -/
def doubleRound (s : State) : State :=
  let t := s.columns
  let u := columns ⟨t.r0, t.r1.turn, t.r2.turn.turn, t.r3.turn.turn.turn⟩
  ⟨u.r0, u.r1.turn.turn.turn, u.r2.turn.turn, u.r3.turn⟩

def rounds : Nat → State → State
  | 0, s => s
  | n + 1, s => rounds n s.doubleRound

def add (s t : State) : State :=
  ⟨Row.zipWith (· + ·) s.r0 t.r0, Row.zipWith (· + ·) s.r1 t.r1,
    Row.zipWith (· + ·) s.r2 t.r2, Row.zipWith (· + ·) s.r3 t.r3⟩

def words (s : State) : List UInt32 := s.r0.words ++ s.r1.words ++ s.r2.words ++ s.r3.words

end State

/-- The key a seed is stretched to. -/
def key (seed : UInt64) : Row × Row :=
  let s0 := stretch seed
  let s1 := stretch s0
  let s2 := stretch s1
  let s3 := stretch s2
  let s4 := stretch s3
  let s5 := stretch s4
  let s6 := stretch s5
  let s7 := stretch s6
  (⟨stretchOutput s0, stretchOutput s1, stretchOutput s2, stretchOutput s3⟩,
    ⟨stretchOutput s4, stretchOutput s5, stretchOutput s6, stretchOutput s7⟩)

/-- The cipher's input for a block. -/
def input (seed : UInt64) (block : Nat) : State :=
  let (k0, k1) := key seed
  ⟨⟨0x61707865, 0x3320646e, 0x79622d32, 0x6b206574⟩, k0, k1,
    ⟨UInt32.ofNat block, UInt32.ofNat (block / Nat.pow 2 32), 0, 0⟩⟩

def block (seed : UInt64) (n : Nat) : List UInt32 :=
  let s := input seed n
  ((State.rounds 6 s).add s).words

/-- The draw at a position: two words of the stream, without their lowest bits. -/
def draw (seed : UInt64) (position : Nat) : Nat :=
  let ws := block seed (position / 8)
  let word (i : Nat) : Nat := ((ws[i]?).getD 0).toNat
  let i := 2 * (position % 8)
  (word i + Nat.pow 2 32 * word (i + 1)) / Nat.pow 2 11

end OpenQasm.Keystream
