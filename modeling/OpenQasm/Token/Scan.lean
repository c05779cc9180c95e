import OpenQasm.Token

/-!
# Cutting off one token

`Token.scan c cs` looks at a text that starts with `c` and goes on with `cs`. It
returns the longest token at its front, together with the number of characters
of `cs` that belong to it. The first character settles which rules can apply, so
each rule is one case below. A number takes its exponent only when the exponent
has a digit, so `1e+` is the integer `1` and then a word.

A block comment ends at the first `*/` after its opening. One that never ends is
a single illegal token up to the end of the text.
-/
namespace OpenQasm.Token

def isBlank (c : Char) : Bool :=
  c = ' ' || c = '\t' || c = '\r' || c = '\n' || c = '\x0c'

/-- A character that may start an identifier. -/
def isWordStart (c : Char) : Bool := c.isAlpha || c = '_'

def isWordPart (c : Char) : Bool := c.isAlphanum || c = '_'

/-- The number of characters at the front that satisfy `p`. -/
def run (p : Char → Bool) (cs : List Char) : Nat := (cs.takeWhile p).length

/-- The length of the exponent at the front, `0` when there is none. -/
def exponentLength : List Char → Nat
  | [] => 0
  | c :: cs =>
      if c = 'e' || c = 'E' then
        let sign := match cs with
          | '+' :: _ => 1
          | '-' :: _ => 1
          | _ => 0
        let digits := run Char.isDigit (cs.drop sign)
        if digits = 0 then 0 else 1 + sign + digits
      else 0

/-- The rest of a number after its first digit: whether it is a real, and its
length. After the point, digits and further points are taken together. -/
def numberTail (cs : List Char) : Bool × Nat :=
  let whole := run Char.isDigit cs
  match cs.drop whole with
  | '.' :: rest =>
      let fraction := run (fun c => c.isDigit || c = '.') rest
      (true, whole + 1 + fraction + exponentLength (rest.drop fraction))
  | rest =>
      let exponent := exponentLength rest
      (exponent ≠ 0, whole + exponent)

/-- The number of characters up to and including the first `*/`. -/
def commentEnd? : List Char → Option Nat
  | [] => none
  | '*' :: '/' :: _ => some 2
  | _ :: cs => (commentEnd? cs).map (· + 1)

/-- A string after its opening quote: up to the next such quote, or to the end of
the text. -/
def scanString (quote : Char) (cs : List Char) : Token × Nat :=
  let body := cs.takeWhile (· ≠ quote)
  let closing := if body.length < cs.length then 1 else 0
  (string (String.ofList body), body.length + closing)

def ofGlyph? (c : Char) : Option Token :=
  (MathConstant.all.find? (·.glyph = c)).map constant

def symbol? : Char → Option Symbol
  | '+' => some .plus
  | '-' => some .minus
  | '*' => some .star
  | '/' => some .slash
  | '%' => some .percent
  | '=' => some .assign
  | '@' => some .atSign
  | '(' => some .lparen
  | ')' => some .rparen
  | '[' => some .lbracket
  | ']' => some .rbracket
  | '\x7b' => some .lbrace
  | '\x7d' => some .rbrace
  | ';' => some .semicolon
  | ',' => some .comma
  | _ => none

/-- A text that starts with a slash: a comment of either form, or the symbol. -/
def scanSlash : List Char → Token × Nat
  | '/' :: cs => (comment, 1 + run (· ≠ '\n') cs)
  | '*' :: cs =>
      match commentEnd? cs with
      | some n => (comment, 1 + n)
      | none => (illegal (String.ofList ('/' :: '*' :: cs)), 1 + cs.length)
  | _ => (symbol .slash, 0)

/-- The token at the front of `c :: cs` and the number of characters of `cs` in it. -/
def scan (c : Char) (cs : List Char) : Token × Nat :=
  if isBlank c then (blank, run isBlank cs)
  else if isWordStart c then
    let n := run isWordPart cs
    (ofWord (String.ofList (c :: cs.take n)), n)
  else if c.isDigit then
    let (real, n) := numberTail cs
    let text := String.ofList (c :: cs.take n)
    (if real then float text else int text, n)
  else if c = '"' || c = '\'' then scanString c cs
  else if c = '/' then scanSlash cs
  else if c = '-' && cs.head? = some '>' then (symbol .arrow, 1)
  else match symbol? c with
    | some s => (symbol s, 0)
    | none => ((ofGlyph? c).getD (illegal (String.ofList [c])), 0)

end OpenQasm.Token
