import OpenQasm.Lexeme

/-!
# Replies of a parser

A parser looks at the lexemes still ahead and either finishes with a value or
fails with an error. In both cases it says where it stopped, and that place is
never before the one it started at. Carrying this fact in the reply is what makes
the grammar a total function: every round of a loop can be seen to have fewer
lexemes ahead than the one before.
-/
namespace OpenQasm

inductive ParseError where
  | unexpectedToken (line : Nat) (expected found : String)
  | unexpectedEnd (expected : String)
  | illegalToken (line : Nat) (text : String)
  | invalidVersion (line : Nat) (found : String)
  | misplacedVersion (line : Nat)
  deriving DecidableEq, Repr

def ParseError.message : ParseError → String
  | unexpectedToken line expected found =>
      s!"Unexpected token at line {line}: expected {expected}, found {found}"
  | unexpectedEnd expected => s!"Unexpected end of input: expected {expected}"
  | illegalToken line text => s!"Illegal token at line {line}: '{text}'"
  | invalidVersion line found => s!"Invalid OPENQASM version at line {line}: {found}"
  | misplacedVersion line =>
      s!"OPENQASM version declaration must be the first statement (line {line})"

namespace Parser

/-- What a parser started on `ts` ends with, and the lexemes it left. -/
inductive Reply (ε : Type) (ts : List Lexeme) (α : Type) where
  | done (value : α) (rest : List Lexeme) (le : rest.length ≤ ts.length)
  | fail (error : ε) (rest : List Lexeme) (le : rest.length ≤ ts.length)

namespace Reply

variable {ε ε' α β : Type} {ts us : List Lexeme}

/-- Finish without taking anything. -/
def pure (value : α) : Reply ε ts α := done value ts (Nat.le_refl _)

/-- A reply from a place further on. -/
def later (le : us.length ≤ ts.length) : Reply ε us α → Reply ε ts α
  | done value rest h => done value rest (Nat.le_trans h le)
  | fail error rest h => fail error rest (Nat.le_trans h le)

/-- A reply from the place after the first lexeme. -/
def next {t : Lexeme} (r : Reply ε ts α) : Reply ε (t :: ts) α :=
  r.later (Nat.le_succ _)

/-- Go on where the first reply left off. -/
def andThen (r : Reply ε ts α)
    (f : α → (rest : List Lexeme) → rest.length ≤ ts.length → Reply ε rest β) : Reply ε ts β :=
  match r with
  | done value rest h => (f value rest h).later h
  | fail error rest h => fail error rest h

def map (f : α → β) : Reply ε ts α → Reply ε ts β
  | done value rest h => done (f value) rest h
  | fail error rest h => fail error rest h

def mapError (f : ε → ε') : Reply ε ts α → Reply ε' ts α
  | done value rest h => done value rest h
  | fail error rest h => fail (f error) rest h

end Reply

/-- The error for finding something other than `expected`. -/
def unexpected (expected : String) : List Lexeme → ParseError
  | [] => .unexpectedEnd expected
  | l :: _ =>
      match l.token with
      | .illegal text => .illegalToken l.line text
      | t => .unexpectedToken l.line expected ("'" ++ t.text ++ "'")

/-- Fail on the spot. -/
def reject {α : Type} (expected : String) (ts : List Lexeme) : Reply ParseError ts α :=
  .fail (unexpected expected ts) ts (Nat.le_refl _)

/-- Whether the next token is the symbol `s`. -/
def startsWith (s : Symbol) : List Lexeme → Bool
  | [] => false
  | l :: _ => l.token = .symbol s

def expect (s : Symbol) : (ts : List Lexeme) → Reply ParseError ts Unit
  | [] => reject ("'" ++ s.text ++ "'") []
  | l :: r =>
      if l.token = .symbol s then .done () r (Nat.le_succ _)
      else reject ("'" ++ s.text ++ "'") (l :: r)

def identifier : (ts : List Lexeme) → Reply ParseError ts String
  | [] => reject "identifier" []
  | l :: r =>
      match l.token with
      | .ident name => .done name r (Nat.le_succ _)
      | _ => reject "identifier" (l :: r)

/-- Take further identifiers, each after a comma. -/
def identifierTail : (ts : List Lexeme) → Reply ParseError ts (List String)
  | [] => .pure []
  | l :: r =>
      if l.token = .symbol .comma then
        ((identifier r).andThen fun name rest _ =>
          (identifierTail rest).map (name :: ·)).next
      else .pure []
termination_by ts => ts.length

def identifiers (ts : List Lexeme) : Reply ParseError ts (List String) :=
  (identifier ts).andThen fun name rest _ => (identifierTail rest).map (name :: ·)

end Parser

end OpenQasm
