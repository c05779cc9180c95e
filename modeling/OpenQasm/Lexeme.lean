import OpenQasm.Token.Scan

/-!
# Source text as a list of tokens

A lexeme is a token with its own text and its place in the source. Cutting a
source into lexemes never fails and loses nothing: their texts, one after the
other, are the source. Offsets count UTF-8 bytes; a lexeme's line is one more
than the number of line ends before it.
-/
namespace OpenQasm

/-- A token where it stands in the source. -/
structure Lexeme where
  token : Token
  /-- The characters of the source it was read from. -/
  chars : List Char
  /-- Byte offset of its first character. -/
  start : Nat
  /-- Line of its first character, counted from one. -/
  line : Nat
  deriving DecidableEq, Repr

def utf8Length (cs : List Char) : Nat := cs.foldr (fun c n => c.utf8Size + n) 0

def newlines (cs : List Char) : Nat := cs.count '\n'

/-- Byte offset just after a lexeme. -/
def Lexeme.stop (l : Lexeme) : Nat := l.start + utf8Length l.chars

/-- Why reading ends early. -/
inductive ReadFault where
  | invalidText
  | isFolder
  deriving DecidableEq, Repr

def ReadFault.message : ReadFault → String
  | invalidText => "stream did not contain valid UTF-8"
  | isFolder => "Is a directory (os error 21)"

/-- Complaints about a source text. What was read before one of them is kept. -/
inductive LexError where
  | unreadable (fault : ReadFault)
  | illegal (line : Nat) (text : String)
  deriving DecidableEq, Repr

def LexError.message : LexError → String
  | unreadable fault => "Read error: " ++ fault.message
  | illegal line text => s!"Illegal character at line {line}: '{text}'"

/-- A complaint, followed by what caused it. -/
def LexError.chain (e : LexError) : List String :=
  match e with
  | unreadable fault => [e.message, fault.message]
  | illegal .. => [e.message]

/-- The complaint an illegal token gives rise to. -/
def Lexeme.error? (l : Lexeme) : Option LexError :=
  match l.token with
  | .illegal text => some (.illegal l.line text)
  | _ => none

/-- Cut a text that starts at a given offset and line. -/
def lexFrom (start line : Nat) : List Char → List Lexeme
  | [] => []
  | c :: cs =>
      let (token, n) := Token.scan c cs
      let chars := c :: cs.take n
      { token, chars, start, line } ::
        lexFrom (start + utf8Length chars) (line + newlines chars) (cs.drop n)
termination_by cs => cs.length
decreasing_by
  rw [List.length_cons, List.length_drop]
  omega

/-- Every lexeme of a source, blanks and comments included. -/
def lexemes (source : String) : List Lexeme := lexFrom 0 1 source.toList

/-- The lexemes that carry meaning. -/
def significant (source : String) : List Lexeme :=
  (lexemes source).filter (!·.token.isTrivia)

def lexErrors (source : String) : List LexError := (lexemes source).filterMap Lexeme.error?

end OpenQasm
