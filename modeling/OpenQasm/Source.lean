import OpenQasm.Lexeme

/-!
# Reading source text from bytes

Bytes are decoded line by line, a line going up to and including its line end.
The first line that is not valid UTF-8 ends the reading: the lines before it are
returned, together with a complaint.
-/
namespace OpenQasm

def lineEnd : UInt8 := 10

/-- Bytes cut after every line end. A last line may lack one. -/
def splitLines : List UInt8 → List (List UInt8)
  | [] => []
  | b :: bs =>
      if b = lineEnd then [b] :: splitLines bs
      else match splitLines bs with
        | [] => [[b]]
        | line :: lines => (b :: line) :: lines

/-- The text of one line, if it is valid. -/
def decodeLine? (line : List UInt8) : Option String :=
  String.fromUTF8? ⟨line.toArray⟩

/-- The text of the lines up to the first invalid one. -/
def decodeLines : List (List UInt8) → String × List LexError
  | [] => ("", [])
  | line :: lines =>
      match decodeLine? line with
      | none => ("", [.unreadable .invalidText])
      | some text =>
          let (rest, errors) := decodeLines lines
          (text ++ rest, errors)

/-- The text that bytes hold, as far as it can be read. -/
def readSource (bytes : List UInt8) : String × List LexError := decodeLines (splitLines bytes)

end OpenQasm
