/-!
# Blank characters and lines of text

The characters with the property `White_Space`, and cutting a text into lines.
-/
namespace OpenQasm.Text

/-- The ranges of blank characters, first and last included. -/
def blankRanges : List (Nat × Nat) :=
  [(0x09, 0x0D), (0x20, 0x20), (0x85, 0x85), (0xA0, 0xA0), (0x1680, 0x1680), (0x2000, 0x200A),
    (0x2028, 0x2029), (0x202F, 0x202F), (0x205F, 0x205F), (0x3000, 0x3000)]

def isBlank (c : Char) : Bool := blankRanges.any fun (a, b) => a ≤ c.toNat && c.toNat ≤ b

/-- A text without the blanks at its ends. -/
def trim (s : String) : String :=
  String.ofList ((s.toList.dropWhile isBlank).reverse.dropWhile isBlank).reverse

/-- Characters cut after every line end. A last line may lack one. -/
def cutLines : List Char → List (List Char)
  | [] => []
  | c :: cs =>
      if c = '\n' then [c] :: cutLines cs
      else match cutLines cs with
        | [] => [[c]]
        | line :: lines => (c :: line) :: lines

/-- The lines of a text, each with its line end. -/
def lines (s : String) : List String := (cutLines s.toList).map String.ofList

/-- A line without its line end, which may have a carriage return before it. -/
def withoutEnd (line : List Char) : List Char :=
  match line.reverse with
  | '\n' :: '\r' :: cs => cs.reverse
  | '\n' :: cs => cs.reverse
  | _ => line

/-- The lines of a text, without their line ends. -/
def lineTexts (s : String) : List String :=
  (cutLines s.toList).map fun line => String.ofList (withoutEnd line)

end OpenQasm.Text
