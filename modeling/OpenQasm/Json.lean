/-!
# Structured output

Data written out as JSON. Fields keep the order they are given in. The indented
form has two blanks a level and puts every element on a line of its own; an empty
array or object stays on one line.
-/
namespace OpenQasm

inductive Json where
  | null
  | nat (n : Nat)
  /-- A number given by its text. -/
  | number (text : String)
  | string (s : String)
  | array (items : List Json)
  | object (fields : List (String × Json))

namespace Json

/-- An object with one field. -/
def tagged (tag : String) (content : Json) : Json := object [(tag, content)]

/-- A value that may be missing. -/
def ofOption {α : Type} (f : α → Json) : Option α → Json
  | none => null
  | some a => f a

/-- The lower-case hexadecimal digits of a control character. -/
def controlEscape (c : Char) : List Char :=
  let n := c.toNat
  ['\\', 'u', '0', '0', Nat.digitChar (n / 16), Nat.digitChar (n % 16)]

/-- A character inside a JSON string. -/
def escapeChar (c : Char) : List Char :=
  if c = '"' then ['\\', '"']
  else if c = '\\' then ['\\', '\\']
  else if c = '\n' then ['\\', 'n']
  else if c = '\r' then ['\\', 'r']
  else if c = '\t' then ['\\', 't']
  else if c = '\x08' then ['\\', 'b']
  else if c = '\x0c' then ['\\', 'f']
  else if c.toNat < 32 then controlEscape c
  else [c]

def quote (s : String) : String :=
  "\"" ++ String.ofList (s.toList.flatMap escapeChar) ++ "\""

/-- A line end and the indentation of a level. -/
def lineBreak (level : Nat) : String := "\n" ++ String.ofList (List.replicate (2 * level) ' ')

mutual

/-- Indented text, `level` deep. -/
def indented (level : Nat) : Json → String
  | null => "null"
  | nat n => toString n
  | number text => text
  | string s => quote s
  | array [] => "[]"
  | array (item :: items) =>
      "[" ++ lineBreak (level + 1) ++ indented (level + 1) item ++
        indentedItems (level + 1) items ++ lineBreak level ++ "]"
  | object [] => "\x7b\x7d"
  | object ((key, item) :: fields) =>
      "\x7b" ++ lineBreak (level + 1) ++ quote key ++ ": " ++ indented (level + 1) item ++
        indentedFields (level + 1) fields ++ lineBreak level ++ "\x7d"

/-- Further elements of an array, each after a comma. -/
def indentedItems (level : Nat) : List Json → String
  | [] => ""
  | item :: items => "," ++ lineBreak level ++ indented level item ++ indentedItems level items

/-- Further fields of an object, each after a comma. -/
def indentedFields (level : Nat) : List (String × Json) → String
  | [] => ""
  | (key, item) :: fields =>
      "," ++ lineBreak level ++ quote key ++ ": " ++ indented level item ++
        indentedFields level fields

end

def pretty (j : Json) : String := indented 0 j

end Json

end OpenQasm
