import OpenQasm.Eval.EvalError

/-!
# Tables of names

A table lists names in the order they were first bound, each with the value it
was bound to last. Register tables bind names to lists of elements, which may be
indexed from either end: `-1` is the last element.
-/
namespace OpenQasm

/-- Names bound to values, in the order of their first binding. -/
structure Table (α : Type) where
  entries : List (String × α)

namespace Table

variable {α : Type}

def empty : Table α := ⟨[]⟩

/-- The value of a name. -/
def get? (t : Table α) (name : String) : Option α := t.entries.lookup name

def contains (t : Table α) (name : String) : Bool := (t.get? name).isSome

/-- Bind a name. A name that is bound already keeps its place. -/
def set (t : Table α) (name : String) (value : α) : Table α :=
  if t.contains name then
    ⟨t.entries.map fun (n, v) => if n = name then (n, value) else (n, v)⟩
  else ⟨t.entries ++ [(name, value)]⟩

def names (t : Table α) : List String := t.entries.map Prod.fst

def size (t : Table α) : Nat := t.entries.length

end Table

/-- The place of a possibly negative index in a register of `len` elements. -/
def place? (index : Int64) (len : Nat) : Option Nat :=
  let i := if index.toInt < 0 then index.toInt + len else index.toInt
  if len < Nat.pow 2 63 ∧ 0 ≤ i ∧ i < len then some i.toNat else none

/-- Named registers. -/
abbrev RegisterTable (α : Type) := Table (List α)

namespace RegisterTable

variable {α : Type}

/-- A whole register, or the one element at an index. -/
def select (t : RegisterTable α) (name : String) (index : Option Int64) :
    Except EvalError (List α) :=
  match t.get? name with
  | none => .error (.undefined name)
  | some register =>
      match index with
      | none => .ok register
      | some i =>
          match (place? i register.length).bind (register[·]?) with
          | some a => .ok [a]
          | none => .error (.indexOutOfRange name i register.length)

/-- All registers one after the other. -/
def all (t : RegisterTable α) : List α := t.entries.flatMap Prod.snd

end RegisterTable

end OpenQasm
