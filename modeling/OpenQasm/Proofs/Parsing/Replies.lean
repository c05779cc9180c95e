import OpenQasm.Parser.Reply
import OpenQasm.Proofs.Lexing.SelfReading

/-!
# Reasoning about replies

Two ways to speak of what a parser replies. `Holds` states what is true of every
value it may finish with and of the lexemes it leaves; `Yields` states that it
does finish, with a given value and given lexemes left. Both go through the
combinators that the grammar is written with.
-/
namespace OpenQasm.Parser

/-- Lexemes that the scanner has cut off. -/
def Genuine (ts : List Lexeme) : Prop := ∀ l ∈ ts, l.token.Genuine

theorem Genuine.tail {l : Lexeme} {ts : List Lexeme} (h : Genuine (l :: ts)) : Genuine ts :=
  fun l' hl' => h l' (List.mem_cons_of_mem l hl')

theorem Genuine.head {l : Lexeme} {ts : List Lexeme} (h : Genuine (l :: ts)) : l.token.Genuine :=
  h l List.mem_cons_self

namespace Reply

variable {ε ε' α β : Type} {ts us : List Lexeme}

/-- Only genuine lexemes are left, and whatever the reply finishes with satisfies `P`. -/
def Holds (P : α → List Lexeme → Prop) : Reply ε ts α → Prop
  | done a rest _ => Genuine rest ∧ P a rest
  | fail _ rest _ => Genuine rest

theorem Holds.mono {P Q : α → List Lexeme → Prop} {r : Reply ε ts α} (h : r.Holds P)
    (hpq : ∀ a rest, P a rest → Q a rest) : r.Holds Q := by
  cases r with
  | done a rest _ => exact ⟨h.1, hpq a rest h.2⟩
  | fail => exact h

theorem Holds.pure {P : α → List Lexeme → Prop} {a : α} (hts : Genuine ts) (h : P a ts) :
    (Reply.pure a : Reply ε ts α).Holds P := ⟨hts, h⟩

theorem Holds.later {P : α → List Lexeme → Prop} {r : Reply ε us α} (h : r.Holds P)
    (le : us.length ≤ ts.length) : (r.later le).Holds P := by
  cases r with
  | done => exact h
  | fail => exact h

theorem Holds.next {P : α → List Lexeme → Prop} {l : Lexeme} {r : Reply ε ts α} (h : r.Holds P) :
    (r.next : Reply ε (l :: ts) α).Holds P := h.later _

theorem Holds.map {P : β → List Lexeme → Prop} {f : α → β} {r : Reply ε ts α}
    (h : r.Holds fun a rest => P (f a) rest) : (r.map f).Holds P := by
  cases r with
  | done => exact h
  | fail => exact h

theorem Holds.mapError {P : α → List Lexeme → Prop} {f : ε → ε'} {r : Reply ε ts α}
    (h : r.Holds P) : (r.mapError f).Holds P := by
  cases r with
  | done => exact h
  | fail => exact h

theorem Holds.andThen {P : α → List Lexeme → Prop} {Q : β → List Lexeme → Prop}
    {r : Reply ε ts α} {f : α → (rest : List Lexeme) → rest.length ≤ ts.length → Reply ε rest β}
    (h : r.Holds P) (hf : ∀ a rest le, Genuine rest → P a rest → (f a rest le).Holds Q) :
    (r.andThen f).Holds Q := by
  cases r with
  | done a rest le => exact (hf a rest le h.1 h.2).later le
  | fail => exact h

/-- The reply finishes with a given value and leaves given lexemes. -/
def Yields (a : α) (rest : List Lexeme) : Reply ε ts α → Prop
  | done b left _ => b = a ∧ left = rest
  | fail .. => False

theorem Yields.pure (a : α) : (Reply.pure a : Reply ε ts α).Yields a ts := ⟨rfl, rfl⟩

theorem Yields.later {a : α} {rest : List Lexeme} {r : Reply ε us α} (h : r.Yields a rest)
    (le : us.length ≤ ts.length) : (r.later le).Yields a rest := by
  cases r with
  | done => exact h
  | fail => exact h

theorem Yields.next {a : α} {rest : List Lexeme} {l : Lexeme} {r : Reply ε ts α}
    (h : r.Yields a rest) : (r.next : Reply ε (l :: ts) α).Yields a rest := h.later _

theorem Yields.map {a : α} {rest : List Lexeme} (f : α → β) {r : Reply ε ts α}
    (h : r.Yields a rest) : (r.map f).Yields (f a) rest := by
  cases r with
  | done => exact ⟨congrArg f h.1, h.2⟩
  | fail => exact h

theorem Yields.mapError {a : α} {rest : List Lexeme} {f : ε → ε'} {r : Reply ε ts α}
    (h : r.Yields a rest) : (r.mapError f).Yields a rest := by
  cases r with
  | done => exact h
  | fail => exact h

theorem Yields.andThen {a : α} {b : β} {rest left : List Lexeme} {r : Reply ε ts α}
    {f : α → (rest : List Lexeme) → rest.length ≤ ts.length → Reply ε rest β}
    (h : r.Yields a rest) (hf : ∀ le, (f a rest le).Yields b left) :
    (r.andThen f).Yields b left := by
  cases r with
  | done a' rest' le =>
      obtain ⟨rfl, rfl⟩ := h
      exact (hf le).later le
  | fail => exact absurd h id

end Reply

/-! Symbols and identifiers -/

theorem startsWith_cons (s : Symbol) (l : Lexeme) (ts : List Lexeme) :
    startsWith s (l :: ts) = true ↔ l.token = .symbol s := by
  simp [startsWith]

theorem holds_reject {α : Type} {P : α → List Lexeme → Prop} {ts : List Lexeme}
    (h : Genuine ts) (expected : String) : (reject expected ts : Reply ParseError ts α).Holds P := h

theorem holds_expect {s : Symbol} {ts : List Lexeme} (h : Genuine ts) :
    (expect s ts).Holds fun _ _ => True := by
  cases ts with
  | nil => exact holds_reject h _
  | cons l r =>
      rw [expect]
      split
      · exact ⟨h.tail, trivial⟩
      · exact holds_reject h _

/-- A production ends with a symbol, and its value is fixed before that. -/
theorem holds_expect_map {α : Type} {P : α → Prop} {s : Symbol} {ts : List Lexeme} {a : α}
    (h : Genuine ts) (ha : P a) : ((expect s ts).map fun _ => a).Holds fun b _ => P b :=
  .map ((holds_expect h).mono fun _ _ _ => ha)

theorem yields_expect {s : Symbol} {l : Lexeme} (h : l.token = .symbol s) (ts : List Lexeme) :
    (expect s (l :: ts)).Yields () ts := by
  rw [expect, if_pos h]
  exact ⟨rfl, rfl⟩

theorem yields_identifier {name : String} {l : Lexeme} (h : l.token = .ident name)
    (ts : List Lexeme) : (identifier (l :: ts)).Yields name ts := by
  rw [identifier]
  split
  · rename_i name' h'
    rw [h] at h'
    cases h'
    exact ⟨rfl, rfl⟩
  · rename_i h'
    exact absurd h (h' name)

end OpenQasm.Parser
