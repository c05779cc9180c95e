import Mathlib.Computability.Language
import OpenQasm.Proofs.Lexing.Places

/-!
# Rules for tokens

Every form of token has a rule: the regular language of the texts it may have, the token that
such a text stands for, and a rank that decides between rules that accept the same text. The
rules say nothing about how a source is cut. Below each language stands in the form in which
the scanner finds it: as characters of one kind, as a number after its first digit, as a
block comment whose end comes first at its end.
-/
namespace OpenQasm

open Computability

/-! Patterns -/

namespace Pattern

def one (p : Char → Prop) : Language Char := ({w | ∃ c, p c ∧ w = [c]} : Set (List Char))

def literal (text : String) : Language Char := {text.toList}

def repeated (l : Language Char) : Language Char := l * l∗

def optional (l : Language Char) : Language Char := 1 + l

def Digit (c : Char) : Prop := '0' ≤ c ∧ c ≤ '9'

/-- A character that a word may start with. -/
def Letter (c : Char) : Prop := ('a' ≤ c ∧ c ≤ 'z') ∨ ('A' ≤ c ∧ c ≤ 'Z') ∨ c = '_'

def digits : Language Char := repeated (one Digit)

/-- An exponent: its mark, a sign or none, and digits. -/
def exponent : Language Char :=
  one (· ∈ ['e', 'E']) * optional (one (· ∈ ['+', '-'])) * digits

/-- A text in quotes, of which the second one may be missing. -/
def quoted (quote : Char) : Language Char :=
  one (· = quote) * (one (· ≠ quote))∗ * optional (one (· = quote))

end Pattern

/-- Tokens that are always spelled the same. -/
inductive Spelling where
  | keyword (word : Keyword)
  | typeName (kind : TypeKind)
  | modifier (kind : ModifierKind)
  | builtin (gate : Builtin)
  | constant (name : MathConstant)
  | glyph (name : MathConstant)
  | symbol (s : Symbol)

def Spelling.text : Spelling → String
  | keyword word => word.text
  | typeName kind => kind.text
  | modifier kind => kind.text
  | builtin gate => gate.text
  | constant name => name.text
  | glyph name => String.ofList [name.glyph]
  | symbol s => s.text

def Spelling.token : Spelling → Token
  | keyword word => .keyword word
  | typeName kind => .typeName kind
  | modifier kind => .modifier kind
  | builtin gate => .builtin gate
  | constant name => .constant name
  | glyph name => .constant name
  | symbol s => .symbol s

/-- The forms of a token. -/
inductive Rule where
  | blank
  | lineComment
  | blockComment
  | spelled (s : Spelling)
  /-- A real with a point. -/
  | pointed
  /-- A real without a point, but with an exponent. -/
  | scaled
  | whole
  | doubleQuoted
  | singleQuoted
  | word
  /-- Any character that does not end a line. -/
  | stray

namespace Rule

open Pattern

/-- The texts that a rule accepts. A block comment is cut into stretches that end with stars;
only after the last one comes a slash. -/
def language : Rule → Language Char
  | blank => repeated (one (· ∈ [' ', '\t', '\r', '\n', '\x0c']))
  | lineComment => literal "//" * (one (· ≠ '\n'))∗
  | blockComment =>
      literal "/*" * (one (· ≠ '*'))∗ * repeated (one (· = '*')) *
        (one (· ∉ ['/', '*']) * (one (· ≠ '*'))∗ * repeated (one (· = '*')))∗ * literal "/"
  | spelled s => literal s.text
  | pointed => digits * literal "." * (one fun c => Digit c ∨ c = '.')∗ * optional exponent
  | scaled => digits * exponent
  | whole => digits
  | doubleQuoted => quoted '"'
  | singleQuoted => quoted '\''
  | word => one Letter * (one fun c => Letter c ∨ Digit c)∗
  | stray => one (· ≠ '\n')

/-- A quoted text without its quotes. -/
def unquoted : List Char → List Char
  | [] => []
  | quote :: body => if body.getLast? = some quote then body.dropLast else body

/-- The token that a text accepted by a rule stands for. -/
def token (r : Rule) (w : List Char) : Token :=
  match r with
  | blank => .blank
  | lineComment => .comment
  | blockComment => .comment
  | spelled s => s.token
  | pointed => .float (String.ofList w)
  | scaled => .float (String.ofList w)
  | whole => .int (String.ofList w)
  | doubleQuoted => .string (String.ofList (unquoted w))
  | singleQuoted => .string (String.ofList (unquoted w))
  | word => .ident (String.ofList w)
  | stray => .illegal (String.ofList w)

/-- Of the rules that accept the same text, those of the highest rank count: a word that is
spelled like some other token is that token, and a character that starts a token is not a
stray one. -/
def rank : Rule → Nat
  | stray => 0
  | word => 1
  | _ => 2

/-- A rule takes the front off a text: no rule accepts a longer front of it, and none of a
higher rank accepts this one. -/
structure Takes (r : Rule) (front rest : List Char) : Prop where
  accepts : front ∈ r.language
  longest : ∀ r' w, w ∈ language r' → w <+: front ++ rest → w.length ≤ front.length
  preferred : ∀ r', front ∈ language r' → r'.rank ≤ r.rank

end Rule

/-! Characters of one kind -/

namespace Pattern

theorem isBlank_iff (c : Char) : Token.isBlank c = true ↔ c ∈ [' ', '\t', '\r', '\n', '\x0c'] := by
  simp [Token.isBlank, or_assoc]

theorem isDigit_iff (c : Char) : c.isDigit = true ↔ Digit c := by
  simp [Char.isDigit, Digit, Char.le_def]

theorem isWordStart_iff (c : Char) : Token.isWordStart c = true ↔ Letter c := by
  have hupper : c.isUpper = true ↔ 'A' ≤ c ∧ c ≤ 'Z' := decide_eq_true_iff
  have hlower : c.isLower = true ↔ 'a' ≤ c ∧ c ≤ 'z' := by
    change (decide ('a' ≤ c) && decide (c ≤ 'z')) = true ↔ _
    rw [Bool.and_eq_true, decide_eq_true_iff, decide_eq_true_iff]
  have halpha : c.isAlpha = (c.isUpper || c.isLower) := rfl
  rw [Token.isWordStart, halpha, Bool.or_eq_true, Bool.or_eq_true, hupper, hlower,
    decide_eq_true_iff, Letter]
  tauto

theorem isWordPart_iff (c : Char) : Token.isWordPart c = true ↔ Letter c ∨ Digit c := by
  rw [← isWordStart_iff, ← isDigit_iff]
  simp only [Token.isWordPart, Token.isWordStart, Char.isAlphanum, Bool.or_eq_true,
    decide_eq_true_eq]
  tauto

theorem mem_one {p : Char → Prop} {w : List Char} : w ∈ one p ↔ ∃ c, p c ∧ w = [c] := Iff.rfl

theorem mem_optional {l : Language Char} {w : List Char} : w ∈ optional l ↔ w = [] ∨ w ∈ l := by
  rw [optional, Language.mem_add, Language.mem_one]

theorem mem_kstar_one {p : Char → Prop} {w : List Char} : w ∈ (one p)∗ ↔ ∀ c ∈ w, p c := by
  rw [Language.mem_kstar]
  constructor
  · rintro ⟨parts, rfl, hparts⟩ c hc
    obtain ⟨part, hpart, hc⟩ := List.mem_flatten.1 hc
    obtain ⟨d, hd, rfl⟩ := hparts part hpart
    rwa [List.mem_singleton.1 hc]
  · intro hw
    refine ⟨w.map ([·]), ?_, ?_⟩
    · rw [← List.flatMap_def, List.flatMap_singleton']
    · intro part hpart
      obtain ⟨c, hc, rfl⟩ := List.mem_map.1 hpart
      exact ⟨c, hw c hc, rfl⟩

/-- What starts with one kind of character and goes on with another. -/
theorem mem_one_mul_kstar {p q : Char → Prop} {w : List Char} :
    w ∈ one p * (one q)∗ ↔ ∃ c cs, w = c :: cs ∧ p c ∧ ∀ d ∈ cs, q d := by
  rw [Language.mem_mul]
  constructor
  · rintro ⟨_, ⟨c, hc, rfl⟩, cs, hcs, rfl⟩
    exact ⟨c, cs, rfl, hc, mem_kstar_one.1 hcs⟩
  · rintro ⟨c, cs, rfl, hc, hcs⟩
    exact ⟨[c], ⟨c, hc, rfl⟩, cs, mem_kstar_one.2 hcs, rfl⟩

theorem mem_repeated_one {p : Char → Prop} {w : List Char} :
    w ∈ repeated (one p) ↔ w ≠ [] ∧ ∀ c ∈ w, p c := by
  rw [repeated, mem_one_mul_kstar]
  constructor
  · rintro ⟨c, cs, rfl, hc, hcs⟩
    exact ⟨List.cons_ne_nil c cs, List.forall_mem_cons.2 ⟨hc, hcs⟩⟩
  · rintro ⟨hne, hall⟩
    obtain ⟨c, cs, rfl⟩ := List.exists_cons_of_ne_nil hne
    exact ⟨c, cs, rfl, List.forall_mem_cons.1 hall⟩

theorem mem_digits {w : List Char} : w ∈ digits ↔ w ≠ [] ∧ ∀ c ∈ w, c.isDigit = true := by
  simp only [digits, mem_repeated_one, isDigit_iff]

/-! Numbers -/

theorem mem_exponent {w : List Char} : w ∈ exponent ↔ w ≠ [] ∧ Token.IsExponent w := by
  have hsign {s : List Char} :
      s ∈ optional (one (· ∈ ['+', '-'])) ↔ s ∈ [[], ['+'], ['-']] := by
    simp [mem_optional, mem_one, or_and_right, exists_or]
  rw [exponent, Language.mem_mul]
  constructor
  · rintro ⟨_, hfront, ds, hds, rfl⟩
    obtain ⟨_, ⟨mark, hmark, rfl⟩, sign, hs, rfl⟩ := Language.mem_mul.1 hfront
    obtain ⟨hne, hds⟩ := mem_digits.1 hds
    refine ⟨by simp, .inr ⟨mark, sign, ds, by simpa using hmark, hsign.1 hs, hne, hds, rfl⟩⟩
  · rintro ⟨hne, rfl | ⟨mark, sign, ds, hmark, hs, hds, hall, rfl⟩⟩
    · exact absurd rfl hne
    · exact ⟨mark :: sign, ⟨[mark], ⟨mark, by simpa using hmark, rfl⟩, sign, hsign.2 hs, rfl⟩, ds,
        mem_digits.2 ⟨hds, hall⟩, rfl⟩

theorem mem_optional_exponent {w : List Char} : w ∈ optional exponent ↔ Token.IsExponent w := by
  rw [mem_optional, mem_exponent]
  constructor
  · rintro (rfl | ⟨-, h⟩)
    · exact .inl rfl
    · exact h
  · intro h
    by_cases hw : w = []
    · exact .inl hw
    · exact .inr ⟨hw, h⟩

end Pattern

namespace Rule

open Pattern

theorem mem_blank {w : List Char} :
    w ∈ blank.language ↔ w ≠ [] ∧ ∀ c ∈ w, Token.isBlank c = true := by
  simp only [language, mem_repeated_one, isBlank_iff]

theorem mem_spelled {s : Spelling} {w : List Char} :
    w ∈ (spelled s).language ↔ w = s.text.toList := Iff.rfl

theorem mem_word {w : List Char} :
    w ∈ word.language ↔ ∃ c cs, w = c :: cs ∧ Token.isWordStart c = true ∧
      ∀ d ∈ cs, Token.isWordPart d = true := by
  simp only [language, mem_one_mul_kstar, isWordStart_iff, isWordPart_iff]

theorem mem_stray {w : List Char} : w ∈ stray.language ↔ ∃ c, c ≠ '\n' ∧ w = [c] := Iff.rfl

theorem mem_lineComment {w : List Char} :
    w ∈ lineComment.language ↔ ∃ cs, w = '/' :: '/' :: cs ∧ ∀ c ∈ cs, c ≠ '\n' := by
  rw [language, Language.mem_mul]
  constructor
  · rintro ⟨_, rfl, cs, hcs, rfl⟩
    exact ⟨cs, rfl, mem_kstar_one.1 hcs⟩
  · rintro ⟨cs, rfl, hcs⟩
    exact ⟨"//".toList, rfl, cs, mem_kstar_one.2 hcs, rfl⟩

theorem mem_quoted {quote : Char} {w : List Char} :
    w ∈ quoted quote ↔
      ∃ body, quote ∉ body ∧ (w = quote :: body ∨ w = quote :: (body ++ [quote])) := by
  have hfree {body : List Char} : (∀ c ∈ body, c ≠ quote) ↔ quote ∉ body :=
    ⟨fun h hmem => h quote hmem rfl, fun h c hc heq => h (heq ▸ hc)⟩
  rw [quoted, Language.mem_mul]
  constructor
  · rintro ⟨_, hfront, last, hlast, rfl⟩
    obtain ⟨_, body, rfl, rfl, hbody⟩ := mem_one_mul_kstar.1 hfront
    refine ⟨body, hfree.1 hbody, ?_⟩
    rcases mem_optional.1 hlast with rfl | ⟨_, rfl, rfl⟩
    · exact .inl (List.append_nil _)
    · exact .inr rfl
  · rintro ⟨body, hbody, hw⟩
    refine ⟨quote :: body, mem_one_mul_kstar.2 ⟨quote, body, rfl, rfl, hfree.2 hbody⟩, ?_⟩
    rcases hw with rfl | rfl
    · exact ⟨[], mem_optional.2 (.inl rfl), List.append_nil _⟩
    · exact ⟨[quote], mem_optional.2 (.inr ⟨quote, rfl, rfl⟩), rfl⟩

theorem mem_pointed {w : List Char} :
    w ∈ pointed.language ↔ ∃ ds fraction e, ds ∈ digits ∧
      (∀ c ∈ fraction, (c.isDigit || c = '.') = true) ∧ Token.IsExponent e ∧
      w = ds ++ '.' :: (fraction ++ e) := by
  have hpart {c : Char} : (Digit c ∨ c = '.') ↔ (c.isDigit || c = '.') = true := by
    rw [← isDigit_iff, Bool.or_eq_true, decide_eq_true_eq]
  rw [language, Language.mem_mul]
  constructor
  · rintro ⟨_, hfront, e, he, rfl⟩
    obtain ⟨_, hpoint, fraction, hfraction, rfl⟩ := Language.mem_mul.1 hfront
    obtain ⟨ds, hds, _, rfl, rfl⟩ := Language.mem_mul.1 hpoint
    refine ⟨ds, fraction, e, hds, fun c hc => hpart.1 (mem_kstar_one.1 hfraction c hc),
      mem_optional_exponent.1 he, ?_⟩
    simp
  · rintro ⟨ds, fraction, e, hds, hfraction, he, rfl⟩
    refine ⟨ds ++ ['.'] ++ fraction, ⟨ds ++ ['.'], ⟨ds, hds, ['.'], rfl, rfl⟩, fraction, ?_, rfl⟩,
      e, mem_optional_exponent.2 he, by simp⟩
    exact mem_kstar_one.2 fun c hc => hpart.2 (hfraction c hc)

theorem mem_scaled {w : List Char} :
    w ∈ scaled.language ↔ ∃ ds e, ds ∈ digits ∧ e ≠ [] ∧ Token.IsExponent e ∧ w = ds ++ e := by
  rw [language, Language.mem_mul]
  constructor
  · rintro ⟨ds, hds, e, he, rfl⟩
    obtain ⟨hne, he⟩ := mem_exponent.1 he
    exact ⟨ds, e, hds, hne, he, rfl⟩
  · rintro ⟨ds, e, hds, hne, he, rfl⟩
    exact ⟨ds, hds, e, mem_exponent.2 ⟨hne, he⟩, rfl⟩

/-- A real is a digit and the rest of a real. -/
theorem mem_real {c : Char} {cs : List Char} :
    c :: cs ∈ pointed.language ∨ c :: cs ∈ scaled.language ↔
      c.isDigit = true ∧ Token.IsNumberTail true cs := by
  have hcons {d : Char} {ds : List Char} :
      d :: ds ∈ digits ↔ d.isDigit = true ∧ ∀ c ∈ ds, c.isDigit = true := by
    rw [mem_digits, List.forall_mem_cons]
    exact and_iff_right (List.cons_ne_nil d ds)
  constructor
  · rintro (h | h)
    · obtain ⟨ds, fraction, e, hds, hfraction, he, heq⟩ := mem_pointed.1 h
      obtain ⟨d, ds, rfl⟩ := List.exists_cons_of_ne_nil (mem_digits.1 hds).1
      cases heq
      obtain ⟨hd, hds⟩ := hcons.1 hds
      exact ⟨hd, ds, e, hds, he, .inl ⟨rfl, fraction, hfraction, rfl⟩⟩
    · obtain ⟨ds, e, hds, hne, he, heq⟩ := mem_scaled.1 h
      obtain ⟨d, ds, rfl⟩ := List.exists_cons_of_ne_nil (mem_digits.1 hds).1
      cases heq
      obtain ⟨hd, hds⟩ := hcons.1 hds
      exact ⟨hd, ds, e, hds, he, .inr ⟨(decide_eq_true hne).symm, rfl⟩⟩
  · rintro ⟨hc, ds, e, hds, he, ⟨-, fraction, hfraction, rfl⟩ | ⟨hne, rfl⟩⟩
    · exact .inl (mem_pointed.2 ⟨c :: ds, fraction, e, hcons.2 ⟨hc, hds⟩, hfraction, he, rfl⟩)
    · exact .inr (mem_scaled.2
        ⟨c :: ds, e, hcons.2 ⟨hc, hds⟩, of_decide_eq_true hne.symm, he, rfl⟩)

/-- An integer is a digit and the rest of one. -/
theorem mem_whole {c : Char} {cs : List Char} :
    c :: cs ∈ whole.language ↔ c.isDigit = true ∧ Token.IsNumberTail false cs := by
  rw [language, mem_digits, List.forall_mem_cons]
  constructor
  · rintro ⟨-, hc, hcs⟩
    exact ⟨hc, cs, [], hcs, .inl rfl, .inr ⟨rfl, (List.append_nil cs).symm⟩⟩
  · rintro ⟨hc, ds, e, hds, -, ⟨hreal, -⟩ | ⟨hnil, rfl⟩⟩
    · cases hreal
    · obtain rfl : e = [] := by simpa using hnil
      exact ⟨List.cons_ne_nil c _, hc, by simpa using hds⟩

/-! Block comments -/

/-- Characters other than stars, and stars. -/
def Stretch (w : List Char) : Prop :=
  ∃ a stars, (∀ c ∈ a, c ≠ '*') ∧ stars ≠ [] ∧ (∀ c ∈ stars, c = '*') ∧ w = a ++ stars

theorem mem_stretch {w : List Char} :
    w ∈ (one (· ≠ '*'))∗ * repeated (one (· = '*')) ↔ Stretch w := by
  rw [Language.mem_mul]
  constructor
  · rintro ⟨a, ha, stars, hstars, rfl⟩
    obtain ⟨hne, hstars⟩ := mem_repeated_one.1 hstars
    exact ⟨a, stars, mem_kstar_one.1 ha, hne, hstars, rfl⟩
  · rintro ⟨a, stars, ha, hne, hstars, rfl⟩
    exact ⟨a, mem_kstar_one.2 ha, stars, mem_repeated_one.2 ⟨hne, hstars⟩, rfl⟩

/-- A stretch after another one of the same comment. -/
def Group (w : List Char) : Prop := ∃ c cs, c ∉ ['/', '*'] ∧ Stretch cs ∧ w = c :: cs

/-- What a block comment holds after its opening: stretches and a slash. -/
def CommentBody (w : List Char) : Prop :=
  ∃ (front : List Char) (groups : List (List Char)),
    Stretch front ∧ (∀ g ∈ groups, Group g) ∧ w = front ++ (groups.flatten ++ ['/'])

theorem mem_group {w : List Char} :
    w ∈ one (· ∉ ['/', '*']) * (one (· ≠ '*'))∗ * repeated (one (· = '*')) ↔ Group w := by
  rw [mul_assoc, Language.mem_mul]
  constructor
  · rintro ⟨_, ⟨c, hc, rfl⟩, cs, hcs, rfl⟩
    exact ⟨c, cs, hc, mem_stretch.1 hcs, rfl⟩
  · rintro ⟨c, cs, hc, hcs, rfl⟩
    exact ⟨[c], ⟨c, hc, rfl⟩, cs, mem_stretch.2 hcs, rfl⟩

theorem mem_blockComment_iff {w : List Char} :
    w ∈ blockComment.language ↔ ∃ cs, w = '/' :: '*' :: cs ∧ CommentBody cs := by
  rw [language, mul_assoc, mul_assoc, mul_assoc, ← mul_assoc (one _)∗, Language.mem_mul]
  constructor
  · rintro ⟨_, rfl, _, ⟨front, hfront, _, ⟨_, hgroups, _, rfl, rfl⟩, rfl⟩, rfl⟩
    obtain ⟨groups, rfl, hall⟩ := Language.mem_kstar.1 hgroups
    exact ⟨_, rfl, front, groups, mem_stretch.1 hfront, fun g hg => mem_group.1 (hall g hg), rfl⟩
  · rintro ⟨_, rfl, front, groups, hfront, hgroups, rfl⟩
    exact ⟨"/*".toList, rfl, _, ⟨front, mem_stretch.2 hfront, _, ⟨groups.flatten,
      Language.join_mem_kstar fun g hg => mem_group.2 (hgroups g hg), ['/'], rfl, rfl⟩, rfl⟩, rfl⟩

/-- A character before a comment's end only moves it. -/
theorem commentEnd?_cons {c : Char} {cs : List Char} (h : c = '*' → cs.head? ≠ some '/') :
    Token.commentEnd? (c :: cs) = (Token.commentEnd? cs).map (· + 1) := by
  rw [Token.commentEnd?]
  rintro tail rfl rfl
  exact h rfl rfl

theorem commentEnd?_append_plain {a : List Char} (ha : ∀ c ∈ a, c ≠ '*') (cs : List Char) :
    Token.commentEnd? (a ++ cs) = (Token.commentEnd? cs).map (· + a.length) := by
  induction a with
  | nil => simp
  | cons c a ih =>
      obtain ⟨hc, ha⟩ := List.forall_mem_cons.1 ha
      rw [List.cons_append, commentEnd?_cons fun h => absurd h hc, ih ha, Option.map_map]
      rfl

/-- Stars are no end of a comment, unless a slash follows. -/
theorem commentEnd?_append_stars {stars : List Char} (hstars : ∀ c ∈ stars, c = '*')
    {cs : List Char} (hcs : cs.head? ≠ some '/') :
    Token.commentEnd? (stars ++ cs) = (Token.commentEnd? cs).map (· + stars.length) := by
  induction stars with
  | nil => simp
  | cons c stars ih =>
      obtain ⟨rfl, hrest⟩ := List.forall_mem_cons.1 hstars
      rw [List.cons_append, commentEnd?_cons, ih hrest, Option.map_map]
      · rfl
      · intro _
        cases stars with
        | nil => exact hcs
        | cons d stars =>
            rw [(List.forall_mem_cons.1 hrest).1]
            simp

theorem commentEnd?_stars_slash {stars : List Char} (hne : stars ≠ [])
    (hstars : ∀ c ∈ stars, c = '*') :
    Token.commentEnd? (stars ++ ['/']) = some (stars.length + 1) := by
  have hinit : ∀ c ∈ stars.dropLast, c = '*' := fun c hc => hstars c (List.mem_of_mem_dropLast hc)
  have hlast : stars.getLast hne = '*' := hstars _ (List.getLast_mem hne)
  have hlength : stars.dropLast.length + 1 = stars.length := by
    have := List.length_pos_of_ne_nil hne
    rw [List.length_dropLast]
    omega
  rw [← List.dropLast_concat_getLast hne, hlast, List.append_assoc,
    commentEnd?_append_stars hinit (by simp)]
  simp [Token.commentEnd?]
  omega

/-- The end of a block comment comes first at its end. -/
theorem commentEnd?_of_body {cs : List Char} (h : CommentBody cs) :
    Token.commentEnd? cs = some cs.length := by
  obtain ⟨_, groups, ⟨a, stars, ha, hne, hstars, rfl⟩, hgroups, rfl⟩ := h
  induction groups generalizing a stars with
  | nil =>
      rw [List.append_assoc, commentEnd?_append_plain ha, List.flatten_nil, List.nil_append,
        commentEnd?_stars_slash hne hstars]
      simp
      omega
  | cons g groups ih =>
      obtain ⟨⟨c, _, hc, ⟨b, stars', hb, hne', hstars', rfl⟩, rfl⟩, hrest⟩ :=
        List.forall_mem_cons.1 hgroups
      simp only [List.mem_cons, List.not_mem_nil, or_false, not_or] at hc
      have hnext := ih (c :: b) stars' (List.forall_mem_cons.2 ⟨hc.2, hb⟩) hne' hstars' hrest
      have heq : ((c :: (b ++ stars')) :: groups).flatten ++ ['/'] =
          c :: b ++ stars' ++ (groups.flatten ++ ['/']) := by simp
      rw [List.append_assoc, commentEnd?_append_plain ha, heq, commentEnd?_append_stars hstars, hnext]
      · simp
        omega
      · simp [hc.1]

/-- A text in which the end of a block comment comes first at its end is one. -/
theorem body_of_commentEnd? {cs : List Char} (h : Token.commentEnd? cs = some cs.length) :
    CommentBody cs := by
  induction cs using Token.commentEnd?.induct with
  | case1 => cases h
  | case2 tail =>
      obtain rfl : tail = [] := by simpa [Token.commentEnd?] using h
      exact ⟨['*'], [], ⟨[], ['*'], by simp, by simp, by simp, rfl⟩, by simp, rfl⟩
  | case3 c cs hopen ih =>
      rw [Token.commentEnd?.eq_3 c cs hopen] at h
      obtain ⟨n, hn, hlength⟩ := Option.map_eq_some_iff.1 h
      obtain rfl : n = cs.length := Nat.succ_inj.1 hlength
      obtain ⟨_, groups, ⟨a, stars, ha, hne, hstars, rfl⟩, hgroups, rfl⟩ := ih hn
      by_cases hc : c = '*'
      · subst hc
        cases a with
        | nil =>
            exact ⟨'*' :: stars, groups, ⟨[], '*' :: stars, by simp, by simp,
              List.forall_mem_cons.2 ⟨rfl, hstars⟩, rfl⟩, hgroups, rfl⟩
        | cons d a =>
            obtain ⟨hd, ha⟩ := List.forall_mem_cons.1 ha
            have hslash : d ≠ '/' := by
              rintro rfl
              exact hopen _ rfl rfl
            have hgroup : Group (d :: (a ++ stars)) :=
              ⟨d, a ++ stars, by simp [hslash, hd], ⟨a, stars, ha, hne, hstars, rfl⟩, rfl⟩
            exact ⟨['*'], (d :: (a ++ stars)) :: groups, ⟨[], ['*'], by simp, by simp, by simp, rfl⟩,
              List.forall_mem_cons.2 ⟨hgroup, hgroups⟩, by simp⟩
      · exact ⟨c :: a ++ stars, groups, ⟨c :: a, stars, List.forall_mem_cons.2 ⟨hc, ha⟩, hne, hstars,
          rfl⟩, hgroups, rfl⟩

/-- A block comment goes up to the first end after its opening. -/
theorem mem_blockComment {w : List Char} :
    w ∈ blockComment.language ↔
      ∃ cs, w = '/' :: '*' :: cs ∧ Token.commentEnd? cs = some cs.length := by
  rw [mem_blockComment_iff]
  constructor
  · rintro ⟨cs, rfl, hcs⟩
    exact ⟨cs, rfl, commentEnd?_of_body hcs⟩
  · rintro ⟨cs, rfl, hend⟩
    exact ⟨cs, rfl, body_of_commentEnd? hend⟩

end Rule

end OpenQasm
