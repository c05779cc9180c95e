import OpenQasm.Proofs.Lexing.SelfReading
import OpenQasm.Syntax.Layout

/-!
# Cutting a laid out text

The text of a list of pieces is cut into the tokens of these pieces, provided
that whatever follows opens. The statement is about all texts that may follow, so
it carries over to lists of pieces put together. Where a word or a number stands,
the piece after it has to open; after a symbol or a gap any piece may stand.
-/
namespace OpenQasm

/-- The tokens of a text that carry meaning. -/
def tokensOf (cs : List Char) : List Token :=
  ((lexFrom 0 1 cs).map Lexeme.token).filter (!·.isTrivia)

theorem tokens_lexFrom (start line : Nat) (cs : List Char) :
    ((lexFrom start line cs).map Lexeme.token).filter (!·.isTrivia) = tokensOf cs := by
  suffices h : ∀ start' line', (lexFrom start line cs).map Lexeme.token =
      (lexFrom start' line' cs).map Lexeme.token by
    rw [tokensOf, h 0 1]
  induction start, line, cs using lexFrom.induct with
  | case1 start line =>
      intro start' line'
      rw [lexFrom, lexFrom]
  | case2 start line c cs token n hscan chars ih =>
      intro start' line'
      rw [lexFrom_cons, lexFrom_cons, hscan]
      simp only [List.map_cons]
      rw [ih]

theorem significant_tokens (source : String) :
    (significant source).map Lexeme.token = tokensOf source.toList := by
  rw [significant, lexemes, tokensOf, List.filter_map]
  rfl

theorem tokensOf_nil : tokensOf [] = [] := by
  rw [tokensOf, lexFrom]
  rfl

theorem tokensOf_cons (c : Char) (cs : List Char) :
    tokensOf (c :: cs) =
      (if (Token.scan c cs).1.isTrivia then [] else [(Token.scan c cs).1]) ++
        tokensOf (cs.drop (Token.scan c cs).2) := by
  rw [tokensOf, lexFrom_cons, List.map_cons, List.filter_cons, tokens_lexFrom]
  cases (Token.scan c cs).1.isTrivia <;> rfl

/-- A blank before a text does not change its tokens. -/
theorem tokensOf_blank {c : Char} (hc : Token.isBlank c = true) (cs : List Char) :
    tokensOf (c :: cs) = tokensOf cs := by
  have hscan (d : Char) (hd : Token.isBlank d = true) (ds : List Char) :
      Token.scan d ds = (.blank, Token.run Token.isBlank ds) := by
    simp [Token.scan, hd]
  rw [tokensOf_cons, hscan c hc]
  cases cs with
  | nil => rfl
  | cons d ds =>
      by_cases hd : Token.isBlank d = true
      · rw [tokensOf_cons d, hscan d hd]
        simp [Token.run, hd, Token.isTrivia]
      · simp [Token.run, hd, Token.isTrivia]

theorem tokensOf_scan {t : Token} (ht : t.isTrivia = false) {c : Char} {cs rest : List Char}
    (h : Token.scan c (cs ++ rest) = (t, cs.length)) :
    tokensOf (c :: cs ++ rest) = t :: tokensOf rest := by
  rw [List.cons_append, tokensOf_cons, h]
  simp [ht]

namespace Piece

def chars (ps : List Piece) : List Char := ps.flatMap fun p => p.text.toList

def tokens (ps : List Piece) : List Token :=
  ps.flatMap fun
    | word t => [t]
    | quoted text => [.string text]
    | gap => []

theorem toList_join (ps : List Piece) : (join ps).toList = chars ps := by
  rw [join, String.toList_join, List.flatMap_map, chars]

@[simp] theorem chars_nil : chars [] = [] := rfl
@[simp] theorem chars_cons (p : Piece) (ps : List Piece) :
    chars (p :: ps) = p.text.toList ++ chars ps := rfl
@[simp] theorem chars_append (ps qs : List Piece) : chars (ps ++ qs) = chars ps ++ chars qs :=
  List.flatMap_append

@[simp] theorem tokens_nil : tokens [] = [] := rfl
@[simp] theorem tokens_word (t : Token) (ps : List Piece) :
    tokens (word t :: ps) = t :: tokens ps := rfl
@[simp] theorem tokens_quoted (text : String) (ps : List Piece) :
    tokens (quoted text :: ps) = .string text :: tokens ps := rfl
@[simp] theorem tokens_gap (ps : List Piece) : tokens (gap :: ps) = tokens ps := rfl
@[simp] theorem tokens_append (ps qs : List Piece) : tokens (ps ++ qs) = tokens ps ++ tokens qs :=
  List.flatMap_append

/-- Pieces whose text is cut into their tokens, whatever opens after them. -/
structure Lexes (ps : List Piece) : Prop where
  tame : ∀ rest, Opens rest → Tame (chars ps ++ rest)
  cut : ∀ rest, Opens rest → tokensOf (chars ps ++ rest) = tokens ps ++ tokensOf rest

/-- Pieces that may stand right after a word or a number. -/
def Opening (ps : List Piece) : Prop := ∀ rest, Opens rest → Opens (chars ps ++ rest)

theorem Lexes.nil : Lexes [] where
  tame _ hrest := hrest.tame
  cut _ _ := rfl

theorem Lexes.append {ps qs : List Piece} (hp : Lexes ps) (hq : Lexes qs) (ho : Opening qs) :
    Lexes (ps ++ qs) where
  tame rest hrest := by
    rw [chars_append, List.append_assoc]
    exact hp.tame _ (ho rest hrest)
  cut rest hrest := by
    rw [chars_append, List.append_assoc, hp.cut _ (ho rest hrest), hq.cut rest hrest, tokens_append,
      List.append_assoc]

theorem lexes_word {t : Token} (ht : t.SelfReading) (htrivia : t.isTrivia = false) :
    Lexes [word t] := by
  obtain ⟨c, cs, hlist, hc, hscan⟩ := ht
  constructor
  · intro rest _ hhead
    simp only [chars_cons, chars_nil, List.append_nil, text, hlist, List.cons_append,
      List.head?_cons, Option.some.injEq] at hhead
    exact hc hhead
  · intro rest hrest
    simp only [chars_cons, chars_nil, List.append_nil, text, hlist]
    exact tokensOf_scan htrivia (hscan rest hrest)

/-- A word or a number needs an opening piece after it. -/
theorem Lexes.word {t : Token} (ht : t.SelfReading) (htrivia : t.isTrivia = false)
    {ps : List Piece} (hp : Lexes ps) (ho : Opening ps) : Lexes (.word t :: ps) :=
  (lexes_word ht htrivia).append hp ho

/-- A piece after which anything may stand, short of making an arrow. -/
structure Closed (p : Piece) : Prop where
  head : ∀ rest, Tame (p.text.toList ++ rest)
  cut : ∀ rest, Tame rest → tokensOf (p.text.toList ++ rest) = tokens [p] ++ tokensOf rest

theorem Lexes.closed {p : Piece} (hp : p.Closed) {ps : List Piece} (hps : Lexes ps) :
    Lexes (p :: ps) where
  tame rest _ := by
    rw [chars_cons, List.append_assoc]
    exact hp.head _
  cut rest hrest := by
    rw [chars_cons, List.append_assoc, hp.cut _ (hps.tame rest hrest), hps.cut rest hrest,
      ← List.append_assoc, ← tokens_append, List.singleton_append]

theorem closed_gap : Closed gap where
  head rest := by
    change some ' ' ≠ some '>'
    decide
  cut rest _ := tokensOf_blank (by decide) rest

theorem closed_word {t : Token} (ht : t.Closed) (htrivia : t.isTrivia = false) :
    Closed (.word t) := by
  obtain ⟨c, cs, hlist, hc, hscan⟩ := ht
  constructor
  · intro rest hhead
    simp only [text, hlist, List.cons_append, List.head?_cons, Option.some.injEq] at hhead
    exact hc hhead
  · intro rest hrest
    simp only [text, hlist]
    exact tokensOf_scan htrivia (hscan rest hrest)

theorem closed_sym {s : Symbol} (h : s ≠ .slash) : Closed (Layout.sym s) :=
  closed_word (Token.closed_symbol h) rfl

theorem scan_quoted {quote : Char} (hquote : quote = '"' ∨ quote = '\'') {body : List Char}
    (hbody : quote ∉ body) (rest : List Char) :
    Token.scan quote (body ++ quote :: rest) = (.string (String.ofList body), body.length + 1) := by
  have hrun : (body ++ quote :: rest).takeWhile (· ≠ quote) = body := by
    rw [List.takeWhile_append_of_pos]
    · simp
    · intro c hc
      have : c ≠ quote := fun h => hbody (h ▸ hc)
      simpa using this
  have hstring : Token.scan quote (body ++ quote :: rest) =
      Token.scanString quote (body ++ quote :: rest) := by
    rcases hquote with rfl | rfl <;> rfl
  rw [hstring, Token.scanString, hrun]
  simp

theorem closed_quoted {s : String} (hs : (Token.string s).Genuine) : Closed (quoted s) := by
  obtain ⟨quote, hquote, hfree, htext⟩ : ∃ quote, (quote = '"' ∨ quote = '\'') ∧ quote ∉ s.toList ∧
      (quoted s).text.toList = quote :: s.toList ++ [quote] := by
    by_cases hdouble : '"' ∈ s.toList
    · refine ⟨'\'', .inr rfl, ?_, ?_⟩
      · rcases hs with h | h
        · exact absurd hdouble h
        · exact h
      · simp [text, hdouble]
    · exact ⟨'"', .inl rfl, hdouble, by simp [text, hdouble]⟩
  constructor
  · intro rest hhead
    rw [htext] at hhead
    simp only [List.cons_append, List.head?_cons, Option.some.injEq] at hhead
    rcases hquote with rfl | rfl <;> exact absurd hhead (by decide)
  · intro rest _
    have hscan := scan_quoted hquote hfree rest
    rw [String.ofList_toList] at hscan
    rw [htext, List.append_assoc, List.singleton_append, List.cons_append, tokensOf_cons, hscan]
    simp [Token.isTrivia, tokens]

/-! Openings -/

theorem Opening.nil : Opening [] := fun _ hrest => hrest

theorem Opening.gap (ps : List Piece) : Opening (.gap :: ps) := by
  intro rest _
  exact opens_cons (by decide) _

/-- The symbols that may stand right after a word or a number. -/
theorem Opening.sym {s : Symbol} (h : s ≠ .slash ∧ s ≠ .star) (ps : List Piece) :
    Opening (Layout.sym s :: ps) := by
  intro rest _
  cases s with
  | slash => exact absurd rfl h.1
  | star => exact absurd rfl h.2
  | _ => exact opens_cons (by decide) _

end Piece

end OpenQasm
