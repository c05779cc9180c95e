import OpenQasm.Proofs.Lexing.Lines
import OpenQasm.Proofs.Lexing.Trees

/-!
# Tokens written with spaces between them

The text of a token is cut off as that token again if a space follows: no longer rule goes on
over the space, neither an exponent after a number nor a comment after a slash or an arrow after a
minus sign. So a list of tokens is written with single spaces between the texts and read back. A
string is written in double quotes and therefore must not hold one.
-/
namespace OpenQasm

open Piece

namespace Token

theorem selfReading_string {s : String} (h : '"' ∉ s.toList) : (string s).SelfReading := by
  refine ⟨'"', s.toList ++ ['"'], by simp [text], by decide, fun rest _ => ?_⟩
  rw [List.append_assoc, List.singleton_append, scan_quoted (.inl rfl) h, String.ofList_toList]
  simp

/-- Whatever the scanner has cut off is read back from its own text, blanks, comments and illegal
characters apart. -/
theorem Genuine.selfReading {t : Token} (h : t.Genuine) (htrivia : t.isTrivia = false)
    (hlegal : t.isIllegal = false) (hquote : ∀ s, t = string s → '"' ∉ s.toList) :
    t.SelfReading := by
  cases t with
  | blank => cases htrivia
  | comment => cases htrivia
  | keyword word => exact selfReading_reserved (reserved_keyword word)
  | typeName kind => exact selfReading_reserved (reserved_typeName kind)
  | modifier kind => exact selfReading_reserved (reserved_modifier kind)
  | builtin gate => exact selfReading_reserved (reserved_builtin gate)
  | constant name => exact selfReading_reserved (reserved_constant name)
  | float text => exact selfReading_number h
  | int text => exact selfReading_number h
  | string text => exact selfReading_string (hquote text rfl)
  | ident name => exact selfReading_genuine h (.inl ⟨name, rfl⟩)
  | symbol s => exact selfReading_symbol s
  | illegal text => cases hlegal

def spaced (ts : List Token) : List Piece := (ts.map .word).intersperse .gap

theorem join_spaced (ts : List Token) : join (spaced ts) = " ".intercalate (ts.map text) := by
  induction ts with
  | nil => rfl
  | cons t ts ih =>
      cases ts with
      | nil => simp [spaced, join, Piece.text]
      | cons t' ts =>
          have hjoin : join (spaced (t :: t' :: ts)) = t.text ++ (" " ++ join (spaced (t' :: ts))) := by
            simp only [join, spaced, List.map_cons, List.intersperse_cons_cons, String.join_cons]
            rfl
          rw [hjoin, ih]
          simp only [List.map_cons, String.intercalate_cons_cons, String.append_assoc]

theorem tokens_spaced (ts : List Token) : tokens (spaced ts) = ts := by
  induction ts with
  | nil => rfl
  | cons t ts ih =>
      cases ts with
      | nil => rfl
      | cons t' ts => exact congrArg (t :: ·) ih

theorem lexes_spaced {ts : List Token} (h : ∀ t ∈ ts, t.SelfReading ∧ t.isTrivia = false) :
    Lexes (spaced ts) := by
  induction ts with
  | nil => exact .nil
  | cons t ts ih =>
      obtain ⟨⟨hself, htrivia⟩, hts⟩ := List.forall_mem_cons.1 h
      cases ts with
      | nil => exact lexes_word hself htrivia
      | cons t' ts => exact .word hself htrivia (lexes_gap (ih hts)) (.gap _)

theorem tokensOf_intercalate {ts : List Token} (h : ∀ t ∈ ts, t.SelfReading ∧ t.isTrivia = false) :
    tokensOf (" ".intercalate (ts.map text)).toList = ts := by
  have hcut := (lexes_spaced h).cut [] nofun
  rwa [List.append_nil, tokens_spaced, tokensOf_nil, List.append_nil, ← toList_join,
    join_spaced] at hcut

end Token

/-- The tokens of a source, written with single spaces between their texts, are read back as the
same tokens and without a complaint, if none of them is illegal and no string holds a double
quote. -/
theorem spaced_tokens_read_back {source : String} {tokens : List Token}
    (hsource : (significant source).map Lexeme.token = tokens)
    (hlegal : ∀ t ∈ tokens, t.isIllegal = false)
    (hquote : ∀ s, .string s ∈ tokens → '"' ∉ s.toList) :
    (significant (" ".intercalate (tokens.map Token.text))).map Lexeme.token = tokens ∧
      lexErrors (" ".intercalate (tokens.map Token.text)) = [] := by
  have hself : ∀ t ∈ tokens, t.SelfReading ∧ t.isTrivia = false := by
    intro t ht
    rw [← hsource] at ht
    obtain ⟨l, hl, rfl⟩ := List.mem_map.1 ht
    have hmem : l.token ∈ tokens := hsource ▸ ht
    have htrivia : l.token.isTrivia = false := by simpa using (List.mem_filter.1 hl).2
    have hgenuine : l.token.Genuine := genuine_significant source l hl
    refine ⟨hgenuine.selfReading htrivia (hlegal _ hmem) fun s hs => ?_, htrivia⟩
    exact hquote s (hs ▸ hmem)
  have htokens := Token.tokensOf_intercalate hself
  refine ⟨(significant_tokens _).trans htokens, lexErrors_eq_nil fun t ht => ?_⟩
  exact hlegal t (htokens ▸ ht)

/-- Tokens that stand close together, in spellings of which some are not those they are written
in again. -/
def closeSource : String := "x-1.e+5/2*π->c[3.4.5e7];'a\n'\"it's\"/**/@IQFT//"

theorem spaced_tokens_read_back_close :
    let tokens : List Token := [.ident "x", .symbol .minus, .float "1.e+5", .symbol .slash, .int "2",
      .symbol .star, .constant .pi, .symbol .arrow, .ident "c", .symbol .lbracket,
      .float "3.4.5e7", .symbol .rbracket, .symbol .semicolon, .string "a\n", .string "it's",
      .symbol .atSign, .builtin .iqft]
    (significant closeSource).map Lexeme.token = tokens ∧
      " ".intercalate (tokens.map Token.text) =
        "x - 1.e+5 / 2 * pi -> c [ 3.4.5e7 ] ; \"a\n\" \"it's\" @ IQFT" ∧
      (significant (" ".intercalate (tokens.map Token.text))).map Lexeme.token = tokens ∧
      lexErrors (" ".intercalate (tokens.map Token.text)) = [] := by
  intro tokens
  have hsource : (significant closeSource).map Lexeme.token = tokens := by decide +kernel
  have hlegal : ∀ t ∈ tokens, t.isIllegal = false := by decide +kernel
  have hquote : ∀ s, .string s ∈ tokens → '"' ∉ s.toList := by
    intro s hs
    have hcases : s = "a\n" ∨ s = "it's" := by simpa [tokens] using hs
    rcases hcases with rfl | rfl <;> decide +kernel
  exact ⟨hsource, by decide +kernel, spaced_tokens_read_back hsource hlegal hquote⟩

/-- A string that holds a double quote is cut at it. -/
example : (significant (Token.string "\"").text).map Lexeme.token = [.string "", .string ""] := by
  decide +kernel

end OpenQasm
