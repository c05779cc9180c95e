import OpenQasm.Proofs.Parsing.Keeping.Stmt
import OpenQasm.Proofs.RoundTrip
import OpenQasm.Proofs.Sessions.Chunks

/-!
# Nothing is lost in parsing

If a source is read without an error, the tokens of the canonical text are the tokens of the
source, in the same order, but for empty parameter lists. The outline of the program says
where these may be missing from the source and where they are missing from the text.
-/
namespace OpenQasm

open OpenQasm.Parser

/-- A source that is read without an error has no illegal characters. -/
theorem lexErrors_of_parse {source : String} {p : Program} (h : Program.parse source = .ok p) :
    lexErrors source = [] := by
  obtain ⟨us, htokens, hus⟩ := exists_sentences h
  refine lexErrors_eq_nil fun t ht => ?_
  rw [htokens] at ht
  obtain ⟨u, hu, htu⟩ := List.mem_flatten.1 ht
  exact (span_of_mem hus.each u hu).isIllegal t htu

/-- The tokens of a source that is read without an error fit the outline of the program. -/
theorem fits_of_parse {source : String} {p : Program} (h : Program.parse source = .ok p) :
    Fits p.outline ((significant source).map Lexeme.token) := by
  obtain ⟨rfl, herrors⟩ := Prod.mk.inj (recover_of_parse h)
  have hgenuine : Genuine (significant source) := genuine_significant source
  obtain ⟨us, hus⟩ := exists_written (significant source) false true herrors
  obtain ⟨used, hfits, hsource⟩ := keeps_statements false true _ hgenuine herrors
  rw [hus.stops rfl, List.append_nil] at hsource
  have htokens := congrArg (List.map Lexeme.token) hsource
  rw [htokens]
  exact hfits

/-- A program that is read without an error drops nothing: the source has no illegal
characters, and its tokens and those of the canonical text fill the same outline. So they
differ in empty parameter lists only: behind the name of a gate declaration, a built-in gate
or a call with registers the text has none, and behind a call statement without parameters
and registers it has one. -/
theorem Program.parse_keeps_tokens {source : String} {p : Program}
    (h : Program.parse source = .ok p) :
    lexErrors source = [] ∧ Fits p.outline ((significant source).map Lexeme.token) ∧
      (significant p.text).map Lexeme.token = Slot.canonical p.outline := by
  have hcanonical : p.Canonical := by
    obtain ⟨rfl, -⟩ := Prod.mk.inj (recover_of_parse h)
    exact Program.canonical_recover source
  refine ⟨lexErrors_of_parse h, fits_of_parse h, ?_⟩
  rw [significant_tokens, Program.tokensOf_text hcanonical.statements,
    Program.canonical_outline hcanonical.statements]

/-- Empty parameter lists that stand in the source and are missing from the text, and one that
is missing from the source and stands in the text. -/
def looseSource : String :=
  "gate flip() a \x7b x() a; \x7d\nqubit q; bit c;\nflip() q; // again\nflip q; read -> c; x q;"

def loose : Program := (Program.recover looseSource).1

theorem parse_keeps_loose :
    Program.parse looseSource = .ok loose ∧ lexErrors looseSource = [] ∧
      Fits loose.outline ((significant looseSource).map Lexeme.token) ∧
      (significant loose.text).map Lexeme.token = Slot.canonical loose.outline ∧
      loose.outline.filter (fun s => [.empty true, .empty false].contains s) =
        [.empty false, .empty false, .empty false, .empty false, .empty true, .empty false] ∧
      loose.text = "gate flip a \x7b x a; \x7d\nqubit q;\nbit c;\nflip q;\nflip q;\n" ++
        "read() -> c;\nx q;\n" := by
  have herrors : (Program.recover looseSource).2 = [] := by decide +kernel
  have hparse : Program.parse looseSource = .ok loose := by
    have hrecover : Program.recover looseSource = (loose, []) := Prod.ext rfl herrors
    rw [Program.parse, hrecover]
  obtain ⟨hlegal, hfits, htext⟩ := Program.parse_keeps_tokens hparse
  refine ⟨hparse, hlegal, hfits, htext, ?_, ?_⟩
  · decide +kernel
  · decide +kernel

end OpenQasm
