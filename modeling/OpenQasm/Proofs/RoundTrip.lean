import OpenQasm.Proofs.Lexing.Trees
import OpenQasm.Proofs.Parsing.Completeness.Stmt
import OpenQasm.Proofs.Parsing.Soundness.Stmt

/-!
# Printing and parsing

What can be made out in a source, broken or not, is a canonical program. Its text
is cut into the tokens of its layout, and these are read as the same program.
-/
namespace OpenQasm

open OpenQasm.Parser

theorem Program.Canonical.statements {p : Program} (hp : p.Canonical) :
    ∀ s ∈ p.statements, s.Canonical := by
  obtain ⟨ss⟩ := p
  cases ss with
  | nil => simp
  | cons s ss =>
      intro s' hs'
      rcases List.mem_cons.1 hs' with rfl | hs'
      · exact hp.1
      · exact canonical_of_mem hp.2 s' hs'

/-- A canonical program is read from any source that is cut into its tokens. -/
theorem Program.recover_of_tokens {source : String} {p : Program} (hp : p.Canonical)
    (h : tokensOf source.toList = p.statements.flatMap Stmt.tokens) :
    Program.recover source = (p, []) := by
  have hspells := spells_map (significant source) []
  rw [significant_tokens, h, List.append_nil] at hspells
  obtain ⟨hstmts, herrors⟩ := statements_program hp hspells
  rw [Program.recover]
  simp only [hstmts, herrors]

/-- A canonical program is read back from its text. -/
theorem Program.recover_text {p : Program} (hp : p.Canonical) :
    Program.recover p.text = (p, []) :=
  Program.recover_of_tokens hp (Program.tokensOf_text hp.statements)

theorem Program.parse_text {p : Program} (hp : p.Canonical) : Program.parse p.text = .ok p := by
  rw [Program.parse, Program.recover_text hp]

/-- A canonical statement that stands alone is read back from its text. -/
theorem Program.parse_statement {s : Stmt} (hs : s.Canonical) :
    Program.parse s.text = .ok ⟨[s]⟩ := by
  have htokens : tokensOf s.text.toList = [s].flatMap Stmt.tokens := by
    have hcut := (s.lexes_layout hs).cut [] (by simp [Opens])
    rwa [List.append_nil, tokensOf_nil, ← Piece.toList_join] at hcut
  rw [Program.parse, Program.recover_of_tokens (p := ⟨[s]⟩) ⟨hs, trivial⟩ htokens]

theorem recover_of_parse {source : String} {p : Program} (h : Program.parse source = .ok p) :
    Program.recover source = (p, []) := by
  rw [Program.parse] at h
  split at h
  · rename_i hrecover
    cases h
    exact hrecover
  · cases h

/-- Whatever the source, the program made out in it is read back from its text, as the
same tree and without an error. -/
theorem Program.parse_text_recover (source : String) :
    Program.parse (Program.recover source).1.text = .ok (Program.recover source).1 :=
  Program.parse_text (Program.canonical_recover source)

end OpenQasm
