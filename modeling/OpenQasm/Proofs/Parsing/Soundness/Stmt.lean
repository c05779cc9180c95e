import OpenQasm.Parser.Program
import OpenQasm.Proofs.Parsing.Soundness.Expr

/-!
# What the parser builds from statements is canonical

The same for statements. Skipping after an error only drops lexemes, so what is
made out around broken statements is canonical as well, and a version is kept only
as the first statement of a program.
-/
namespace OpenQasm.Parser

/-! Types, names and modifiers -/

theorem holds_typeSize (kind : TypeKind) {ts : List Lexeme} (h : Genuine ts) :
    (typeSize kind ts).Holds fun t _ => t.Canonical := by
  rw [typeSize]
  split
  · refine (holds_expect h).andThen ?_
    intro _ rest _ hrest _
    refine (holds_expression hrest).andThen ?_
    intro e rest' _ hrest' he
    refine holds_expect_map hrest' ?_
    rintro e' ⟨⟩
    exact he
  · refine .pure h ?_
    rintro e' ⟨⟩

theorem holds_typeSpec {ts : List Lexeme} (h : Genuine ts) :
    (typeSpec ts).Holds fun t _ => t.Canonical := by
  cases ts with
  | nil => exact holds_reject h _
  | cons l r =>
      rw [typeSpec]
      split
      · rename_i kind _
        exact .next (holds_typeSize kind h.tail)
      · exact holds_reject h _

theorem holds_typedName {ts : List Lexeme} (h : Genuine ts) :
    (typedName ts).Holds fun d _ => d.Canonical := by
  rw [typedName]
  refine (holds_typeSpec h).andThen ?_
  intro type rest _ hrest htype
  refine .map ((holds_identifier hrest).mono ?_)
  intro name _ hname
  exact ⟨htype, hname⟩

theorem holds_typedNameTail (ts : List Lexeme) (h : Genuine ts) :
    (typedNameTail ts).Holds fun ds _ => ∀ d ∈ ds, d.Canonical := by
  cases ts with
  | nil =>
      rw [typedNameTail]
      exact .pure h (by simp)
  | cons l r =>
      rw [typedNameTail]
      split
      · refine .next ((holds_typedName h.tail).andThen ?_)
        intro d rest hle hrest hd
        refine .map ((holds_typedNameTail rest hrest).mono ?_)
        intro ds _ hds
        simpa [hd] using hds
      · exact .pure h (by simp)
termination_by ts.length
decreasing_by
  subst_vars
  exact Nat.lt_succ_of_le hle

theorem holds_signature {ts : List Lexeme} (h : Genuine ts) :
    (signature ts).Holds fun ds _ => ∀ d ∈ ds, d.Canonical := by
  rw [signature]
  split
  · exact holds_expect_map h (by simp)
  · refine (holds_typedName h).andThen ?_
    intro d rest _ hrest hd
    refine (holds_typedNameTail rest hrest).andThen ?_
    intro ds rest' _ hrest' hds
    exact holds_expect_map hrest' (by simpa [hd] using hds)

theorem holds_identifierTail (ts : List Lexeme) (h : Genuine ts) :
    (identifierTail ts).Holds fun names _ => ∀ n ∈ names, IsName n := by
  cases ts with
  | nil =>
      rw [identifierTail]
      exact .pure h (by simp)
  | cons l r =>
      rw [identifierTail]
      split
      · refine .next ((holds_identifier h.tail).andThen ?_)
        intro name rest hle hrest hname
        refine .map ((holds_identifierTail rest hrest).mono ?_)
        intro names _ hnames
        simpa [hname] using hnames
      · exact .pure h (by simp)
termination_by ts.length
decreasing_by
  subst_vars
  exact Nat.lt_succ_of_le hle

theorem holds_identifiers {ts : List Lexeme} (h : Genuine ts) :
    (identifiers ts).Holds fun names _ => names ≠ [] ∧ ∀ n ∈ names, IsName n := by
  rw [identifiers]
  refine (holds_identifier h).andThen ?_
  intro name rest _ hrest hname
  refine .map ((holds_identifierTail rest hrest).mono ?_)
  intro names _ hnames
  exact ⟨by simp, by simpa [hname] using hnames⟩

theorem holds_optionalNames {ts : List Lexeme} (h : Genuine ts) :
    (optionalNames ts).Holds fun names _ => ∀ n ∈ names, IsName n := by
  rw [optionalNames]
  split
  · refine (holds_expect h).andThen ?_
    intro _ rest _ hrest _
    split
    · exact holds_expect_map hrest (by simp)
    · refine (holds_identifiers hrest).andThen ?_
      intro names rest' _ hrest' hnames
      exact holds_expect_map hrest' hnames.2
  · exact .pure h (by simp)

theorem holds_modifierTail (kind : ModifierKind) {ts : List Lexeme} (h : Genuine ts) :
    (modifierTail kind ts).Holds fun m _ => m.Canonical := by
  rw [modifierTail]
  split
  · refine (holds_expect h).andThen ?_
    intro _ rest _ hrest _
    refine (holds_expression hrest).andThen ?_
    intro e rest' _ hrest' he
    refine (holds_expect hrest').andThen ?_
    intro _ rest'' _ hrest'' _
    refine holds_expect_map hrest'' ⟨?_, ?_⟩
    · simp [Modifier.arg]
    · rintro e' ⟨⟩
      exact he
  · split
    · exact holds_reject h _
    · rename_i hpow
      refine holds_expect_map h ⟨?_, ?_⟩
      · intro hkind
        exact absurd hkind hpow
      · rintro e' ⟨⟩

theorem holds_modifiers (ts : List Lexeme) (h : Genuine ts) :
    (modifiers ts).Holds fun ms _ => ∀ m ∈ ms, m.Canonical := by
  cases ts with
  | nil =>
      rw [modifiers]
      exact .pure h (by simp)
  | cons l r =>
      rw [modifiers]
      split
      · rename_i kind _
        refine .next ((holds_modifierTail kind h.tail).andThen ?_)
        intro m rest hle hrest hm
        refine .map ((holds_modifiers rest hrest).mono ?_)
        intro ms _ hms
        simpa [hm] using hms
      · exact .pure h (by simp)
termination_by ts.length
decreasing_by
  subst_vars
  exact Nat.lt_succ_of_le hle

/-! Simple statements -/

theorem holds_finishValue {e : Expr} (he : e.CanonicalAction) {ts : List Lexeme} (h : Genuine ts) :
    (finishValue e ts).Holds fun s _ => s.Canonical := by
  rw [finishValue]
  split
  · refine (holds_expect h).andThen ?_
    intro _ rest _ hrest _
    refine (holds_register rest hrest).andThen ?_
    intro target rest' _ hrest' htarget
    exact holds_expect_map hrest' ⟨he, htarget⟩
  · exact holds_expect_map h he

theorem holds_applyTail {ms : List Modifier} (hms : ∀ m ∈ ms, m.Canonical) (gate : Builtin)
    {ts : List Lexeme} (h : Genuine ts) :
    (applyTail ms gate ts).Holds fun s _ => s.Canonical := by
  rw [applyTail]
  refine (holds_optionalArguments h).andThen ?_
  intro params rest _ hrest hparams
  refine (holds_registers rest hrest).andThen ?_
  intro qargs rest' _ hrest' hqargs
  exact holds_expect_map hrest' ⟨hms, hparams, hqargs.1, hqargs.2.canonical⟩

theorem holds_callTail {ms : List Modifier} (hms : ∀ m ∈ ms, m.Canonical) {name : String}
    (hname : IsName name) {ts : List Lexeme} (h : Genuine ts) :
    (callTail ms name ts).Holds fun s _ => s.Canonical := by
  rw [callTail]
  refine (holds_optionalArguments h).andThen ?_
  intro params rest _ hrest hparams
  refine (holds_optionalRegisters hrest).andThen ?_
  intro qargs rest' _ hrest' hqargs
  have haction : (Expr.call name ms params qargs).CanonicalAction := ⟨hms, hname, hparams, hqargs⟩
  exact holds_finishValue haction hrest'

theorem holds_gateStatement {ms : List Modifier} (hms : ∀ m ∈ ms, m.Canonical)
    {ts : List Lexeme} (h : Genuine ts) :
    (gateStatement ms ts).Holds fun s _ => s.Canonical := by
  cases ts with
  | nil => exact holds_reject h _
  | cons l r =>
      rw [gateStatement]
      split
      · rename_i gate _
        exact .next (holds_applyTail hms gate h.tail)
      · rename_i name hname
        have hl := h.head
        rw [hname] at hl
        exact .next (holds_callTail hms hl h.tail)
      · exact holds_reject h _

theorem holds_versionTail {ts : List Lexeme} (h : Genuine ts) :
    (versionTail ts).Holds fun s _ => s.Canonical := by
  cases ts with
  | nil => exact holds_reject h _
  | cons l r =>
      have hl := h.head
      rw [versionTail]
      split
      · rename_i v hv
        rw [hv] at hl
        exact .next (holds_expect_map h.tail (.inl hl))
      · rename_i v hv
        rw [hv] at hl
        exact .next (holds_expect_map h.tail (.inr hl))
      · exact h

theorem holds_includeTail {ts : List Lexeme} (h : Genuine ts) :
    (includeTail ts).Holds fun s _ => s.Canonical := by
  cases ts with
  | nil => exact holds_reject h _
  | cons l r =>
      have hl := h.head
      rw [includeTail]
      split
      · rename_i path hpath
        rw [hpath] at hl
        exact .next (holds_expect_map h.tail hl)
      · exact holds_reject h _

theorem holds_optionalType {ts : List Lexeme} (h : Genuine ts) :
    (optionalType ts).Holds fun type _ => ∀ t ∈ type, t.Canonical := by
  cases ts with
  | nil => exact .pure h (by rintro t ⟨⟩)
  | cons l r =>
      rw [optionalType]
      split
      · rename_i kind _
        refine .next (.map ((holds_typeSize kind h.tail).mono ?_))
        rintro t _ ht t' ⟨⟩
        exact ht
      · exact .pure h (by rintro t ⟨⟩)

theorem holds_constTail {ts : List Lexeme} (h : Genuine ts) :
    (constTail ts).Holds fun s _ => s.Canonical := by
  rw [constTail]
  refine (holds_optionalType h).andThen ?_
  intro type rest _ hrest htype
  refine (holds_identifier hrest).andThen ?_
  intro name rest' _ hrest' hname
  refine (holds_expect hrest').andThen ?_
  intro _ rest'' _ hrest'' _
  refine (holds_expression hrest'').andThen ?_
  intro e rest''' _ hrest''' he
  exact holds_expect_map hrest''' ⟨htype, hname, he⟩

theorem holds_declareTail (kind : TypeKind) {ts : List Lexeme} (h : Genuine ts) :
    (declareTail kind ts).Holds fun s _ => s.Canonical := by
  rw [declareTail]
  refine (holds_typeSize kind h).andThen ?_
  intro type rest _ hrest htype
  refine (holds_identifier hrest).andThen ?_
  intro name rest' _ hrest' hname
  exact holds_expect_map hrest' ⟨htype, hname⟩

theorem holds_returnTail {ts : List Lexeme} (h : Genuine ts) :
    (returnTail ts).Holds fun s _ => s.Canonical := by
  rw [returnTail]
  split
  · exact holds_expect_map h (by rintro v ⟨⟩)
  · refine (holds_value h).andThen ?_
    intro e rest _ hrest he
    refine holds_expect_map hrest ?_
    rintro v ⟨⟩
    exact he

theorem holds_resetTail {ts : List Lexeme} (h : Genuine ts) :
    (resetTail ts).Holds fun s _ => s.Canonical := by
  rw [resetTail]
  refine (holds_registers ts h).andThen ?_
  intro qargs rest _ hrest hqargs
  exact holds_expect_map hrest ⟨hqargs.1, hqargs.2.canonical⟩

theorem holds_printTail {ts : List Lexeme} (h : Genuine ts) :
    (printTail ts).Holds fun s _ => s.Canonical := by
  rw [printTail]
  split
  · exact holds_expect_map h trivial
  · refine (holds_registers ts h).andThen ?_
    intro args rest _ hrest hargs
    exact holds_expect_map hrest hargs.2.canonical

theorem holds_measureTail {ts : List Lexeme} (h : Genuine ts) :
    (measureTail ts).Holds fun s _ => s.Canonical := by
  rw [measureTail]
  refine (holds_optionalRegisters h).andThen ?_
  intro qargs rest _ hrest hqargs
  have haction : (Expr.measure qargs).CanonicalAction := hqargs
  exact holds_finishValue haction hrest

theorem holds_assignTail {name : String} (hname : IsName name) {ts : List Lexeme}
    (h : Genuine ts) : (assignTail name ts).Holds fun s _ => s.Canonical := by
  rw [assignTail]
  refine (holds_position name ts hname h).andThen ?_
  intro target rest _ hrest htarget
  refine (holds_expect hrest).andThen ?_
  intro _ rest' _ hrest' _
  refine (holds_value hrest').andThen ?_
  intro e rest'' _ hrest'' he
  exact holds_expect_map hrest'' ⟨htarget, he⟩

/-! Definitions -/

theorem holds_gateHeader {ts : List Lexeme} (h : Genuine ts) :
    (gateHeader ts).Holds fun header _ =>
      IsName header.1 ∧ (∀ p ∈ header.2.1, IsName p) ∧
        header.2.2 ≠ [] ∧ ∀ q ∈ header.2.2, IsName q := by
  rw [gateHeader]
  refine (holds_identifier h).andThen ?_
  intro name rest _ hrest hname
  refine (holds_optionalNames hrest).andThen ?_
  intro params rest' _ hrest' hparams
  refine .map ((holds_identifiers hrest').mono ?_)
  intro qargs _ hqargs
  exact ⟨hname, hparams, hqargs⟩

theorem holds_optionalIdentifiers {ts : List Lexeme} (h : Genuine ts) :
    (optionalIdentifiers ts).Holds fun names _ => ∀ n ∈ names, IsName n := by
  cases ts with
  | nil => exact .pure h (by simp)
  | cons l r =>
      rw [optionalIdentifiers]
      split
      · exact (holds_identifiers h).mono fun _ _ hnames => hnames.2
      · exact .pure h (by simp)

theorem holds_optionalResult {ts : List Lexeme} (h : Genuine ts) :
    (optionalResult ts).Holds fun type _ => ∀ t ∈ type, t.Canonical := by
  rw [optionalResult]
  split
  · refine (holds_expect h).andThen ?_
    intro _ rest _ hrest _
    refine .map ((holds_typeSpec hrest).mono ?_)
    rintro t _ ht t' ⟨⟩
    exact ht
  · exact .pure h (by rintro t ⟨⟩)

theorem holds_subroutineHeader {ts : List Lexeme} (h : Genuine ts) :
    (subroutineHeader ts).Holds fun header _ =>
      IsName header.1 ∧ (∀ d ∈ header.2.1, d.Canonical) ∧ (∀ q ∈ header.2.2.1, IsName q) ∧
        ∀ t ∈ header.2.2.2, t.Canonical := by
  rw [subroutineHeader]
  refine (holds_identifier h).andThen ?_
  intro name rest _ hrest hname
  refine (holds_expect hrest).andThen ?_
  intro _ rest' _ hrest' _
  refine (holds_signature hrest').andThen ?_
  intro params rest'' _ hrest'' hparams
  refine (holds_optionalIdentifiers hrest'').andThen ?_
  intro qargs rest''' _ hrest''' hqargs
  refine .map ((holds_optionalResult hrest''').mono ?_)
  intro result _ hresult
  exact ⟨hname, hparams, hqargs, hresult⟩

/-! Blocks and recovery -/

theorem genuine_skip {ts : List Lexeme} (h : Genuine ts) : Genuine (skip ts) := by
  induction ts with
  | nil => exact h
  | cons l r ih =>
      rw [skip]
      split
      · exact h.tail
      · split
        · exact h
        · exact ih h.tail

theorem genuine_skipFrom {l : Lexeme} {r : List Lexeme} (h : Genuine (l :: r)) :
    Genuine (skipFrom l r) := by
  rw [skipFrom]
  split
  · exact h.tail
  · exact genuine_skip h.tail

theorem holds_noted {α : Type} {P : α → Prop} {ts : List Lexeme} {r : Reply ParseError ts α}
    (h : r.Holds fun a _ => P a) : r.noted.Holds fun a _ => P a.1 :=
  .mapError (.map h)

/-- Statements that may start with a version, if `opening` says so. -/
def CanonicalFrom (opening : Bool) (ss : List Stmt) : Prop :=
  match opening with
  | true => Program.Canonical ⟨ss⟩
  | false => Stmt.CanonicalBody ss

theorem canonicalFrom_nil (opening : Bool) : CanonicalFrom opening [] := by
  cases opening <;> trivial

theorem canonicalFrom_cons {opening : Bool} {s : Stmt} {ss : List Stmt} (hs : s.Canonical)
    (hkept : ¬(isVersion s && !opening) = true) (hss : Stmt.CanonicalBody ss) :
    CanonicalFrom opening (s :: ss) := by
  cases opening with
  | true => exact ⟨hs, hss⟩
  | false => exact ⟨hs, by simpa using hkept, hss⟩

mutual

theorem holds_statement (l : Lexeme) (ts : List Lexeme) (hl : l.token.Genuine) (h : Genuine ts) :
    ∀ r ∈ statement l ts, r.Holds fun s _ => s.1.Canonical := by
  intro r hr
  rw [statement] at hr
  split at hr
  · cases hr
    exact holds_noted (holds_versionTail h)
  · cases hr
    exact holds_noted (holds_includeTail h)
  · cases hr
    exact holds_noted (holds_constTail h)
  · cases hr
    refine (holds_gateHeader h).mapError.andThen ?_
    rintro ⟨name, params, qargs⟩ rest hle hrest ⟨hname, hparams, hqargs⟩
    refine .map ((holds_body rest hrest).mono ?_)
    intro stmts _ hstmts
    exact ⟨hname, hparams, hqargs, hstmts⟩
  · cases hr
    refine (holds_subroutineHeader h).mapError.andThen ?_
    rintro ⟨name, params, qargs, result⟩ rest hle hrest ⟨hname, hparams, hqargs, hresult⟩
    refine .map ((holds_body rest hrest).mono ?_)
    intro stmts _ hstmts
    exact ⟨hname, hparams, hqargs, hresult, hstmts⟩
  · cases hr
    exact holds_noted (holds_returnTail h)
  · cases hr
    exact holds_noted (holds_resetTail h)
  · cases hr
    exact holds_noted (holds_printTail h)
  · cases hr
    exact holds_noted (holds_measureTail h)
  · cases hr
    exact .map (holds_block ts h)
  · rename_i kind _
    cases hr
    exact holds_noted (holds_declareTail kind h)
  · rename_i kind _
    cases hr
    refine holds_noted ((holds_modifierTail kind h).andThen ?_)
    intro m rest _ hrest hm
    refine (holds_modifiers rest hrest).andThen ?_
    intro ms rest' _ hrest' hms
    exact holds_gateStatement (by simpa [hm] using hms) hrest'
  · rename_i gate _
    cases hr
    exact holds_noted (holds_applyTail (by simp) gate h)
  · rename_i name hname
    rw [hname] at hl
    split at hr
    · cases hr
      exact holds_noted (holds_assignTail hl h)
    · cases hr
      exact holds_noted (holds_callTail (by simp) hl h)
  · cases hr
termination_by 4 * ts.length + 3

theorem holds_body : ∀ ts : List Lexeme, Genuine ts →
    (body ts).Holds fun ss _ => Stmt.CanonicalBody ss.1
  | [], h => by
      rw [body]
      exact .mapError (.map (holds_reject h _))
  | l :: r, h => by
      rw [body]
      split
      · exact .next (holds_block r h.tail)
      · exact .mapError (.map (holds_reject h _))
termination_by ts => 4 * ts.length

theorem holds_block (ts : List Lexeme) (h : Genuine ts) :
    (block ts).Holds fun ss _ => Stmt.CanonicalBody ss.1 := by
  obtain ⟨hstmts, hrest⟩ := canonical_statements true false ts h
  rw [block]
  exact .later (.mapError (.map ((holds_expect hrest).mono fun _ _ _ => hstmts))) _
termination_by 4 * ts.length + 2

theorem canonical_statements (inBlock opening : Bool) : ∀ ts : List Lexeme, Genuine ts →
    CanonicalFrom opening (statements inBlock opening ts).statements ∧
      Genuine (statements inBlock opening ts).rest
  | [], h => by
      rw [statements]
      exact ⟨canonicalFrom_nil opening, h⟩
  | l :: r, h => by
      rw [statements]
      split
      · exact ⟨canonicalFrom_nil opening, h⟩
      · split
        · have hle := skipFrom_length_le l r
          exact canonical_statements inBlock opening (skipFrom l r) (genuine_skipFrom h)
        · rename_i errors rest hle hr
          have hrest := holds_statement l r h.head h.tail _ hr
          have hskip := skip_length_le rest
          exact canonical_statements inBlock opening (skip rest) (genuine_skip hrest)
        · rename_i stmt errors rest hle hr
          obtain ⟨hrest, hstmt⟩ := holds_statement l r h.head h.tail _ hr
          split
          · exact canonical_statements inBlock opening rest hrest
          · rename_i hkept
            have hnext := canonical_statements inBlock false rest hrest
            exact ⟨canonicalFrom_cons hstmt hkept hnext.1, hnext.2⟩
termination_by ts => 4 * ts.length + 1

end

end OpenQasm.Parser

namespace OpenQasm

/-- Whatever a source holds, the program made out in it is canonical. -/
theorem Program.canonical_recover (source : String) : (Program.recover source).1.Canonical := by
  have h : Parser.Genuine (significant source) := fun l hl => genuine_significant source l hl
  exact (Parser.canonical_statements false true (significant source) h).1

end OpenQasm
