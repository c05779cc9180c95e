import OpenQasm.Proofs.Parsing.Completeness.Stmt
import OpenQasm.Proofs.Parsing.Locality.Expr

/-!
# Statements stand on their own

A statement that is read without an error takes tokens up to a semicolon or a closing brace
of its own, and is read in the same way wherever these tokens stand. So a source without
errors is a sequence of such statements, and any stretch of them can be read by itself.
-/
namespace OpenQasm.Parser

/-! Parts of statements -/

theorem local_typeSize (kind : TypeKind) (ts : List Lexeme) : Local [] (typeSize kind) ts :=
  .startsWith
    ((local_expect .lbracket rfl ts).andThen fun _ rest _ =>
      (local_expression rest).andThen fun e rest' _ =>
        (local_expect .rbracket rfl rest').map fun _ => TypeSpec.mk kind (some e))
    (.pure (TypeSpec.mk kind none) ts)

theorem local_typeSpec (ts : List Lexeme) : Local [] typeSpec ts := by
  cases ts with
  | nil => exact .fail fun _ _ => id
  | cons l r =>
      cases hl : l.token with
      | typeName kind =>
          refine .next (by rw [hl]; rfl) (fun l' r' hl' _ => ?_) (local_typeSize kind r)
          simp only [typeSpec, hl', hl]
      | _ =>
          refine .fail fun a rest ha => ?_
          simp only [typeSpec, hl] at ha
          exact ha

theorem local_typedName (ts : List Lexeme) : Local [] typedName ts :=
  (local_typeSpec ts).andThen fun type rest _ =>
    (local_identifier rest).map fun name => TypedName.mk type name

theorem local_typedNameTail (ts : List Lexeme) : Local [] typedNameTail ts := by
  induction hn : ts.length using Nat.strong_induction_on generalizing ts with
  | _ n ih =>
    subst hn
    cases ts with
    | nil => exact .nil (by rw [typedNameTail])
    | cons l r =>
        refine .tail (fun l' r' hl' => ?_) (fun l' r' hl' => ?_) (local_typedName r)
          fun rest hle => ih rest.length (Nat.lt_succ_of_le hle) rest rfl
        · rw [typedNameTail, if_pos hl']
        · rw [typedNameTail, if_neg hl']

theorem local_signature (ts : List Lexeme) : Local [] signature ts :=
  .startsWith ((local_expect .rparen rfl ts).map fun _ => [])
    ((local_typedName ts).andThen fun d rest _ =>
      (local_typedNameTail rest).andThen fun ds rest' _ =>
        (local_expect .rparen rfl rest').map fun _ => d :: ds)

theorem local_optionalNames (ts : List Lexeme) : Local [] optionalNames ts :=
  .startsWith
    ((local_expect .lparen rfl ts).andThen fun _ rest _ =>
      .startsWith ((local_expect .rparen rfl rest).map fun _ => [])
        ((local_identifiers rest).andThen fun names rest' _ =>
          (local_expect .rparen rfl rest').map fun _ => names))
    (.pure [] ts)

theorem local_modifierTail (kind : ModifierKind) (ts : List Lexeme) :
    Local [] (modifierTail kind) ts := by
  refine .startsWith
    ((local_expect .lparen rfl ts).andThen fun _ rest _ =>
      (local_expression rest).andThen fun e rest' _ =>
        (local_expect .rparen rfl rest').andThen fun _ rest'' _ =>
          (local_expect .atSign rfl rest'').map fun _ => Modifier.mk kind (some e)) ?_
  by_cases hkind : kind = .pow
  · refine .fail fun a rest ha => ?_
    rw [if_pos hkind] at ha
    exact ha
  · simp only [if_neg hkind]
    exact (local_expect .atSign rfl ts).map fun _ => Modifier.mk kind none

theorem local_modifiers (ts : List Lexeme) : Local [] modifiers ts := by
  induction hn : ts.length using Nat.strong_induction_on generalizing ts with
  | _ n ih =>
    subst hn
    cases ts with
    | nil => exact .nil (by rw [modifiers])
    | cons l r =>
        cases hl : l.token with
        | modifier kind =>
            refine .next (by rw [hl]; rfl) (fun l' r' hl' _ => ?_)
              ((local_modifierTail kind r).andThen fun m rest hle =>
                (ih rest.length (Nat.lt_succ_of_le hle) rest rfl).map (m :: ·))
            simp only [modifiers, hl', hl]
        | _ =>
            refine .stop [] fun l' r' hl' => ?_
            simp only [modifiers, hl', hl]

theorem local_optionalType (ts : List Lexeme) : Local [] optionalType ts := by
  cases ts with
  | nil => exact .nil rfl
  | cons l r =>
      cases hl : l.token with
      | typeName kind =>
          refine .next (by rw [hl]; rfl) (fun l' r' hl' _ => ?_) ((local_typeSize kind r).map some)
          simp only [optionalType, hl', hl]
      | _ =>
          refine .stop none fun l' r' hl' => ?_
          simp only [optionalType, hl', hl]

theorem local_gateHeader (ts : List Lexeme) : Local [] gateHeader ts :=
  (local_identifier ts).andThen fun name rest _ =>
    (local_optionalNames rest).andThen fun params rest' _ =>
      (local_identifiers rest').map fun qargs => (name, params, qargs)

theorem local_optionalIdentifiers (ts : List Lexeme) : Local [] optionalIdentifiers ts := by
  cases ts with
  | nil => exact .nil rfl
  | cons l r =>
      cases hl : l.token with
      | ident name =>
          refine .congr (fun ts' h => ?_) (local_identifiers (l :: r))
          obtain ⟨l', r', rfl, hl'⟩ := exists_of_ahead h
          simp only [optionalIdentifiers, hl', hl]
      | _ =>
          refine .stop [] fun l' r' hl' => ?_
          simp only [optionalIdentifiers, hl', hl]

theorem local_optionalResult (ts : List Lexeme) : Local [] optionalResult ts :=
  .startsWith ((local_expect .arrow rfl ts).andThen fun _ rest _ => (local_typeSpec rest).map some)
    (.pure none ts)

theorem local_subroutineHeader (ts : List Lexeme) : Local [] subroutineHeader ts :=
  (local_identifier ts).andThen fun name rest _ =>
    (local_expect .lparen rfl rest).andThen fun _ rest' _ =>
      (local_signature rest').andThen fun params rest'' _ =>
        (local_optionalIdentifiers rest'').andThen fun qargs rest''' _ =>
          (local_optionalResult rest''').map fun result => (name, params, qargs, result)

/-! Statements up to a semicolon -/

section Tails

/-- A parser that takes a statement up to its semicolon. -/
abbrev Closes (p : (ts : List Lexeme) → Reply ParseError ts Stmt) (ts : List Lexeme) : Prop :=
  Local [.symbol .semicolon] p ts

theorem closes_semicolon (c : Stmt) (ts : List Lexeme) :
    Closes (fun ts => (expect .semicolon ts).map fun _ => c) ts :=
  (closes_expect .semicolon ts).map fun _ => c

variable (ts : List Lexeme)

theorem closes_finishValue (e : Expr) : Closes (finishValue e) ts :=
  .startsWith
    ((local_expect .arrow rfl ts).andThen fun _ rest _ =>
      (local_register rest).andThen fun target rest' _ => closes_semicolon (.arrow e target) rest')
    (closes_semicolon (.expr e) ts)

theorem closes_applyTail (ms : List Modifier) (gate : Builtin) : Closes (applyTail ms gate) ts :=
  (local_optionalArguments ts).andThen fun params rest _ =>
    (local_registers rest).andThen fun qargs rest' _ =>
      closes_semicolon (.apply gate ms params qargs) rest'

theorem closes_callTail (ms : List Modifier) (name : String) : Closes (callTail ms name) ts :=
  (local_optionalArguments ts).andThen fun params rest _ =>
    (local_optionalRegisters rest).andThen fun qargs rest' _ =>
      closes_finishValue rest' (.call name ms params qargs)

theorem closes_gateStatement (ms : List Modifier) : Closes (gateStatement ms) ts := by
  cases ts with
  | nil => exact .fail fun _ _ => id
  | cons l r =>
      cases hl : l.token with
      | builtin gate =>
          refine .next (by rw [hl]; rfl) (fun l' r' hl' _ => ?_) (closes_applyTail r ms gate)
          simp only [gateStatement, hl', hl]
      | ident name =>
          refine .next (by rw [hl]; rfl) (fun l' r' hl' _ => ?_) (closes_callTail r ms name)
          simp only [gateStatement, hl', hl]
      | _ =>
          refine .fail fun a rest ha => ?_
          simp only [gateStatement, hl] at ha
          exact ha

theorem closes_versionTail : Closes versionTail ts := by
  cases ts with
  | nil => exact .fail fun _ _ => id
  | cons l r =>
      cases hl : l.token with
      | float v =>
          refine .next (by rw [hl]; rfl) (fun l' r' hl' _ => ?_) (closes_semicolon (.version v) r)
          simp only [versionTail, hl', hl]
      | int v =>
          refine .next (by rw [hl]; rfl) (fun l' r' hl' _ => ?_) (closes_semicolon (.version v) r)
          simp only [versionTail, hl', hl]
      | _ =>
          refine .fail fun a rest ha => ?_
          simp only [versionTail, hl] at ha
          exact ha

theorem closes_includeTail : Closes includeTail ts := by
  cases ts with
  | nil => exact .fail fun _ _ => id
  | cons l r =>
      cases hl : l.token with
      | string path =>
          refine .next (by rw [hl]; rfl) (fun l' r' hl' _ => ?_) (closes_semicolon (.includes path) r)
          simp only [includeTail, hl', hl]
      | _ =>
          refine .fail fun a rest ha => ?_
          simp only [includeTail, hl] at ha
          exact ha

theorem closes_constTail : Closes constTail ts :=
  (local_optionalType ts).andThen fun type rest _ =>
    (local_identifier rest).andThen fun name rest' _ =>
      (local_expect .assign rfl rest').andThen fun _ rest'' _ =>
        (local_expression rest'').andThen fun e rest''' _ =>
          closes_semicolon (.const type name e) rest'''

theorem closes_declareTail (kind : TypeKind) : Closes (declareTail kind) ts :=
  (local_typeSize kind ts).andThen fun type rest _ =>
    (local_identifier rest).andThen fun name rest' _ =>
      closes_semicolon (.declare ⟨type, name⟩) rest'

theorem closes_returnTail : Closes returnTail ts :=
  .startsWith (closes_semicolon (.returns none) ts)
    ((local_value ts).andThen fun e rest _ => closes_semicolon (.returns (some e)) rest)

theorem closes_resetTail : Closes resetTail ts :=
  (local_registers ts).andThen fun qargs rest _ => closes_semicolon (.reset qargs) rest

theorem closes_printTail : Closes printTail ts :=
  .startsWith (closes_semicolon (.print []) ts)
    ((local_registers ts).andThen fun args rest _ => closes_semicolon (.print args) rest)

theorem closes_measureTail : Closes measureTail ts :=
  (local_optionalRegisters ts).andThen fun qargs rest _ => closes_finishValue rest (.measure qargs)

theorem closes_assignTail (name : String) : Closes (assignTail name) ts :=
  (local_position name ts).andThen fun target rest _ =>
    (local_expect .assign rfl rest).andThen fun _ rest' _ =>
      (local_value rest').andThen fun e rest'' _ => closes_semicolon (.assign target e) rest''

theorem closes_modified (kind : ModifierKind) :
    Closes (fun ts => (modifierTail kind ts).andThen fun m rest _ =>
      (modifiers rest).andThen fun ms rest' _ => gateStatement (m :: ms) rest') ts :=
  (local_modifierTail kind ts).andThen fun m rest _ =>
    (local_modifiers rest).andThen fun ms rest' _ => closes_gateStatement rest' (m :: ms)

end Tails

/-! Whole statements -/

/-- The tokens of a statement: up to the first semicolon, or up to a brace that closes a body. -/
inductive Span : List Token → Prop
  | simple {phrase : List Token} : (∀ t ∈ phrase, t.isInner = true) →
      Span (phrase ++ [.symbol .semicolon])
  | body {phrase : List Token} {us : List (List Token)} : (∀ t ∈ phrase, t.isInner = true) →
      (∀ u ∈ us, Span u) →
      Span (phrase ++ .symbol .lbrace :: (us.flatten ++ [.symbol .rbrace]))

/-- Tokens that are read as a statement wherever they stand. -/
structure Sentence (u : List Token) (c : Stmt) : Prop where
  span : Span u
  reads : ∀ ts rest, Spells u ts rest → Reads ts c rest

theorem Reply.Yields.of_mapError {ε ε' α : Type} {ts rest : List Lexeme} {r : Reply ε ts α}
    {f : ε → ε'} {a : α} (h : (r.mapError f).Yields a rest) : r.Yields a rest := by
  cases r with
  | fail => exact h
  | done => exact h

theorem Reply.Yields.of_noted {α : Type} {ts rest : List Lexeme} {r : Reply ParseError ts α}
    {a : α} {errors : List ParseError} (h : r.noted.Yields (a, errors) rest) : r.Yields a rest := by
  obtain ⟨b, hb, heq⟩ := h.of_mapError.of_map
  cases heq
  exact hb

theorem length_le_of_spells {used : List Token} {ts rest : List Lexeme} (h : Spells used ts rest) :
    rest.length ≤ ts.length := by
  induction used generalizing ts with
  | nil =>
      obtain rfl : ts = rest := h
      exact Nat.le_refl _
  | cons t used ih =>
      obtain ⟨l, r, rfl, -, hr⟩ := h
      exact Nat.le_succ_of_le (ih hr)

section Statements

variable {l : Lexeme} {r rest : List Lexeme} {c : Stmt}

theorem Reads.statement_ne_none (h : Reads (l :: r) c rest) : statement l r ≠ none := by
  obtain ⟨_, _, reply, ⟨⟩, hreply, -⟩ := h
  rw [hreply]
  exact nofun

/-- A statement without a body. -/
theorem sentence_of_tail {p : (ts : List Lexeme) → Reply ParseError ts Stmt}
    (hl : l.token.isInner = true)
    (hstatement : ∀ l' r', l'.token = l.token → ahead r' = ahead r →
      statement l' r' = some (p r').noted)
    (hp : Closes p r) (h : Reads (l :: r) c rest) :
    ∃ u, Sentence u c ∧ Spells u (l :: r) rest := by
  obtain ⟨_, _, reply, ⟨⟩, hreply, hyields⟩ := h
  rw [hstatement l r rfl rfl] at hreply
  cases hreply
  obtain ⟨phrase, hphrase, hspells, hother⟩ := hp c rest hyields.of_noted
  have hspan : Span (l.token :: phrase ++ [.symbol .semicolon]) :=
    .simple (List.forall_mem_cons.2 ⟨hl, hphrase⟩)
  refine ⟨_, ⟨hspan, ?_⟩, l, r, rfl, rfl, hspells⟩
  rintro _ rest' ⟨l', r', rfl, hl', hspells'⟩
  have hahead : ahead r' = ahead r := ahead_of_spells hspells hspells' (by simp)
  exact ⟨l', r', _, rfl, hstatement l' r' hl' hahead,
    yields_noted (hother r' rest' hspells' (by simp))⟩

/-- If a block finishes without errors, it takes statements and its closing brace, and finishes
in the same way wherever their tokens stand. -/
def Blocked (ts : List Lexeme) : Prop :=
  ∀ ss rest, (block ts).Yields (ss, []) rest → ∃ us : List (List Token), (∀ u ∈ us, Span u) ∧
    Spells (us.flatten ++ [.symbol .rbrace]) ts rest ∧
    ∀ ts' rest', Spells (us.flatten ++ [.symbol .rbrace]) ts' rest' →
      (block ts').Yields (ss, []) rest'

theorem yields_body_iff {ts : List Lexeme} {ss : List Stmt} :
    (body ts).Yields (ss, []) rest ↔
      ∃ l r, ts = l :: r ∧ l.token = .symbol .lbrace ∧ (block r).Yields (ss, []) rest := by
  cases ts with
  | nil =>
      rw [body]
      exact ⟨fun h => absurd h id, by rintro ⟨l, r, h, -⟩; cases h⟩
  | cons l r =>
      rw [body]
      split
      · rename_i hl
        constructor
        · exact fun h => ⟨l, r, rfl, hl, h.of_next⟩
        · rintro ⟨_, _, ⟨⟩, -, h⟩
          exact h.next
      · rename_i hl
        constructor
        · exact fun h => absurd h id
        · rintro ⟨_, _, ⟨⟩, hl', -⟩
          exact absurd hl' hl

theorem yields_definition {α : Type} {header : (ts : List Lexeme) → Reply ParseError ts α}
    {f : α → List Stmt → Stmt} :
    (((header r).mapError fun e => [e]).andThen fun a rest _ =>
      (body rest).map fun p => (f a p.1, p.2)).Yields (c, []) rest ↔
    ∃ a mid ss, (header r).Yields a mid ∧ (body mid).Yields (ss, []) rest ∧ f a ss = c := by
  constructor
  · intro h
    obtain ⟨a, mid, _, ha, hbody⟩ := h.of_andThen
    obtain ⟨⟨ss, errors⟩, hss, heq⟩ := hbody.of_map
    cases heq
    exact ⟨a, mid, ss, ha.of_mapError, hss, rfl⟩
  · rintro ⟨a, mid, ss, ha, hbody, rfl⟩
    exact ha.mapError.andThen fun _ => hbody.map _

/-- A definition: a header and a body. -/
theorem sentence_of_body {α : Type} {header : (ts : List Lexeme) → Reply ParseError ts α}
    {f : α → List Stmt → Stmt} (hl : l.token.isInner = true)
    (hstatement : ∀ l' r', l'.token = l.token → statement l' r' =
      some (((header r').mapError fun e => [e]).andThen fun a rest _ =>
        (body rest).map fun p => (f a p.1, p.2)))
    (hheader : Local [] header r) (hblocks : ∀ ts, ts.length ≤ r.length → Blocked ts)
    (h : Reads (l :: r) c rest) : ∃ u, Sentence u c ∧ Spells u (l :: r) rest := by
  obtain ⟨_, _, reply, ⟨⟩, hreply, hyields⟩ := h
  rw [hstatement l r rfl] at hreply
  cases hreply
  obtain ⟨a, mid, ss, hhead, hbody, rfl⟩ := yields_definition.1 hyields
  obtain ⟨phrase, hphrase, hspells, hother⟩ := hheader a mid hhead
  obtain ⟨lb, rb, rfl, hlb, hblock⟩ := yields_body_iff.1 hbody
  rw [List.append_nil] at hspells hother
  have hle : rb.length ≤ r.length := Nat.le_of_succ_le (length_le_of_spells hspells)
  obtain ⟨us, hus, hspells₂, hother₂⟩ := hblocks rb hle ss rest hblock
  have hspan : Span (l.token :: phrase ++ .symbol .lbrace :: (us.flatten ++ [.symbol .rbrace])) :=
    .body (List.forall_mem_cons.2 ⟨hl, hphrase⟩) hus
  refine ⟨_, ⟨hspan, ?_⟩, l, r, rfl, rfl, spells_append.2 ⟨_, hspells, lb, rb, rfl, hlb, hspells₂⟩⟩
  rintro _ rest' ⟨l', r', rfl, hl', hspells'⟩
  obtain ⟨_, hspells', lb', rb', rfl, hlb', hspells₂'⟩ := spells_append.1 hspells'
  have hahead : ahead (lb' :: rb') = ahead (lb :: rb) := by rw [ahead_cons, ahead_cons, hlb, hlb']
  have hhead' := hother r' _ hspells' fun _ => hahead
  have hbody' := yields_body_iff.2 ⟨lb', rb', rfl, hlb', hother₂ rb' rest' hspells₂'⟩
  exact ⟨l', r', _, rfl, hstatement l' r' hl', yields_definition.2 ⟨a, _, ss, hhead', hbody', rfl⟩⟩

/-- A block as a statement. -/
theorem sentence_of_block (hl : l.token = .symbol .lbrace) (hblock : Blocked r)
    (h : Reads (l :: r) c rest) : ∃ u, Sentence u c ∧ Spells u (l :: r) rest := by
  obtain ⟨_, _, reply, ⟨⟩, hreply, hyields⟩ := h
  rw [statement, hl] at hreply
  cases hreply
  obtain ⟨⟨ss, errors⟩, hyields, heq⟩ := hyields.of_map
  cases heq
  obtain ⟨us, hus, hspells, hother⟩ := hblock ss rest hyields
  have hspan : Span ([] ++ .symbol .lbrace :: (us.flatten ++ [.symbol .rbrace])) :=
    .body (by simp) hus
  refine ⟨_, ⟨hspan, ?_⟩, l, r, rfl, hl, hspells⟩
  rintro _ rest' ⟨l', r', rfl, hl', hspells'⟩
  exact ⟨l', r', _, rfl, by rw [statement, hl'], (hother r' rest' hspells').map _⟩

/-- A statement that starts with a keyword. -/
theorem sentence_of_keyword {word : Keyword} (hl : l.token = .keyword word)
    (hblocks : ∀ ts, ts.length ≤ r.length → Blocked ts) (h : Reads (l :: r) c rest) :
    ∃ u, Sentence u c ∧ Spells u (l :: r) rest := by
  have hinner : l.token.isInner = true := by
    rw [hl]
    rfl
  cases word with
  | openqasm =>
      exact sentence_of_tail hinner (fun l' r' hl' _ => by rw [statement, hl', hl])
        (closes_versionTail r) h
  | includes =>
      exact sentence_of_tail hinner (fun l' r' hl' _ => by rw [statement, hl', hl])
        (closes_includeTail r) h
  | const =>
      exact sentence_of_tail hinner (fun l' r' hl' _ => by rw [statement, hl', hl])
        (closes_constTail r) h
  | gate =>
      refine sentence_of_body hinner (f := fun a ss => .gate a.1 a.2.1 a.2.2 ss)
        (fun l' r' hl' => ?_) (local_gateHeader r) hblocks h
      rw [statement, hl', hl]
  | defn =>
      refine sentence_of_body hinner (f := fun a ss => .subroutine a.1 a.2.1 a.2.2.1 a.2.2.2 ss)
        (fun l' r' hl' => ?_) (local_subroutineHeader r) hblocks h
      rw [statement, hl', hl]
  | returns =>
      exact sentence_of_tail hinner (fun l' r' hl' _ => by rw [statement, hl', hl])
        (closes_returnTail r) h
  | reset =>
      exact sentence_of_tail hinner (fun l' r' hl' _ => by rw [statement, hl', hl])
        (closes_resetTail r) h
  | print =>
      exact sentence_of_tail hinner (fun l' r' hl' _ => by rw [statement, hl', hl])
        (closes_printTail r) h
  | measure =>
      exact sentence_of_tail hinner (fun l' r' hl' _ => by rw [statement, hl', hl])
        (closes_measureTail r) h

/-- The token after a name tells an assignment from a call. -/
theorem assigns_congr {r' : List Lexeme} (h : ahead r' = ahead r) :
    (startsWith .assign r' || startsWith .lbracket r') =
      (startsWith .assign r || startsWith .lbracket r) := by
  simp only [startsWith_eq, h]

theorem sentence_of_ident {name : String} (hl : l.token = .ident name)
    (h : Reads (l :: r) c rest) : ∃ u, Sentence u c ∧ Spells u (l :: r) rest := by
  have hinner : l.token.isInner = true := by
    rw [hl]
    rfl
  cases hassign : startsWith .assign r || startsWith .lbracket r with
  | true =>
      refine sentence_of_tail hinner (fun l' r' hl' hr' => ?_) (closes_assignTail r name) h
      rw [statement, hl', hl]
      exact if_pos ((assigns_congr hr').trans hassign)
  | false =>
      refine sentence_of_tail hinner (fun l' r' hl' hr' => ?_) (closes_callTail r [] name) h
      rw [statement, hl', hl]
      exact if_neg (by rw [assigns_congr hr', hassign]; simp)

/-- A statement that is read without an error stands on its own. -/
theorem sentence_of_reads (hblocks : ∀ ts, ts.length ≤ r.length → Blocked ts)
    (h : Reads (l :: r) c rest) : ∃ u, Sentence u c ∧ Spells u (l :: r) rest := by
  have hsome := h.statement_ne_none
  cases hl : l.token with
  | keyword word => exact sentence_of_keyword hl hblocks h
  | typeName kind =>
      exact sentence_of_tail (by rw [hl]; rfl) (fun l' r' hl' _ => by rw [statement, hl', hl])
        (closes_declareTail r kind) h
  | modifier kind =>
      exact sentence_of_tail (by rw [hl]; rfl) (fun l' r' hl' _ => by rw [statement, hl', hl])
        (closes_modified r kind) h
  | builtin gate =>
      exact sentence_of_tail (by rw [hl]; rfl) (fun l' r' hl' _ => by rw [statement, hl', hl])
        (closes_applyTail r [] gate) h
  | ident name => exact sentence_of_ident hl h
  | symbol s =>
      cases s with
      | lbrace => exact sentence_of_block hl (hblocks r (Nat.le_refl _)) h
      | _ =>
          rw [statement, hl] at hsome
          exact absurd rfl hsome
  | _ =>
      rw [statement, hl] at hsome
      exact absurd rfl hsome

end Statements

/-! Statements in a row -/

/-- A version declaration stands first, and only where `opening` allows it. -/
def VersionFirst (opening : Bool) : List Stmt → Prop
  | [] => True
  | c :: cs => (isVersion c = true → opening = true) ∧ VersionFirst false cs

/-- Sentences in a row are read as their statements, and what comes after them is read as it
is on its own, but for a version. -/
theorem statements_after_sentences {us : List (List Token)} {cs : List Stmt}
    (h : List.Forall₂ Sentence us cs) (inBlock : Bool) {opening : Bool}
    (hversion : VersionFirst opening cs) {ts rest : List Lexeme}
    (hspells : Spells us.flatten ts rest) :
    (statements inBlock opening ts).statements =
        cs ++ (statements inBlock (opening && cs.isEmpty) rest).statements ∧
      (statements inBlock opening ts).errors =
        (statements inBlock (opening && cs.isEmpty) rest).errors ∧
      (statements inBlock opening ts).rest =
        (statements inBlock (opening && cs.isEmpty) rest).rest := by
  induction h generalizing opening ts with
  | nil =>
      obtain rfl : ts = rest := hspells
      rw [List.isEmpty_nil, Bool.and_true]
      exact ⟨rfl, rfl, rfl⟩
  | cons hu _ ih =>
      rw [List.flatten_cons] at hspells
      obtain ⟨mid, hfirst, hothers⟩ := spells_append.1 hspells
      obtain ⟨hstmts, herrors, hleft⟩ :=
        statements_step inBlock opening (hu.reads ts mid hfirst) hversion.1
      obtain ⟨hstmts', herrors', hleft'⟩ := ih hversion.2 hothers
      rw [hstmts, herrors, hleft, hstmts', herrors', hleft', List.isEmpty_cons, Bool.and_false,
        Bool.false_and]
      exact ⟨rfl, rfl, rfl⟩

/-- Sentences in a row are read as their statements. -/
theorem statements_of_sentences {us : List (List Token)} {cs : List Stmt}
    (h : List.Forall₂ Sentence us cs) {inBlock opening : Bool} (hversion : VersionFirst opening cs)
    {ts rest : List Lexeme} (hrest : StopsAt inBlock rest) (hspells : Spells us.flatten ts rest) :
    (statements inBlock opening ts).statements = cs ∧ (statements inBlock opening ts).errors = [] ∧
      (statements inBlock opening ts).rest = rest := by
  obtain ⟨hstmts, herrors, hleft⟩ := statements_after_sentences h inBlock hversion hspells
  obtain ⟨hstmts', herrors', hleft'⟩ := statements_stop (opening && cs.isEmpty) hrest
  rw [hstmts, herrors, hleft, hstmts', herrors', hleft', List.append_nil]
  exact ⟨rfl, rfl, rfl⟩

/-- A reply that names an error if it fails. -/
def Reply.Faulty {ε α : Type} {ts : List Lexeme} : Reply (List ε) ts α → Prop
  | done .. => True
  | fail errors .. => errors ≠ []

theorem faulty_noted {α : Type} {ts : List Lexeme} (r : Reply ParseError ts α) : r.noted.Faulty := by
  cases r with
  | done => trivial
  | fail => exact List.cons_ne_nil _ _

theorem Reply.Faulty.map {ε α β : Type} {ts : List Lexeme} {r : Reply (List ε) ts α} (h : r.Faulty)
    (f : α → β) : (r.map f).Faulty := by
  cases r with
  | done => trivial
  | fail => exact h

theorem Reply.Faulty.later {ε α : Type} {ts us : List Lexeme} {r : Reply (List ε) us α}
    (h : r.Faulty) (le : us.length ≤ ts.length) : (r.later le).Faulty := by
  cases r with
  | done => trivial
  | fail => exact h

theorem faulty_block (ts : List Lexeme) : (block ts).Faulty := by
  rw [block]
  refine .later ?_ _
  cases expect .rbrace (statements true false ts).rest with
  | done => trivial
  | fail => exact List.append_ne_nil_of_right_ne_nil _ (List.cons_ne_nil _ _)

theorem faulty_body (ts : List Lexeme) : (body ts).Faulty := by
  cases ts with
  | nil =>
      rw [body]
      exact faulty_noted _
  | cons l r =>
      rw [body]
      split
      · exact (faulty_block r).later _
      · exact faulty_noted _

theorem faulty_definition {α β : Type} {ts : List Lexeme} (header : Reply ParseError ts α)
    (f : α → List Stmt × List ParseError → β) :
    ((header.mapError fun e => [e]).andThen fun a rest _ => (body rest).map (f a)).Faulty := by
  cases header with
  | done a rest le => exact ((faulty_body rest).map (f a)).later le
  | fail => exact List.cons_ne_nil _ _

theorem faulty_statement {l : Lexeme} {ts : List Lexeme} {reply : Noted ts Stmt}
    (h : statement l ts = some reply) : reply.Faulty := by
  rw [statement] at h
  split at h
  case h_4 =>
    cases h
    exact faulty_definition (gateHeader ts) _
  case h_5 =>
    cases h
    exact faulty_definition (subroutineHeader ts) _
  case h_10 =>
    cases h
    exact (faulty_block ts).map _
  case h_14 =>
    split at h <;>
      · cases h
        exact faulty_noted _
  case h_15 => cases h
  all_goals
    cases h
    exact faulty_noted _

/-- Where statements are read without an error, one is read first, unless the block ends. -/
theorem reads_of_statements {inBlock opening : Bool} {l : Lexeme} {r : List Lexeme}
    (herrors : (statements inBlock opening (l :: r)).errors = [])
    (hbrace : ¬(inBlock && decide (l.token = .symbol .rbrace)) = true) :
    ∃ c rest, Reads (l :: r) c rest ∧ (isVersion c = true → opening = true) ∧
      (statements inBlock false rest).errors = [] := by
  rw [statements, if_neg hbrace] at herrors
  split at herrors
  · cases herrors
  · rename_i errors rest le hreply
    rw [List.append_eq_nil_iff] at herrors
    exact absurd herrors.1 (faulty_statement hreply)
  · rename_i c errors rest le hreply
    split at herrors
    · simp at herrors
    · rename_i hversion
      rw [List.append_eq_nil_iff] at herrors
      obtain ⟨rfl, hnext⟩ := herrors
      refine ⟨c, rest, ⟨l, r, _, rfl, hreply, rfl, rfl⟩, fun hc => ?_, hnext⟩
      simpa [hc] using hversion

theorem Reply.Yields.of_later {ε α : Type} {ts us rest : List Lexeme} {r : Reply ε us α} {a : α}
    {le : us.length ≤ ts.length} (h : (r.later le).Yields a rest) : r.Yields a rest := by
  cases r with
  | fail => exact h
  | done => exact h

/-- What is read without an error is a row of sentences. -/
structure Written (us : List (List Token)) (inBlock opening : Bool) (ts : List Lexeme) : Prop where
  sentences : List.Forall₂ Sentence us (statements inBlock opening ts).statements
  spells : Spells us.flatten ts (statements inBlock opening ts).rest
  versionFirst : VersionFirst opening (statements inBlock opening ts).statements
  stops : inBlock = false → (statements inBlock opening ts).rest = []

theorem span_of_mem {us : List (List Token)} {cs : List Stmt} (h : List.Forall₂ Sentence us cs) :
    ∀ u ∈ us, Span u := by
  induction h with
  | nil => simp
  | cons hu _ ih => exact List.forall_mem_cons.2 ⟨hu.span, ih⟩

theorem of_yields_expect {s : Symbol} {ts rest : List Lexeme} {a : Unit}
    (h : (expect s ts).Yields a rest) : ∃ l, ts = l :: rest ∧ l.token = .symbol s := by
  cases ts with
  | nil => exact absurd h id
  | cons l r =>
      rw [expect] at h
      split at h
      · rename_i hl
        obtain ⟨-, rfl⟩ := h
        exact ⟨l, rfl, hl⟩
      · exact absurd h id

theorem Reads.length_lt {ts rest : List Lexeme} {c : Stmt} (h : Reads ts c rest) :
    rest.length < ts.length := by
  obtain ⟨l, r, reply, rfl, -, hyields⟩ := h
  cases reply with
  | fail => exact absurd hyields id
  | done value left le =>
      obtain ⟨-, rfl⟩ := hyields
      exact Nat.lt_succ_of_le le

theorem blocked_of_written {ts : List Lexeme}
    (h : (statements true false ts).errors = [] → ∃ us, Written us true false ts) : Blocked ts := by
  intro ss rest hblock
  rw [block] at hblock
  obtain ⟨_, hexpect, heq⟩ := hblock.of_later.of_mapError.of_map
  obtain ⟨rfl, herrors⟩ := Prod.mk.inj heq
  obtain ⟨us, hus⟩ := h herrors
  obtain ⟨l, hleft, hl⟩ := of_yields_expect hexpect
  refine ⟨us, span_of_mem hus.sentences, ?_, ?_⟩
  · exact spells_append.2 ⟨_, hus.spells, l, rest, hleft, hl, rfl⟩
  · intro ts' rest' hclosed
    obtain ⟨_, hspells', l', r', rfl, hl', rfl⟩ := spells_append.1 hclosed
    have hstops : StopsAt true (l' :: r') := (startsWith_cons _ _ _).2 hl'
    obtain ⟨hstmts', herrors', hleft'⟩ :=
      statements_of_sentences hus.sentences hus.versionFirst hstops hspells'
    rw [block]
    refine Reply.Yields.later (.mapError ?_) _
    rw [hstmts', herrors', hleft']
    exact (yields_expect hl' _).map _

theorem exists_written (ts : List Lexeme) : ∀ inBlock opening,
    (statements inBlock opening ts).errors = [] → ∃ us, Written us inBlock opening ts := by
  induction hn : ts.length using Nat.strong_induction_on generalizing ts with
  | _ n ih =>
    subst hn
    intro inBlock opening herrors
    cases ts with
    | nil =>
        refine ⟨[], ?_, ?_, ?_, fun _ => ?_⟩
        all_goals rw [statements]
        · exact .nil
        · rfl
        · trivial
    | cons l r =>
        by_cases hbrace : (inBlock && decide (l.token = .symbol .rbrace)) = true
        · refine ⟨[], ?_, ?_, ?_, fun hfalse => ?_⟩
          all_goals rw [statements, if_pos hbrace]
          · exact .nil
          · rfl
          · trivial
          · simp [hfalse] at hbrace
        · obtain ⟨c, rest, hreads, hversion, hnext⟩ := reads_of_statements herrors hbrace
          have hblocks : ∀ ts, ts.length ≤ r.length → Blocked ts := fun ts hle =>
            blocked_of_written (ih ts.length (Nat.lt_succ_of_le hle) ts rfl true false)
          obtain ⟨u, hu, hspells⟩ := sentence_of_reads hblocks hreads
          obtain ⟨hstmts, -, hrest⟩ := statements_step inBlock opening hreads hversion
          have hlt : rest.length < (l :: r).length := hreads.length_lt
          obtain ⟨us, hus⟩ := ih rest.length hlt rest rfl inBlock false hnext
          refine ⟨u :: us, ?_, ?_, ?_, ?_⟩
          · rw [hstmts]
            exact .cons hu hus.sentences
          · rw [hrest, List.flatten_cons]
            exact spells_append.2 ⟨rest, hspells, hus.spells⟩
          · rw [hstmts]
            exact ⟨hversion, hus.versionFirst⟩
          · rw [hrest]
            exact hus.stops

end OpenQasm.Parser
