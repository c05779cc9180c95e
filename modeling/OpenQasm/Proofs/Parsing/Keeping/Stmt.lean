import OpenQasm.Proofs.Parsing.Keeping.Expr
import OpenQasm.Proofs.Parsing.Locality.Stmt
import OpenQasm.Proofs.Parsing.Soundness.Stmt

/-!
# Statements keep their tokens

The same for statements. Where an error is noted lexemes are skipped, so for blocks and for
statements in a row the claim is made where nothing was noted.
-/
namespace OpenQasm.Parser

open Slot

/-! Types, names and modifiers -/

theorem keeps_typeSize (kind : TypeKind) {ts : List Lexeme} (h : Genuine ts) :
    (typeSize kind ts).Holds fun t rest =>
      Completes [.token (.typeName kind)] t.outline ts rest := by
  rw [typeSize]
  split
  · refine (keeps_expect h).andThen ?_
    intro _ rest _ hrest hopen
    refine (keeps_expression hrest).andThen ?_
    intro e rest' _ hrest' he
    refine keeps_expect_map hrest' fun rest'' hclose => ?_
    exact ⟨_, rfl, hopen.append (he.append hclose)⟩
  · exact .pure h ⟨[], rfl, .nil _⟩

theorem keeps_typeSpec {ts : List Lexeme} (h : Genuine ts) :
    (typeSpec ts).Holds fun t rest => Fills t.outline ts rest := by
  cases ts with
  | nil => exact holds_reject h _
  | cons l r =>
      rw [typeSpec]
      split
      · rename_i kind hkind
        refine .next ((keeps_typeSize kind h.tail).mono ?_)
        intro t rest ht
        exact ht.fills (.token hkind r)
      · exact holds_reject h _

theorem keeps_typedName {ts : List Lexeme} (h : Genuine ts) :
    (typedName ts).Holds fun d rest => Fills d.outline ts rest := by
  rw [typedName]
  refine (keeps_typeSpec h).andThen ?_
  intro type rest _ hrest htype
  refine .map ((keeps_identifier hrest).mono ?_)
  intro name rest' hname
  exact htype.append hname

theorem keeps_typedNameTail (ts : List Lexeme) (h : Genuine ts) :
    (typedNameTail ts).Holds fun ds rest =>
      Fills (ds.flatMap fun d => sym .comma :: d.outline) ts rest := by
  cases ts with
  | nil =>
      rw [typedNameTail]
      exact .pure h (.nil _)
  | cons l r =>
      rw [typedNameTail]
      split
      · refine .next ((keeps_typedName h.tail).andThen ?_)
        intro d rest hle hrest hd
        refine .map ((keeps_typedNameTail rest hrest).mono ?_)
        intro ds rest' hds
        exact .cons ‹_› (hd.append hds)
      · exact .pure h (.nil _)
termination_by ts.length
decreasing_by
  subst_vars
  exact Nat.lt_succ_of_le hle

theorem keeps_signature {ts : List Lexeme} (h : Genuine ts) :
    (signature ts).Holds fun ds rest =>
      Fills (TypedName.outlines ds ++ [sym .rparen]) ts rest := by
  rw [signature]
  split
  · exact keeps_expect_map h fun rest hclose => hclose
  · refine (keeps_typedName h).andThen ?_
    intro d rest _ hrest hd
    refine (keeps_typedNameTail rest hrest).andThen ?_
    intro ds rest' _ hrest' hds
    refine keeps_expect_map hrest' fun rest'' hclose => ?_
    exact (hd.append hds).append hclose

theorem keeps_optionalNames {ts : List Lexeme} (h : Genuine ts) :
    (optionalNames ts).Holds fun names rest => Fills (Slot.names names) ts rest := by
  rw [optionalNames]
  split
  · refine (keeps_expect h).andThen ?_
    intro _ rest _ hrest hopen
    split
    · refine keeps_expect_map hrest fun rest' hclose => ?_
      exact Fills.stands false (hopen.append hclose)
    · refine (keeps_identifiers hrest).andThen ?_
      intro names rest' _ hrest' hnames
      refine keeps_expect_map hrest' fun rest'' hclose => ?_
      have hparens := hopen.append (hnames.append hclose)
      cases names with
      | nil => exact Fills.stands false hparens
      | cons name names => exact hparens
  · exact .pure h (.missing false ts)

theorem keeps_modifierTail (kind : ModifierKind) {ts : List Lexeme} (h : Genuine ts) :
    (modifierTail kind ts).Holds fun m rest =>
      Completes [.token (.modifier kind)] m.outline ts rest := by
  rw [modifierTail]
  split
  · refine (keeps_expect h).andThen ?_
    intro _ rest _ hrest hopen
    refine (keeps_expression hrest).andThen ?_
    intro e rest' _ hrest' he
    refine (keeps_expect hrest').andThen ?_
    intro _ rest'' _ hrest'' hclose
    refine keeps_expect_map hrest'' fun rest''' hat => ?_
    exact ⟨_, rfl, (hopen.append (he.append hclose)).append hat⟩
  · split
    · exact holds_reject h _
    · refine keeps_expect_map h fun rest hat => ?_
      exact ⟨_, rfl, hat⟩

theorem keeps_modifiers (ts : List Lexeme) (h : Genuine ts) :
    (modifiers ts).Holds fun ms rest => Fills (Modifier.outlines ms) ts rest := by
  cases ts with
  | nil =>
      rw [modifiers]
      exact .pure h (.nil _)
  | cons l r =>
      rw [modifiers]
      split
      · rename_i kind hkind
        refine .next ((keeps_modifierTail kind h.tail).andThen ?_)
        intro m rest hle hrest hm
        refine .map ((keeps_modifiers rest hrest).mono ?_)
        intro ms rest' hms
        exact (hm.fills (.token hkind r)).append hms
      · exact .pure h (.nil _)
termination_by ts.length
decreasing_by
  subst_vars
  exact Nat.lt_succ_of_le hle

/-! Simple statements -/

theorem keeps_finishValue (e : Expr) {ts : List Lexeme} (h : Genuine ts) :
    (finishValue e ts).Holds fun c rest => Completes e.actionOutline c.outline ts rest := by
  rw [finishValue]
  split
  · refine (keeps_expect h).andThen ?_
    intro _ rest _ hrest harrow
    refine (keeps_register rest hrest).andThen ?_
    intro target rest' _ hrest' htarget
    refine keeps_expect_map hrest' fun rest'' hsemi => ?_
    exact ⟨_, rfl, harrow.append (htarget.append hsemi)⟩
  · exact keeps_expect_map h fun rest hsemi => ⟨_, rfl, hsemi⟩

theorem keeps_applyTail (ms : List Modifier) (gate : Builtin) {ts : List Lexeme}
    (h : Genuine ts) : (applyTail ms gate ts).Holds fun c rest =>
      Completes (Modifier.outlines ms ++ [.token (.builtin gate)]) c.outline ts rest := by
  rw [applyTail]
  refine (keeps_optionalArguments h).andThen ?_
  intro params rest _ hrest hparams
  refine (keeps_registers rest hrest).andThen ?_
  intro qargs rest' _ hrest' hqargs
  refine keeps_expect_map hrest' fun rest'' hsemi => ?_
  refine ⟨_, ?_, (hparams false).append (hqargs.2.append hsemi)⟩
  rw [Stmt.outline, List.append_assoc, List.singleton_append]

theorem keeps_callTail (ms : List Modifier) (name : String) {ts : List Lexeme}
    (h : Genuine ts) : (callTail ms name ts).Holds fun c rest =>
      Completes (Modifier.outlines ms ++ [word name]) c.outline ts rest := by
  rw [callTail]
  refine (keeps_optionalArguments h).andThen ?_
  intro params rest _ hrest hparams
  refine (keeps_optionalRegisters hrest).andThen ?_
  intro qargs rest' _ hrest' hqargs
  refine (keeps_finishValue _ hrest').mono ?_
  rintro c rest'' ⟨ss, hc, hss⟩
  refine ⟨_, ?_, ((hparams qargs.isEmpty).append hqargs).append hss⟩
  rw [hc, Expr.actionOutline]
  simp only [List.append_assoc, List.cons_append, List.nil_append]

theorem keeps_gateStatement (ms : List Modifier) {ts : List Lexeme} (h : Genuine ts) :
    (gateStatement ms ts).Holds fun c rest =>
      Completes (Modifier.outlines ms) c.outline ts rest := by
  cases ts with
  | nil => exact holds_reject h _
  | cons l r =>
      rw [gateStatement]
      split
      · rename_i gate hgate
        refine .next ((keeps_applyTail ms gate h.tail).mono ?_)
        rintro c rest ⟨ss, hc, hss⟩
        refine ⟨_, ?_, .cons hgate hss⟩
        rw [hc, List.append_assoc, List.singleton_append]
      · rename_i name hname
        have hl := h.head
        rw [hname] at hl
        refine .next ((keeps_callTail ms name h.tail).mono ?_)
        rintro c rest ⟨ss, hc, hss⟩
        refine ⟨_, ?_, .cons (hname.trans (ofWord_of_genuine hl).symm) hss⟩
        rw [hc, List.append_assoc, List.singleton_append]
        rfl
      · exact holds_reject h _

theorem keeps_versionTail {ts : List Lexeme} (h : Genuine ts) :
    (versionTail ts).Holds fun c rest =>
      Completes [.token (.keyword .openqasm)] c.outline ts rest := by
  cases ts with
  | nil => exact holds_reject h _
  | cons l r =>
      have hl := h.head
      rw [versionTail]
      split
      · rename_i v hv
        rw [hv] at hl
        refine .next (keeps_expect_map h.tail fun rest hsemi => ⟨_, ?_, .cons hv hsemi⟩)
        simp [Stmt.outline, Stmt.layout, number_float hl, ofPieces]
        rfl
      · rename_i v hv
        rw [hv] at hl
        refine .next (keeps_expect_map h.tail fun rest hsemi => ⟨_, ?_, .cons hv hsemi⟩)
        simp [Stmt.outline, Stmt.layout, number_int hl, ofPieces]
        rfl
      · exact h

theorem keeps_includeTail {ts : List Lexeme} (h : Genuine ts) :
    (includeTail ts).Holds fun c rest =>
      Completes [.token (.keyword .includes)] c.outline ts rest := by
  cases ts with
  | nil => exact holds_reject h _
  | cons l r =>
      rw [includeTail]
      split
      · rename_i path hpath
        exact .next (keeps_expect_map h.tail fun rest hsemi => ⟨_, rfl, .cons hpath hsemi⟩)
      · exact holds_reject h _

theorem keeps_optionalType {ts : List Lexeme} (h : Genuine ts) :
    (optionalType ts).Holds fun type rest => Fills (TypeSpec.outlineOption type) ts rest := by
  cases ts with
  | nil => exact .pure h (.nil _)
  | cons l r =>
      rw [optionalType]
      split
      · rename_i kind hkind
        refine .next (.map ((keeps_typeSize kind h.tail).mono ?_))
        intro t rest ht
        exact ht.fills (.token hkind r)
      · exact .pure h (.nil _)

theorem keeps_constTail {ts : List Lexeme} (h : Genuine ts) :
    (constTail ts).Holds fun c rest =>
      Completes [.token (.keyword .const)] c.outline ts rest := by
  rw [constTail]
  refine (keeps_optionalType h).andThen ?_
  intro type rest _ hrest htype
  refine (keeps_identifier hrest).andThen ?_
  intro name rest' _ hrest' hname
  refine (keeps_expect hrest').andThen ?_
  intro _ rest'' _ hrest'' hassign
  refine (keeps_expression hrest'').andThen ?_
  intro e rest''' _ hrest''' he
  refine keeps_expect_map hrest''' fun last hsemi => ?_
  exact ⟨_, rfl, htype.append (hname.append (hassign.append (he.append hsemi)))⟩

theorem keeps_declareTail (kind : TypeKind) {ts : List Lexeme} (h : Genuine ts) :
    (declareTail kind ts).Holds fun c rest =>
      Completes [.token (.typeName kind)] c.outline ts rest := by
  rw [declareTail]
  refine (keeps_typeSize kind h).andThen ?_
  rintro type rest _ hrest ⟨ss, htype, hss⟩
  refine (keeps_identifier hrest).andThen ?_
  intro name rest' _ hrest' hname
  refine keeps_expect_map hrest' fun rest'' hsemi => ?_
  refine ⟨_, ?_, (hss.append hname).append hsemi⟩
  rw [Stmt.outline, TypedName.outline, htype]
  simp only [List.append_assoc]

theorem keeps_returnTail {ts : List Lexeme} (h : Genuine ts) :
    (returnTail ts).Holds fun c rest =>
      Completes [.token (.keyword .returns)] c.outline ts rest := by
  rw [returnTail]
  split
  · exact keeps_expect_map h fun rest hsemi => ⟨_, rfl, hsemi⟩
  · refine (keeps_value h).andThen ?_
    intro e rest _ hrest he
    exact keeps_expect_map hrest fun rest' hsemi => ⟨_, rfl, he.append hsemi⟩

theorem keeps_resetTail {ts : List Lexeme} (h : Genuine ts) :
    (resetTail ts).Holds fun c rest =>
      Completes [.token (.keyword .reset)] c.outline ts rest := by
  rw [resetTail]
  refine (keeps_registers ts h).andThen ?_
  intro qargs rest _ hrest hqargs
  exact keeps_expect_map hrest fun rest' hsemi => ⟨_, rfl, hqargs.2.append hsemi⟩

theorem keeps_printTail {ts : List Lexeme} (h : Genuine ts) :
    (printTail ts).Holds fun c rest =>
      Completes [.token (.keyword .print)] c.outline ts rest := by
  rw [printTail]
  split
  · exact keeps_expect_map h fun rest hsemi => ⟨_, rfl, hsemi⟩
  · refine (keeps_registers ts h).andThen ?_
    intro args rest _ hrest hargs
    exact keeps_expect_map hrest fun rest' hsemi => ⟨_, rfl, hargs.2.append hsemi⟩

theorem keeps_measureTail {ts : List Lexeme} (h : Genuine ts) :
    (measureTail ts).Holds fun c rest =>
      Completes [.token (.keyword .measure)] c.outline ts rest := by
  rw [measureTail]
  refine (keeps_optionalRegisters h).andThen ?_
  intro qargs rest _ hrest hqargs
  refine (keeps_finishValue _ hrest).mono ?_
  rintro c rest' ⟨ss, hc, hss⟩
  exact ⟨_, hc, hqargs.append hss⟩

theorem keeps_assignTail (name : String) {ts : List Lexeme} (h : Genuine ts) :
    (assignTail name ts).Holds fun c rest => Completes [word name] c.outline ts rest := by
  rw [assignTail]
  refine (keeps_position name ts h).andThen ?_
  rintro target rest _ hrest ⟨ss, htarget, hss⟩
  refine (keeps_expect hrest).andThen ?_
  intro _ rest' _ hrest' hassign
  refine (keeps_value hrest').andThen ?_
  intro e rest'' _ hrest'' he
  refine keeps_expect_map hrest'' fun last hsemi => ?_
  refine ⟨_, ?_, hss.append (hassign.append (he.append hsemi))⟩
  rw [Stmt.outline, htarget, List.append_assoc]
  rfl

/-! Definitions -/

theorem keeps_gateHeader {ts : List Lexeme} (h : Genuine ts) :
    (gateHeader ts).Holds fun header rest =>
      Fills (word header.1 :: (Slot.names header.2.1 ++ ofPieces (Layout.names header.2.2)))
        ts rest := by
  rw [gateHeader]
  refine (keeps_identifier h).andThen ?_
  intro name rest _ hrest hname
  refine (keeps_optionalNames hrest).andThen ?_
  intro params rest' _ hrest' hparams
  refine .map ((keeps_identifiers hrest').mono ?_)
  intro qargs rest'' hqargs
  exact hname.append (hparams.append hqargs)

theorem keeps_optionalIdentifiers {ts : List Lexeme} (h : Genuine ts) :
    (optionalIdentifiers ts).Holds fun names rest =>
      Fills (ofPieces (Layout.names names)) ts rest := by
  cases ts with
  | nil => exact .pure h (.nil _)
  | cons l r =>
      rw [optionalIdentifiers]
      split
      · exact keeps_identifiers h
      · exact .pure h (.nil _)

theorem keeps_optionalResult {ts : List Lexeme} (h : Genuine ts) :
    (optionalResult ts).Holds fun type rest => Fills (TypeSpec.outlineResult type) ts rest := by
  rw [optionalResult]
  split
  · refine (keeps_expect h).andThen ?_
    intro _ rest _ hrest harrow
    refine .map ((keeps_typeSpec hrest).mono ?_)
    intro t rest' ht
    exact harrow.append ht
  · exact .pure h (.nil _)

theorem keeps_subroutineHeader {ts : List Lexeme} (h : Genuine ts) :
    (subroutineHeader ts).Holds fun header rest =>
      Fills (word header.1 :: (parens (TypedName.outlines header.2.1) ++
        (ofPieces (Layout.names header.2.2.1) ++ TypeSpec.outlineResult header.2.2.2)))
        ts rest := by
  rw [subroutineHeader]
  refine (keeps_identifier h).andThen ?_
  intro name rest _ hrest hname
  refine (keeps_expect hrest).andThen ?_
  intro _ rest' _ hrest' hopen
  refine (keeps_signature hrest').andThen ?_
  intro params rest'' _ hrest'' hparams
  refine (keeps_optionalIdentifiers hrest'').andThen ?_
  intro qargs rest''' _ hrest''' hqargs
  refine .map ((keeps_optionalResult hrest''').mono ?_)
  intro result last hresult
  exact hname.append ((hopen.append hparams).append (hqargs.append hresult))

/-! Statements in a row -/

theorem Reply.Holds.of_yields {ε α : Type} {P : α → List Lexeme → Prop} {ts rest : List Lexeme}
    {r : Reply ε ts α} {a : α} (h : r.Holds P) (hyields : r.Yields a rest) :
    Genuine rest ∧ P a rest := by
  cases r with
  | fail => exact absurd hyields id
  | done =>
      obtain ⟨rfl, rfl⟩ := hyields
      exact h

/-- A block that is read without an error keeps its tokens. -/
def BlockKeeps (ts : List Lexeme) : Prop :=
  ∀ ss rest, (block ts).Yields (ss, []) rest → Fills (Stmt.outlineBody ss) ts rest

section Statement

variable {l : Lexeme} {r rest : List Lexeme} {c : Stmt}

theorem fills_of_tail {p : (ts : List Lexeme) → Reply ParseError ts Stmt}
    (hstatement : statement l r = some (p r).noted)
    (hp : (p r).Holds fun c rest => Completes [.token l.token] c.outline r rest)
    (h : Reads (l :: r) c rest) : Fills c.outline (l :: r) rest := by
  obtain ⟨_, _, reply, ⟨⟩, hreply, hyields⟩ := h
  rw [hstatement] at hreply
  cases hreply
  exact (hp.of_yields hyields.of_noted).2.fills (.token rfl r)

theorem fills_of_body {α : Type} {header : (ts : List Lexeme) → Reply ParseError ts α}
    {f : α → List Stmt → Stmt} {ss : α → List Slot}
    (hstatement : statement l r = some (((header r).mapError fun e => [e]).andThen fun a rest _ =>
      (body rest).map fun p => (f a p.1, p.2)))
    (houtline : ∀ a stmts, (f a stmts).outline =
      .token l.token :: (ss a ++ sym .lbrace :: Stmt.outlineBody stmts))
    (hheader : (header r).Holds fun a rest => Fills (ss a) r rest)
    (hblocks : ∀ us, us.length ≤ r.length → Genuine us → BlockKeeps us)
    (h : Reads (l :: r) c rest) : Fills c.outline (l :: r) rest := by
  obtain ⟨_, _, reply, ⟨⟩, hreply, hyields⟩ := h
  rw [hstatement] at hreply
  cases hreply
  obtain ⟨a, mid, stmts, hhead, hbody, rfl⟩ := yields_definition.1 hyields
  obtain ⟨hmid, hfills⟩ := hheader.of_yields hhead
  obtain ⟨lb, rb, rfl, hlb, hblock⟩ := yields_body_iff.1 hbody
  have hle : rb.length ≤ r.length := by
    obtain ⟨used, -, rfl⟩ := hfills
    simp
    omega
  rw [houtline]
  exact .cons rfl (hfills.append (.cons hlb (hblocks rb hle hmid.tail stmts rest hblock)))

theorem fills_of_keyword {word : Keyword} (ht : l.token = .keyword word) (hr : Genuine r)
    (hblocks : ∀ us, us.length ≤ r.length → Genuine us → BlockKeeps us)
    (h : Reads (l :: r) c rest) : Fills c.outline (l :: r) rest := by
  cases word with
  | openqasm => exact fills_of_tail (by rw [statement, ht]) (ht ▸ keeps_versionTail hr) h
  | includes => exact fills_of_tail (by rw [statement, ht]) (ht ▸ keeps_includeTail hr) h
  | const => exact fills_of_tail (by rw [statement, ht]) (ht ▸ keeps_constTail hr) h
  | gate =>
      refine fills_of_body (f := fun a ss => .gate a.1 a.2.1 a.2.2 ss)
        (by rw [statement, ht]) ?_ (keeps_gateHeader hr) hblocks h
      intro a stmts
      rw [Stmt.outline, ht, List.cons_append, List.append_assoc]
  | defn =>
      refine fills_of_body (f := fun a ss => .subroutine a.1 a.2.1 a.2.2.1 a.2.2.2 ss)
        (by rw [statement, ht]) ?_ (keeps_subroutineHeader hr) hblocks h
      intro a stmts
      rw [Stmt.outline, ht, List.cons_append, List.append_assoc, List.append_assoc]
  | returns => exact fills_of_tail (by rw [statement, ht]) (ht ▸ keeps_returnTail hr) h
  | reset => exact fills_of_tail (by rw [statement, ht]) (ht ▸ keeps_resetTail hr) h
  | print => exact fills_of_tail (by rw [statement, ht]) (ht ▸ keeps_printTail hr) h
  | measure => exact fills_of_tail (by rw [statement, ht]) (ht ▸ keeps_measureTail hr) h

theorem fills_of_modifier {kind : ModifierKind} (ht : l.token = .modifier kind) (hr : Genuine r)
    (h : Reads (l :: r) c rest) : Fills c.outline (l :: r) rest := by
  refine fills_of_tail (p := fun ts => (modifierTail kind ts).andThen fun m rest _ =>
    (modifiers rest).andThen fun ms rest' _ => gateStatement (m :: ms) rest')
    (by rw [statement, ht]) ?_ h
  rw [ht]
  refine (keeps_modifierTail kind hr).andThen ?_
  rintro m rest _ hrest ⟨ss, hm, hss⟩
  refine (keeps_modifiers rest hrest).andThen ?_
  intro ms rest' _ hrest' hms
  refine (keeps_gateStatement (m :: ms) hrest').mono ?_
  rintro c rest'' ⟨ss', hc, hss'⟩
  refine ⟨_, ?_, (hss.append hms).append hss'⟩
  rw [hc, Modifier.outlines, hm]
  simp only [List.append_assoc]

theorem fills_of_ident {name : String} (ht : l.token = .ident name) (hl : l.token.Genuine)
    (hr : Genuine r) (h : Reads (l :: r) c rest) : Fills c.outline (l :: r) rest := by
  rw [ht] at hl
  have hword : Slot.token l.token = word name := by
    rw [word, ofWord_of_genuine hl, ht]
  cases hassign : startsWith .assign r || startsWith .lbracket r with
  | true =>
      exact fills_of_tail (by rw [statement, ht]; exact if_pos hassign)
        (hword ▸ keeps_assignTail name hr) h
  | false =>
      exact fills_of_tail (by rw [statement, ht]; exact if_neg (by simp [hassign]))
        (hword ▸ keeps_callTail [] name hr) h

theorem fills_of_brace (ht : l.token = .symbol .lbrace) (hblock : BlockKeeps r)
    (h : Reads (l :: r) c rest) : Fills c.outline (l :: r) rest := by
  obtain ⟨_, _, reply, ⟨⟩, hreply, hyields⟩ := h
  rw [statement, ht] at hreply
  cases hreply
  obtain ⟨⟨ss, errors⟩, hyields, heq⟩ := hyields.of_map
  cases heq
  exact .cons ht (hblock ss rest hyields)

/-- A statement that is read without an error keeps its tokens. -/
theorem keeps_statement (hl : l.token.Genuine) (hr : Genuine r)
    (hblocks : ∀ us, us.length ≤ r.length → Genuine us → BlockKeeps us)
    (h : Reads (l :: r) c rest) : Fills c.outline (l :: r) rest := by
  have hsome := h.statement_ne_none
  cases ht : l.token with
  | keyword word => exact fills_of_keyword ht hr hblocks h
  | typeName kind =>
      exact fills_of_tail (by rw [statement, ht]) (ht ▸ keeps_declareTail kind hr) h
  | modifier kind => exact fills_of_modifier ht hr h
  | builtin gate =>
      exact fills_of_tail (by rw [statement, ht]) (ht ▸ keeps_applyTail [] gate hr) h
  | ident name => exact fills_of_ident ht hl hr h
  | symbol s =>
      cases s with
      | lbrace => exact fills_of_brace ht (hblocks r (Nat.le_refl _) hr) h
      | _ =>
          rw [statement, ht] at hsome
          exact absurd rfl hsome
  | _ =>
      rw [statement, ht] at hsome
      exact absurd rfl hsome

end Statement

theorem blockKeeps_of_statements {ts : List Lexeme}
    (h : (statements true false ts).errors = [] →
      Fills ((statements true false ts).statements.flatMap Stmt.outline) ts
        (statements true false ts).rest) : BlockKeeps ts := by
  intro ss rest hblock
  rw [block] at hblock
  obtain ⟨_, hexpect, heq⟩ := hblock.of_later.of_mapError.of_map
  obtain ⟨rfl, herrors⟩ := Prod.mk.inj heq
  obtain ⟨l, hleft, hl⟩ := of_yields_expect hexpect
  have hfills := h herrors
  rw [hleft] at hfills
  rw [Stmt.outlineBody_eq]
  exact hfills.append (.token hl rest)

/-- Statements that are read without an error keep their tokens. -/
theorem keeps_statements (inBlock opening : Bool) (ts : List Lexeme) (h : Genuine ts)
    (herrors : (statements inBlock opening ts).errors = []) :
    Fills ((statements inBlock opening ts).statements.flatMap Stmt.outline) ts
      (statements inBlock opening ts).rest := by
  induction hn : ts.length using Nat.strong_induction_on generalizing ts inBlock opening with
  | _ n ih =>
    subst hn
    cases ts with
    | nil =>
        rw [statements]
        exact .nil _
    | cons l r =>
        by_cases hbrace : (inBlock && decide (l.token = .symbol .rbrace)) = true
        · rw [statements, if_pos hbrace]
          exact .nil _
        · obtain ⟨c, rest, hreads, hversion, hnext⟩ := reads_of_statements herrors hbrace
          have hblocks : ∀ us, us.length ≤ r.length → Genuine us → BlockKeeps us :=
            fun us hle hus => blockKeeps_of_statements fun hinner =>
              ih us.length (Nat.lt_succ_of_le hle) true false us hus hinner rfl
          have hfills := keeps_statement h.head h.tail hblocks hreads
          have hrest : Genuine rest := by
            obtain ⟨used, -, heq⟩ := hfills
            exact fun l' hl' => h l' (heq ▸ List.mem_append_right used hl')
          obtain ⟨hstmts, -, hleft⟩ := statements_step inBlock opening hreads hversion
          rw [hstmts, hleft, List.flatMap_cons]
          exact hfills.append
            (ih rest.length hreads.length_lt inBlock false rest hrest hnext rfl)

end OpenQasm.Parser
