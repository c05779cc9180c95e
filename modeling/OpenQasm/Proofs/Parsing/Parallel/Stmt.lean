import OpenQasm.Proofs.Parsing.Locality.Stmt
import OpenQasm.Proofs.Parsing.Parallel.Expr

/-!
# Two runs on the same statements

The same for statements. A statement without a body ends at its semicolon, so on two lists
that agree up to there it is read, or refused, alike. Where the lists agree throughout, so
are statements with bodies, and the rounds of the loop that reads them one after the other.
-/
namespace OpenQasm.Parser

variable {k : Nat} {R S : List Lexeme → List Lexeme → Prop} {ts ts' : List Lexeme}

/-! Parts of statements -/

section Parts

variable (h : Paced k R S)

include h

theorem matches_typeSize (kind : TypeKind) (hts : R ts ts') :
    (typeSize kind ts).Matches k R R (typeSize kind ts') := by
  refine .ite (h.startsWith hts .lbracket) ?_ (.pure _ hts)
  refine (matches_expect h hts .lbracket (by decide)).andThen ?_
  intro _ rest rest' _ _ hrest
  refine (matches_expression h hrest).andThen ?_
  intro e rest₂ rest₂' _ _ hrest₂
  exact (matches_expect h hrest₂ .rbracket (by decide)).map _

theorem matches_typeSpec (hts : R ts ts') : (typeSpec ts).Matches k R R (typeSpec ts') := by
  cases ts with
  | nil =>
      obtain rfl := h.nil hts
      exact matches_reject h hts _
  | cons l r =>
      obtain ⟨l', r', rfl, hl, -, -, hr⟩ := h.cons hts
      cases htoken : l.token with
      | typeName kind =>
          simp only [typeSpec, hl, htoken]
          exact .next (matches_typeSize h kind (hr (by simp [htoken])))
      | _ =>
          simp only [typeSpec, hl, htoken]
          exact matches_reject h hts _

theorem matches_typedName (hts : R ts ts') : (typedName ts).Matches k R R (typedName ts') :=
  (matches_typeSpec h hts).andThen fun _ _ _ _ _ hrest => (matches_identifier h hrest).map _

theorem matches_typedNameTail (ts ts' : List Lexeme) (hts : R ts ts') :
    (typedNameTail ts).Matches k R R (typedNameTail ts') := by
  induction hn : ts.length using Nat.strong_induction_on generalizing ts ts' with
  | _ n ih =>
    subst hn
    refine matches_tail h ?_ ?_ ?_ (fun us us' _ hus => matches_typedName h hus)
      (fun us us' hlt hus => ih us.length hlt us us' hus rfl) hts
    · rw [typedNameTail]
    · intro l r hl
      rw [typedNameTail, if_pos hl]
    · intro l r hl
      rw [typedNameTail, if_neg hl]

theorem matches_signature (hts : R ts ts') : (signature ts).Matches k R R (signature ts') := by
  refine .ite (h.startsWith hts .rparen) ?_ ?_
  · exact (matches_expect h hts .rparen (by decide)).map _
  · refine (matches_typedName h hts).andThen ?_
    intro d rest rest' _ _ hrest
    refine (matches_typedNameTail h rest rest' hrest).andThen ?_
    intro ds rest₂ rest₂' _ _ hrest₂
    exact (matches_expect h hrest₂ .rparen (by decide)).map _

theorem matches_optionalNames (hts : R ts ts') :
    (optionalNames ts).Matches k R R (optionalNames ts') := by
  refine .ite (h.startsWith hts .lparen) ?_ (.pure [] hts)
  refine (matches_expect h hts .lparen (by decide)).andThen ?_
  intro _ rest rest' _ _ hrest
  refine .ite (h.startsWith hrest .rparen) ?_ ?_
  · exact (matches_expect h hrest .rparen (by decide)).map _
  · refine (matches_identifiers h hrest).andThen ?_
    intro names rest₂ rest₂' _ _ hrest₂
    exact (matches_expect h hrest₂ .rparen (by decide)).map _

theorem matches_modifierTail (kind : ModifierKind) (hts : R ts ts') :
    (modifierTail kind ts).Matches k R R (modifierTail kind ts') := by
  refine .ite (h.startsWith hts .lparen) ?_ ?_
  · refine (matches_expect h hts .lparen (by decide)).andThen ?_
    intro _ rest rest' _ _ hrest
    refine (matches_expression h hrest).andThen ?_
    intro e rest₂ rest₂' _ _ hrest₂
    refine (matches_expect h hrest₂ .rparen (by decide)).andThen ?_
    intro _ rest₃ rest₃' _ _ hrest₃
    exact (matches_expect h hrest₃ .atSign (by decide)).map _
  · split
    · exact matches_reject h hts _
    · exact (matches_expect h hts .atSign (by decide)).map _

theorem matches_modifiers (ts ts' : List Lexeme) (hts : R ts ts') :
    (modifiers ts).Matches k R R (modifiers ts') := by
  induction hn : ts.length using Nat.strong_induction_on generalizing ts ts' with
  | _ n ih =>
    subst hn
    cases ts with
    | nil =>
        obtain rfl := h.nil hts
        rw [modifiers]
        exact .pure [] hts
    | cons l r =>
        obtain ⟨l', r', rfl, hl, -, -, hr⟩ := h.cons hts
        cases htoken : l.token with
        | modifier kind =>
            simp only [modifiers, hl, htoken]
            refine .next ((matches_modifierTail h kind (hr (by simp [htoken]))).andThen ?_)
            intro m rest rest' hle _ hrest
            exact (ih rest.length (Nat.lt_succ_of_le hle) rest rest' hrest rfl).map (m :: ·)
        | _ =>
            simp only [modifiers, hl, htoken]
            exact .pure [] hts

theorem matches_optionalType (hts : R ts ts') :
    (optionalType ts).Matches k R R (optionalType ts') := by
  cases ts with
  | nil =>
      obtain rfl := h.nil hts
      exact .pure none hts
  | cons l r =>
      obtain ⟨l', r', rfl, hl, -, -, hr⟩ := h.cons hts
      cases htoken : l.token with
      | typeName kind =>
          simp only [optionalType, hl, htoken]
          exact .next ((matches_typeSize h kind (hr (by simp [htoken]))).map some)
      | _ =>
          simp only [optionalType, hl, htoken]
          exact .pure none hts

theorem matches_gateHeader (hts : R ts ts') :
    (gateHeader ts).Matches k R R (gateHeader ts') := by
  refine (matches_identifier h hts).andThen ?_
  intro name rest rest' _ _ hrest
  refine (matches_optionalNames h hrest).andThen ?_
  intro params rest₂ rest₂' _ _ hrest₂
  exact (matches_identifiers h hrest₂).map _

theorem matches_optionalIdentifiers (hts : R ts ts') :
    (optionalIdentifiers ts).Matches k R R (optionalIdentifiers ts') := by
  cases ts with
  | nil =>
      obtain rfl := h.nil hts
      exact .pure [] hts
  | cons l r =>
      obtain ⟨l', r', rfl, hl, -⟩ := h.cons hts
      cases htoken : l.token with
      | ident name =>
          simp only [optionalIdentifiers, hl, htoken]
          exact matches_identifiers h hts
      | _ =>
          simp only [optionalIdentifiers, hl, htoken]
          exact .pure [] hts

theorem matches_optionalResult (hts : R ts ts') :
    (optionalResult ts).Matches k R R (optionalResult ts') := by
  refine .ite (h.startsWith hts .arrow) ?_ (.pure none hts)
  refine (matches_expect h hts .arrow (by decide)).andThen ?_
  intro _ rest rest' _ _ hrest
  exact (matches_typeSpec h hrest).map some

theorem matches_subroutineHeader (hts : R ts ts') :
    (subroutineHeader ts).Matches k R R (subroutineHeader ts') := by
  refine (matches_identifier h hts).andThen ?_
  intro name rest rest' _ _ hrest
  refine (matches_expect h hrest .lparen (by decide)).andThen ?_
  intro _ rest₂ rest₂' _ _ hrest₂
  refine (matches_signature h hrest₂).andThen ?_
  intro params rest₃ rest₃' _ _ hrest₃
  refine (matches_optionalIdentifiers h hrest₃).andThen ?_
  intro qargs rest₄ rest₄' _ _ hrest₄
  exact (matches_optionalResult h hrest₄).map _

/-! Statements up to a semicolon -/

theorem matches_finishValue (e : Expr) (hts : R ts ts') :
    (finishValue e ts).Matches k R S (finishValue e ts') := by
  refine .ite (h.startsWith hts .arrow) ?_ ((matches_semicolon h hts).map _)
  refine (matches_expect h hts .arrow (by decide)).andThen ?_
  intro _ rest rest' _ _ hrest
  refine (matches_register h rest rest' hrest).andThen ?_
  intro target rest₂ rest₂' _ _ hrest₂
  exact (matches_semicolon h hrest₂).map _

theorem matches_applyTail (ms : List Modifier) (gate : Builtin) (hts : R ts ts') :
    (applyTail ms gate ts).Matches k R S (applyTail ms gate ts') := by
  refine (matches_optionalArguments h hts).andThen ?_
  intro params rest rest' _ _ hrest
  refine (matches_registers h rest rest' hrest).andThen ?_
  intro qargs rest₂ rest₂' _ _ hrest₂
  exact (matches_semicolon h hrest₂).map _

theorem matches_callTail (ms : List Modifier) (name : String) (hts : R ts ts') :
    (callTail ms name ts).Matches k R S (callTail ms name ts') := by
  refine (matches_optionalArguments h hts).andThen ?_
  intro params rest rest' _ _ hrest
  refine (matches_optionalRegisters h hrest).andThen ?_
  intro qargs rest₂ rest₂' _ _ hrest₂
  exact matches_finishValue h _ hrest₂

theorem matches_gateStatement (ms : List Modifier) (hts : R ts ts') :
    (gateStatement ms ts).Matches k R S (gateStatement ms ts') := by
  cases ts with
  | nil =>
      obtain rfl := h.nil hts
      exact matches_reject h hts _
  | cons l r =>
      obtain ⟨l', r', rfl, hl, -, -, hr⟩ := h.cons hts
      cases htoken : l.token with
      | builtin gate =>
          simp only [gateStatement, hl, htoken]
          exact .next (matches_applyTail h ms gate (hr (by simp [htoken])))
      | ident name =>
          simp only [gateStatement, hl, htoken]
          exact .next (matches_callTail h ms name (hr (by simp [htoken])))
      | _ =>
          simp only [gateStatement, hl, htoken]
          exact matches_reject h hts _

theorem matches_modified (kind : ModifierKind) (hts : R ts ts') :
    ((modifierTail kind ts).andThen fun m rest _ =>
      (modifiers rest).andThen fun ms rest' _ => gateStatement (m :: ms) rest').Matches k R S
    ((modifierTail kind ts').andThen fun m rest _ =>
      (modifiers rest).andThen fun ms rest' _ => gateStatement (m :: ms) rest') := by
  refine (matches_modifierTail h kind hts).andThen ?_
  intro m rest rest' _ _ hrest
  refine (matches_modifiers h rest rest' hrest).andThen ?_
  intro ms rest₂ rest₂' _ _ hrest₂
  exact matches_gateStatement h (m :: ms) hrest₂

theorem matches_versionTail (hts : R ts ts') :
    (versionTail ts).Matches k R S (versionTail ts') := by
  cases ts with
  | nil =>
      obtain rfl := h.nil hts
      exact matches_reject h hts _
  | cons l r =>
      obtain ⟨l', r', rfl, hl, hline, -, hr⟩ := h.cons hts
      cases htoken : l.token with
      | float v =>
          simp only [versionTail, hl, htoken]
          exact .next ((matches_semicolon h (hr (by simp [htoken]))).map _)
      | int v =>
          simp only [versionTail, hl, htoken]
          exact .next ((matches_semicolon h (hr (by simp [htoken]))).map _)
      | _ =>
          simp only [versionTail, hl, hline, htoken]
          exact ⟨rfl, rfl, hts⟩

theorem matches_includeTail (hts : R ts ts') :
    (includeTail ts).Matches k R S (includeTail ts') := by
  cases ts with
  | nil =>
      obtain rfl := h.nil hts
      exact matches_reject h hts _
  | cons l r =>
      obtain ⟨l', r', rfl, hl, -, -, hr⟩ := h.cons hts
      cases htoken : l.token with
      | string path =>
          simp only [includeTail, hl, htoken]
          exact .next ((matches_semicolon h (hr (by simp [htoken]))).map _)
      | _ =>
          simp only [includeTail, hl, htoken]
          exact matches_reject h hts _

theorem matches_constTail (hts : R ts ts') : (constTail ts).Matches k R S (constTail ts') := by
  refine (matches_optionalType h hts).andThen ?_
  intro type rest rest' _ _ hrest
  refine (matches_identifier h hrest).andThen ?_
  intro name rest₂ rest₂' _ _ hrest₂
  refine (matches_expect h hrest₂ .assign (by decide)).andThen ?_
  intro _ rest₃ rest₃' _ _ hrest₃
  refine (matches_expression h hrest₃).andThen ?_
  intro e rest₄ rest₄' _ _ hrest₄
  exact (matches_semicolon h hrest₄).map _

theorem matches_declareTail (kind : TypeKind) (hts : R ts ts') :
    (declareTail kind ts).Matches k R S (declareTail kind ts') := by
  refine (matches_typeSize h kind hts).andThen ?_
  intro type rest rest' _ _ hrest
  refine (matches_identifier h hrest).andThen ?_
  intro name rest₂ rest₂' _ _ hrest₂
  exact (matches_semicolon h hrest₂).map _

theorem matches_returnTail (hts : R ts ts') : (returnTail ts).Matches k R S (returnTail ts') := by
  refine .ite (h.startsWith hts .semicolon) ((matches_semicolon h hts).map _) ?_
  refine (matches_value h hts).andThen ?_
  intro e rest rest' _ _ hrest
  exact (matches_semicolon h hrest).map _

theorem matches_resetTail (hts : R ts ts') : (resetTail ts).Matches k R S (resetTail ts') := by
  refine (matches_registers h ts ts' hts).andThen ?_
  intro qargs rest rest' _ _ hrest
  exact (matches_semicolon h hrest).map _

theorem matches_printTail (hts : R ts ts') : (printTail ts).Matches k R S (printTail ts') := by
  refine .ite (h.startsWith hts .semicolon) ((matches_semicolon h hts).map _) ?_
  refine (matches_registers h ts ts' hts).andThen ?_
  intro args rest rest' _ _ hrest
  exact (matches_semicolon h hrest).map _

theorem matches_measureTail (hts : R ts ts') :
    (measureTail ts).Matches k R S (measureTail ts') := by
  refine (matches_optionalRegisters h hts).andThen ?_
  intro qargs rest rest' _ _ hrest
  exact matches_finishValue h _ hrest

theorem matches_assignTail (name : String) (hts : R ts ts') :
    (assignTail name ts).Matches k R S (assignTail name ts') := by
  refine (matches_position h name ts ts' hts).andThen ?_
  intro target rest rest' _ _ hrest
  refine (matches_expect h hrest .assign (by decide)).andThen ?_
  intro _ rest₂ rest₂' _ _ hrest₂
  refine (matches_value h hrest₂).andThen ?_
  intro e rest₃ rest₃' _ _ hrest₃
  exact (matches_semicolon h hrest₃).map _

end Parts

end OpenQasm.Parser
