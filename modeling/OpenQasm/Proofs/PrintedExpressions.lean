import OpenQasm.Proofs.Parsing.Canonicity
import OpenQasm.Proofs.RoundTrip
import OpenQasm.Scope.Scope

/-!
# Printed expressions

The printer puts parentheses around a binary operand where its shape would be lost. Read
back, an expression therefore has parentheses of its own in these places, and is the same
otherwise: it is printed as before, and it is folded to the same constant or the same error.
-/
namespace OpenQasm

open OpenQasm.Parser Layout Piece

namespace Expr

def wrap (wanted : Bool) (e : Expr) : Expr := if wanted then .paren e else e

mutual

/-- An expression with the parentheses that the printer adds to binary operands. -/
def parenthesised : Expr → Expr
  | .ident n => .ident n
  | .index n i => .index n i.parenthesised
  | .lit l => .lit l
  | .binary op l r =>
      .binary op (wrap (l.looser op.precedence) l.parenthesised)
        (wrap (r.looser (op.precedence + 1)) r.parenthesised)
  | .unary op e => .unary op (wrap (e.looser UnaryOp.precedence) e.parenthesised)
  | .call n ms ps qs => .call n ms (parenthesisedAll ps) (parenthesisedAll qs)
  | .measure qs => .measure (parenthesisedAll qs)
  | .paren e => .paren e.parenthesised

def parenthesisedAll : List Expr → List Expr
  | [] => []
  | e :: es => e.parenthesised :: parenthesisedAll es

end

mutual

/-- An expression without its parentheses. -/
def bare : Expr → Expr
  | .ident n => .ident n
  | .index n i => .index n i.bare
  | .lit l => .lit l
  | .binary op l r => .binary op l.bare r.bare
  | .unary op e => .unary op e.bare
  | .call n ms ps qs => .call n ms (bareAll ps) (bareAll qs)
  | .measure qs => .measure (bareAll qs)
  | .paren e => e.bare

def bareAll : List Expr → List Expr
  | [] => []
  | e :: es => e.bare :: bareAll es

end

mutual

/-- An expression of any shape that is made of names, constants, indices, literals, operators,
parentheses, and calls without modifiers and registers. What is indexed or called has a name of
its own, and a constant stands alone. -/
def Printable : Expr → Prop
  | .ident n => IsName n ∨ ∃ c : MathConstant, n = c.text
  | .index n i => IsName n ∧ i.Printable
  | .lit l => l.Canonical
  | .binary _ l r => l.Printable ∧ r.Printable
  | .unary _ e => e.Printable
  | .call n ms ps qs => IsName n ∧ ms = [] ∧ PrintableAll ps ∧ qs = []
  | .measure _ => False
  | .paren e => e.Printable

def PrintableAll : List Expr → Prop
  | [] => True
  | e :: es => e.Printable ∧ PrintableAll es

end

/-! The parentheses are those of the printer -/

theorem layout_wrap (wanted : Bool) (e : Expr) :
    (wrap wanted e).layout = parens wanted e.layout := by
  cases wanted with
  | false => rfl
  | true => rw [wrap, if_pos rfl, layout]

theorem isEmpty_parenthesisedAll (es : List Expr) : (parenthesisedAll es).isEmpty = es.isEmpty := by
  cases es <;> rfl

theorem looser_parenthesised (p : Nat) (e : Expr) : e.parenthesised.looser p = e.looser p := by
  cases e <;> rfl

/-- In parentheses that are wanted wherever it binds less tightly, an expression binds tightly
enough. -/
theorem looser_wrap (p : Nat) (e : Expr) :
    (wrap (e.looser p) e.parenthesised).looser p = false := by
  cases hloose : e.looser p with
  | false => exact (looser_parenthesised p e).trans hloose
  | true => rfl

mutual

theorem layout_parenthesised : (e : Expr) → e.parenthesised.layout = e.layout
  | .ident n => rfl
  | .index n i => by rw [parenthesised, layout, layout, layout_parenthesised i]
  | .lit l => rfl
  | .binary op l r => by
      rw [parenthesised, layout, layout, looser_wrap, looser_wrap, layout_wrap, layout_wrap,
        layout_parenthesised l, layout_parenthesised r]
      rfl
  | .unary op e => by
      rw [parenthesised, layout, layout, looser_wrap, layout_wrap, layout_parenthesised e]
      rfl
  | .call n ms ps qs => by
      rw [parenthesised, layout, layout, isEmpty_parenthesisedAll, isEmpty_parenthesisedAll,
        layoutList_parenthesisedAll ps, layoutSuffix_parenthesisedAll qs]
  | .measure qs => by rw [parenthesised, layout, layout, layoutSuffix_parenthesisedAll qs]
  | .paren e => by rw [parenthesised, layout, layout, layout_parenthesised e]

theorem layoutTail_parenthesisedAll :
    (es : List Expr) → layoutTail (parenthesisedAll es) = layoutTail es
  | [] => rfl
  | e :: es => by
      rw [parenthesisedAll, layoutTail, layoutTail, layout_parenthesised e,
        layoutTail_parenthesisedAll es]

theorem layoutList_parenthesisedAll :
    (es : List Expr) → layoutList (parenthesisedAll es) = layoutList es
  | [] => rfl
  | e :: es => by
      rw [parenthesisedAll, layoutList, layoutList, layout_parenthesised e,
        layoutTail_parenthesisedAll es]

theorem layoutSuffix_parenthesisedAll :
    (es : List Expr) → layoutSuffix (parenthesisedAll es) = layoutSuffix es
  | [] => rfl
  | e :: es => by
      rw [parenthesisedAll, layoutSuffix, layoutSuffix, layout_parenthesised e,
        layoutTail_parenthesisedAll es]

end

theorem text_parenthesised (e : Expr) : e.parenthesised.text = e.text :=
  congrArg Piece.join (layout_parenthesised e)

/-! Apart from parentheses nothing changes -/

theorem bare_wrap (wanted : Bool) (e : Expr) : (wrap wanted e).bare = e.bare := by
  cases wanted with
  | false => rfl
  | true => rw [wrap, if_pos rfl, bare]

mutual

theorem bare_parenthesised : (e : Expr) → e.parenthesised.bare = e.bare
  | .ident n => rfl
  | .index n i => by rw [parenthesised, bare, bare, bare_parenthesised i]
  | .lit l => rfl
  | .binary op l r => by
      rw [parenthesised, bare, bare, bare_wrap, bare_wrap, bare_parenthesised l,
        bare_parenthesised r]
  | .unary op e => by rw [parenthesised, bare, bare, bare_wrap, bare_parenthesised e]
  | .call n ms ps qs => by
      rw [parenthesised, bare, bare, bareAll_parenthesisedAll ps, bareAll_parenthesisedAll qs]
  | .measure qs => by rw [parenthesised, bare, bare, bareAll_parenthesisedAll qs]
  | .paren e => by rw [parenthesised, bare, bare, bare_parenthesised e]

theorem bareAll_parenthesisedAll : (es : List Expr) → bareAll (parenthesisedAll es) = bareAll es
  | [] => rfl
  | e :: es => by
      rw [parenthesisedAll, bareAll, bareAll, bare_parenthesised e, bareAll_parenthesisedAll es]

end

/-! What is printed is canonical -/

theorem endsInRegisters_wrap {wanted : Bool} {e : Expr} (h : e.endsInRegisters = false) :
    (wrap wanted e).endsInRegisters = false := by
  cases wanted with
  | false => exact h
  | true => rfl

/-- A printed expression ends in no registers, so a comma may follow. -/
theorem endsInRegisters_parenthesised :
    (e : Expr) → e.Printable → e.parenthesised.endsInRegisters = false
  | .binary _ _ r, h => endsInRegisters_wrap (endsInRegisters_parenthesised r h.2)
  | .unary _ e, h => endsInRegisters_wrap (endsInRegisters_parenthesised e h)
  | .call n ms ps qs, h => by
      obtain ⟨-, -, -, rfl⟩ := h
      rfl
  | .measure _, h => absurd h id
  | .ident _, _ => rfl
  | .index _ _, _ => rfl
  | .lit _, _ => rfl
  | .paren _, _ => rfl

theorem canonical_wrap {wanted : Bool} {e : Expr} (h : e.Canonical) :
    (wrap wanted e).Canonical := by
  cases wanted with
  | false => exact h
  | true => exact h

mutual

theorem canonical_parenthesised : (e : Expr) → e.Printable → e.parenthesised.Canonical
  | .ident _, h => h
  | .index _ i, h => ⟨h.1, canonical_parenthesised i h.2⟩
  | .lit _, h => h
  | .binary _ l r, h =>
      ⟨canonical_wrap (canonical_parenthesised l h.1),
        canonical_wrap (canonical_parenthesised r h.2), looser_wrap _ l, looser_wrap _ r⟩
  | .unary _ e, h => ⟨canonical_wrap (canonical_parenthesised e h), looser_wrap _ e⟩
  | .call n ms ps qs, h => by
      obtain ⟨hn, rfl, hps, rfl⟩ := h
      exact ⟨rfl, hn, canonicalArguments_parenthesisedAll ps hps, trivial⟩
  | .measure _, h => absurd h id
  | .paren e, h => canonical_parenthesised e h

theorem canonicalArguments_parenthesisedAll :
    (es : List Expr) → PrintableAll es → CanonicalArguments (parenthesisedAll es)
  | [], _ => trivial
  | e :: es, h =>
      ⟨canonical_parenthesised e h.1, fun _ => endsInRegisters_parenthesised e h.1,
        canonicalArguments_parenthesisedAll es h.2⟩

end

end Expr

/-! Folding -/

section Folding

variable {R : Type} [Scalar R]

theorem Scope.fold_wrap (s : Scope R) (wanted : Bool) (e : Expr) :
    s.fold (e.wrap wanted) = s.fold e := by
  cases wanted with
  | false => rfl
  | true => rw [Expr.wrap, if_pos rfl, fold]

/-- An expression that is no constant is named by its text, which stays the same. -/
theorem Scope.fold_parenthesised (s : Scope R) : (e : Expr) → s.fold e.parenthesised = s.fold e
  | .ident _ => rfl
  | .index n i => by rw [Expr.parenthesised, fold, fold, fold_parenthesised s i]
  | .lit _ => rfl
  | .binary op l r => by
      rw [Expr.parenthesised, fold, fold, fold_wrap, fold_wrap, fold_parenthesised s l,
        fold_parenthesised s r]
  | .unary op e => by rw [Expr.parenthesised, fold, fold, fold_wrap, fold_parenthesised s e]
  | .call n ms ps qs => by
      have htext := Expr.text_parenthesised (.call n ms ps qs)
      rw [Expr.parenthesised] at htext ⊢
      rw [fold, fold, htext]
  | .measure qs => by
      have htext := Expr.text_parenthesised (.measure qs)
      rw [Expr.parenthesised] at htext ⊢
      rw [fold, fold, htext]
  | .paren e => by rw [Expr.parenthesised, fold, fold, fold_parenthesised s e]

end Folding

/-! Reading back -/

theorem Stmt.text_const {n : String} (hn : IsName n) (e : Expr) :
    (Stmt.const none n e).text = "const " ++ n ++ " = " ++ e.text ++ ";" := by
  have hname : (named n).text = n := by rw [named, hn.2]; rfl
  rw [← String.toList_inj, Stmt.text, toList_join, Stmt.layout]
  simp only [List.nil_append, chars_cons, chars_append, hname, String.toList_append, Expr.text,
    toList_join, List.append_assoc]
  rfl

/-- The declaration of a constant as any expression of the class is read back with the added
parentheses. Without parentheses both are the same, the text stays the same, and so does the
constant or the error that the expression is folded to. -/
theorem printed_expression_read (e : Expr) (he : e.Printable) :
    Program.parse ("const x = " ++ e.text ++ ";") = .ok ⟨[.const none "x" e.parenthesised]⟩ ∧
      e.parenthesised.bare = e.bare ∧ e.parenthesised.text = e.text ∧
      ∀ (R : Type) [Scalar R] (s : Scope R), s.fold e.parenthesised = s.fold e := by
  have hx : IsName "x" := by decide +kernel
  have hcanonical : (Stmt.const none "x" e.parenthesised).Canonical :=
    ⟨by simp, hx, Expr.canonical_parenthesised e he⟩
  have htext : (Stmt.const none "x" e.parenthesised).text = "const x = " ++ e.text ++ ";" := by
    rw [Stmt.text_const hx, Expr.text_parenthesised]
    rfl
  refine ⟨?_, Expr.bare_parenthesised e, Expr.text_parenthesised e, fun R _ s =>
    s.fold_parenthesised e⟩
  rw [← htext]
  exact Program.parse_statement hcanonical

def signedSum : Expr :=
  .binary .mul (.unary .neg (.binary .add (.lit ⟨.int, "1"⟩) (.ident "pi")))
    (.call "f" [] [.binary .sub (.index "q" (.lit ⟨.int, "2"⟩))
      (.binary .sub (.lit ⟨.float, "0.5"⟩) (.ident "x"))] [])

theorem signedSum_printable : signedSum.Printable := by
  have hf : IsName "f" := by decide +kernel
  have hq : IsName "q" := by decide +kernel
  have hx : IsName "x" := by decide +kernel
  have hone : (Token.int "1").Genuine := by decide +kernel
  have htwo : (Token.int "2").Genuine := by decide +kernel
  have hhalf : (Token.float "0.5").Genuine := by decide +kernel
  exact ⟨⟨hone, .inr ⟨.pi, rfl⟩⟩, hf, rfl, ⟨⟨⟨hq, htwo⟩, hhalf, .inl hx⟩, trivial⟩, rfl⟩

theorem printed_expression_read_signedSum :
    signedSum.text = "-(1 + pi) * f(q[2] - (0.5 - x))" ∧
      Program.parse ("const x = " ++ signedSum.text ++ ";") = .ok ⟨[.const none "x"
        (.binary .mul (.unary .neg (.paren (.binary .add (.lit ⟨.int, "1"⟩) (.ident "pi"))))
          (.call "f" [] [.binary .sub (.index "q" (.lit ⟨.int, "2"⟩))
            (.paren (.binary .sub (.lit ⟨.float, "0.5"⟩) (.ident "x")))] []))]⟩ :=
  ⟨by decide +kernel, (printed_expression_read signedSum signedSum_printable).1⟩

end OpenQasm
