import OpenQasm.Proofs.Parsing.Canonical

/-!
# Telling canonical trees

Whether a tree is canonical can be computed. Words are told letter by letter, and numbers by what
the scanner cuts off from them: a text has the shape of a number exactly if nothing of it is left
over. From there on the computation goes through a tree the way the definitions do, node by node.
-/
namespace OpenQasm

/-- What a list starts with and goes on with. The instances below name this one, since a search
could also come upon going through all characters. -/
def decideExistsCons {α : Type} (P : α → List α → Prop) [∀ a as, Decidable (P a as)] :
    (l : List α) → Decidable (∃ a as, l = a :: as ∧ P a as)
  | [] => .isFalse (by simp)
  | a :: as => decidable_of_iff (P a as) (by simp)

namespace Token

theorem isNumberTail_iff {real : Bool} {cs : List Char} :
    IsNumberTail real cs ↔ numberTail cs = (real, cs.length) := by
  constructor
  · intro h
    have hopens : Opens [] := fun c hc => by cases hc
    have hread := numberTail_append h hopens
    rwa [List.append_nil] at hread
  · intro h
    have htail := isNumberTail_take h
    rwa [List.take_length] at htail

instance (real : Bool) (cs : List Char) : Decidable (IsNumberTail real cs) :=
  decidable_of_iff _ isNumberTail_iff.symm

instance (real : Bool) (text : String) : Decidable (IsNumber real text) :=
  decideExistsCons (fun (c : Char) cs => c.isDigit = true ∧ IsNumberTail real cs) text.toList

theorem isWord_iff {text : String} : IsWord text ↔
    ∃ c cs, text.toList = c :: cs ∧ isWordStart c = true ∧ cs.all isWordPart = true := by
  simp only [IsWord, List.all_eq_true]

instance (text : String) : Decidable (IsWord text) :=
  haveI := decideExistsCons (fun c cs => isWordStart c = true ∧ cs.all isWordPart = true)
    text.toList
  decidable_of_iff _ isWord_iff.symm

instance : DecidablePred Genuine
  | ident name => inferInstanceAs (Decidable (IsWord name ∧ ofWord name = ident name))
  | int text => inferInstanceAs (Decidable (IsNumber false text))
  | float text => inferInstanceAs (Decidable (IsNumber true text))
  | string text => inferInstanceAs (Decidable ('"' ∉ text.toList ∨ '\'' ∉ text.toList))
  | blank | comment | keyword _ | typeName _ | modifier _ | builtin _ | constant _ | symbol _
  | illegal _ => .isTrue trivial

end Token

instance (name : String) : Decidable (IsName name) :=
  inferInstanceAs (Decidable (Token.ident name).Genuine)

instance : DecidablePred Literal.Canonical
  | ⟨.int, text⟩ => inferInstanceAs (Decidable (Token.int text).Genuine)
  | ⟨.float, text⟩ => inferInstanceAs (Decidable (Token.float text).Genuine)
  | ⟨.string, text⟩ => inferInstanceAs (Decidable (Token.string text).Genuine)

instance (name : String) : Decidable (∃ c : MathConstant, name = c.text) :=
  decidable_of_iff (∃ c ∈ MathConstant.all, name = c.text)
    ⟨fun ⟨c, _, h⟩ => ⟨c, h⟩, fun ⟨c, h⟩ => ⟨c, by cases c <;> decide, h⟩⟩

/-! Expressions -/

mutual

def Expr.decideCanonical : (e : Expr) → Decidable e.Canonical
  | .ident n => inferInstanceAs (Decidable (IsName n ∨ ∃ c : MathConstant, n = c.text))
  | .index n i =>
      haveI := i.decideCanonical
      inferInstanceAs (Decidable (IsName n ∧ i.Canonical))
  | .lit l => inferInstanceAs (Decidable l.Canonical)
  | .binary op l r =>
      haveI := l.decideCanonical
      haveI := r.decideCanonical
      inferInstanceAs (Decidable (l.Canonical ∧ r.Canonical ∧ l.looser op.precedence = false ∧
        r.looser (op.precedence + 1) = false))
  | .unary _ e =>
      haveI := e.decideCanonical
      inferInstanceAs (Decidable (e.Canonical ∧ e.looser UnaryOp.precedence = false))
  | .call n ms ps qs =>
      haveI := Expr.decideArguments ps
      haveI := Expr.decideRegisters qs
      inferInstanceAs (Decidable (ms = [] ∧ IsName n ∧ Expr.CanonicalArguments ps ∧
        Expr.CanonicalRegisters qs))
  | .measure _ => .isFalse id
  | .paren e => e.decideCanonical

def Expr.decideArguments : (es : List Expr) → Decidable (Expr.CanonicalArguments es)
  | [] => .isTrue trivial
  | e :: es =>
      haveI := e.decideCanonical
      haveI := Expr.decideArguments es
      inferInstanceAs (Decidable (e.Canonical ∧ (es ≠ [] → e.endsInRegisters = false) ∧
        Expr.CanonicalArguments es))

def Expr.decideRegister : (e : Expr) → Decidable e.CanonicalRegister
  | .ident n => inferInstanceAs (Decidable (IsName n))
  | .index n i =>
      haveI := i.decideCanonical
      inferInstanceAs (Decidable (IsName n ∧ i.Canonical))
  | .lit _ | .binary _ _ _ | .unary _ _ | .call _ _ _ _ | .measure _ | .paren _ => .isFalse id

def Expr.decideRegisters : (es : List Expr) → Decidable (Expr.CanonicalRegisters es)
  | [] => .isTrue trivial
  | e :: es =>
      haveI := e.decideRegister
      haveI := Expr.decideRegisters es
      inferInstanceAs (Decidable (e.CanonicalRegister ∧ Expr.CanonicalRegisters es))

end

instance : DecidablePred Expr.Canonical := Expr.decideCanonical

instance : DecidablePred Expr.CanonicalArguments := Expr.decideArguments

instance : DecidablePred Expr.CanonicalRegister := Expr.decideRegister

instance : DecidablePred Expr.CanonicalRegisters := Expr.decideRegisters

instance : DecidablePred Expr.CanonicalValue
  | .measure qs => inferInstanceAs (Decidable (Expr.CanonicalRegisters qs))
  | .ident n => inferInstanceAs (Decidable (Expr.ident n).Canonical)
  | .index n i => inferInstanceAs (Decidable (Expr.index n i).Canonical)
  | .lit l => inferInstanceAs (Decidable (Expr.lit l).Canonical)
  | .binary op l r => inferInstanceAs (Decidable (Expr.binary op l r).Canonical)
  | .unary op e => inferInstanceAs (Decidable (Expr.unary op e).Canonical)
  | .call n ms ps qs => inferInstanceAs (Decidable (Expr.call n ms ps qs).Canonical)
  | .paren e => inferInstanceAs (Decidable (Expr.paren e).Canonical)

instance : DecidablePred Modifier.Canonical := fun m =>
  inferInstanceAs (Decidable ((m.kind = .pow → m.arg ≠ none) ∧ ∀ e ∈ m.arg, e.Canonical))

instance : DecidablePred Expr.CanonicalAction
  | .call n ms ps qs => inferInstanceAs (Decidable ((∀ m ∈ ms, m.Canonical) ∧ IsName n ∧
      Expr.CanonicalArguments ps ∧ Expr.CanonicalRegisters qs))
  | .measure qs => inferInstanceAs (Decidable (Expr.CanonicalRegisters qs))
  | .ident _ | .index _ _ | .lit _ | .binary _ _ _ | .unary _ _ | .paren _ => .isFalse id

/-! Statements -/

instance : DecidablePred TypeSpec.Canonical := fun t =>
  inferInstanceAs (Decidable (∀ e ∈ t.size, e.Canonical))

instance : DecidablePred TypedName.Canonical := fun d =>
  inferInstanceAs (Decidable (d.type.Canonical ∧ IsName d.name))

mutual

def Stmt.decideCanonical : (s : Stmt) → Decidable s.Canonical
  | .version v => inferInstanceAs (Decidable ((Token.float v).Genuine ∨ (Token.int v).Genuine))
  | .includes path => inferInstanceAs (Decidable (Token.string path).Genuine)
  | .declare d => inferInstanceAs (Decidable d.Canonical)
  | .const type n e =>
      inferInstanceAs (Decidable ((∀ t ∈ type, t.Canonical) ∧ IsName n ∧ e.Canonical))
  | .gate n ps qs body =>
      haveI := Stmt.decideBody body
      inferInstanceAs (Decidable (IsName n ∧ (∀ p ∈ ps, IsName p) ∧
        (qs ≠ [] ∧ ∀ q ∈ qs, IsName q) ∧ Stmt.CanonicalBody body))
  | .subroutine n ps qs result body =>
      haveI := Stmt.decideBody body
      inferInstanceAs (Decidable (IsName n ∧ (∀ d ∈ ps, d.Canonical) ∧ (∀ q ∈ qs, IsName q) ∧
        (∀ t ∈ result, t.Canonical) ∧ Stmt.CanonicalBody body))
  | .returns e => inferInstanceAs (Decidable (∀ v ∈ e, v.CanonicalValue))
  | .arrow e target => inferInstanceAs (Decidable (e.CanonicalAction ∧ target.CanonicalRegister))
  | .assign target e => inferInstanceAs (Decidable (target.CanonicalRegister ∧ e.CanonicalValue))
  | .reset qs => inferInstanceAs (Decidable (qs ≠ [] ∧ Expr.CanonicalRegisters qs))
  | .print es => inferInstanceAs (Decidable (Expr.CanonicalRegisters es))
  | .apply _ ms ps qs => inferInstanceAs (Decidable ((∀ m ∈ ms, m.Canonical) ∧
      Expr.CanonicalArguments ps ∧ qs ≠ [] ∧ Expr.CanonicalRegisters qs))
  | .expr e => inferInstanceAs (Decidable e.CanonicalAction)
  | .block body => Stmt.decideBody body

def Stmt.decideBody : (ss : List Stmt) → Decidable (Stmt.CanonicalBody ss)
  | [] => .isTrue trivial
  | s :: ss =>
      haveI := s.decideCanonical
      haveI := Stmt.decideBody ss
      inferInstanceAs (Decidable (s.Canonical ∧ Parser.isVersion s = false ∧
        Stmt.CanonicalBody ss))

end

instance : DecidablePred Stmt.Canonical := Stmt.decideCanonical

instance : DecidablePred Stmt.CanonicalBody := Stmt.decideBody

instance : DecidablePred Program.Canonical
  | ⟨[]⟩ => .isTrue trivial
  | ⟨s :: ss⟩ => inferInstanceAs (Decidable (s.Canonical ∧ Stmt.CanonicalBody ss))

end OpenQasm
