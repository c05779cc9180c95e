import OpenQasm.Proofs.Lexing.SelfReading
import OpenQasm.Parser.Stmt
import OpenQasm.Syntax.Layout

/-!
# Trees the parser builds

A tree is canonical if the grammar has a text for it in which no parentheses have
to be added. Operands bind at least as tightly as their place asks for; names and
literals are tokens; only the calls and gate applications that are statements of
their own carry modifiers, and only a statement or the right side of one is a
measurement. The registers after a call run up to the first token that no comma
joins on, so in a list of arguments only the last one may end with such registers.
-/
namespace OpenQasm

/-- A name that is written as an identifier. -/
def IsName (name : String) : Prop := (Token.ident name).Genuine

/-- A literal whose text is one token of its kind. -/
def Literal.Canonical (l : Literal) : Prop :=
  match l.kind with
  | .int => (Token.int l.text).Genuine
  | .float => (Token.float l.text).Genuine
  | .string => (Token.string l.text).Genuine

/-- Whether the last token of an expression is one of the registers of a call. -/
def Expr.endsInRegisters : Expr → Bool
  | .binary _ _ r => r.endsInRegisters
  | .unary _ e => e.endsInRegisters
  | .call _ _ _ qs => !qs.isEmpty
  | _ => false

mutual

/-- An expression that can be read where an operand can. -/
def Expr.Canonical : Expr → Prop
  | .ident n => IsName n ∨ ∃ c : MathConstant, n = c.text
  | .index n i => IsName n ∧ i.Canonical
  | .lit l => l.Canonical
  | .binary op l r =>
      l.Canonical ∧ r.Canonical ∧ l.looser op.precedence = false ∧
        r.looser (op.precedence + 1) = false
  | .unary _ e => e.Canonical ∧ e.looser UnaryOp.precedence = false
  | .call n ms ps qs => ms = [] ∧ IsName n ∧ Expr.CanonicalArguments ps ∧ Expr.CanonicalRegisters qs
  | .measure _ => False
  | .paren e => e.Canonical

def Expr.CanonicalArguments : List Expr → Prop
  | [] => True
  | e :: es =>
      e.Canonical ∧ (es ≠ [] → e.endsInRegisters = false) ∧ Expr.CanonicalArguments es

def Expr.CanonicalRegister : Expr → Prop
  | .ident n => IsName n
  | .index n i => IsName n ∧ i.Canonical
  | _ => False

def Expr.CanonicalRegisters : List Expr → Prop
  | [] => True
  | e :: es => e.CanonicalRegister ∧ Expr.CanonicalRegisters es

end

/-- The right side of an assignment or a return. -/
def Expr.CanonicalValue : Expr → Prop
  | .measure qs => Expr.CanonicalRegisters qs
  | e => e.Canonical

def Modifier.Canonical (m : Modifier) : Prop :=
  (m.kind = .pow → m.arg ≠ none) ∧ ∀ e ∈ m.arg, e.Canonical

/-- A call or a measurement that is a statement, or the left side of an arrow. -/
def Expr.CanonicalAction : Expr → Prop
  | .call n ms ps qs =>
      (∀ m ∈ ms, m.Canonical) ∧ IsName n ∧ Expr.CanonicalArguments ps ∧ Expr.CanonicalRegisters qs
  | .measure qs => Expr.CanonicalRegisters qs
  | _ => False

def TypeSpec.Canonical (t : TypeSpec) : Prop := ∀ e ∈ t.size, e.Canonical

def TypedName.Canonical (d : TypedName) : Prop := d.type.Canonical ∧ IsName d.name

mutual

/-- A statement the grammar has a text for. -/
def Stmt.Canonical : Stmt → Prop
  | .version v => (Token.float v).Genuine ∨ (Token.int v).Genuine
  | .includes path => (Token.string path).Genuine
  | .declare d => d.Canonical
  | .const type n e => (∀ t ∈ type, t.Canonical) ∧ IsName n ∧ e.Canonical
  | .gate n ps qs body =>
      IsName n ∧ (∀ p ∈ ps, IsName p) ∧ (qs ≠ [] ∧ ∀ q ∈ qs, IsName q) ∧ Stmt.CanonicalBody body
  | .subroutine n ps qs result body =>
      IsName n ∧ (∀ d ∈ ps, d.Canonical) ∧ (∀ q ∈ qs, IsName q) ∧ (∀ t ∈ result, t.Canonical) ∧
        Stmt.CanonicalBody body
  | .returns e => ∀ v ∈ e, v.CanonicalValue
  | .arrow e target => e.CanonicalAction ∧ target.CanonicalRegister
  | .assign target e => target.CanonicalRegister ∧ e.CanonicalValue
  | .reset qs => qs ≠ [] ∧ Expr.CanonicalRegisters qs
  | .print es => Expr.CanonicalRegisters es
  | .apply _ ms ps qs =>
      (∀ m ∈ ms, m.Canonical) ∧ Expr.CanonicalArguments ps ∧ qs ≠ [] ∧ Expr.CanonicalRegisters qs
  | .expr e => e.CanonicalAction
  | .block body => Stmt.CanonicalBody body

def Stmt.CanonicalBody : List Stmt → Prop
  | [] => True
  | s :: ss => s.Canonical ∧ Parser.isVersion s = false ∧ Stmt.CanonicalBody ss

end

def Program.Canonical (p : Program) : Prop :=
  match p.statements with
  | [] => True
  | s :: ss => s.Canonical ∧ Stmt.CanonicalBody ss

/-- A register is an expression too. -/
theorem Expr.CanonicalRegister.canonical {e : Expr} (h : e.CanonicalRegister) : e.Canonical := by
  cases e with
  | ident n => exact .inl h
  | index n i => exact h
  | _ => exact absurd h (by simp [Expr.CanonicalRegister])

end OpenQasm
