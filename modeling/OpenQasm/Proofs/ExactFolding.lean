import Mathlib.Algebra.Group.Int.Defs
import OpenQasm.Scope.Scope

/-!
# Exact integers

Integers are folded without loss. Beside folding stands exact arithmetic on integers of any
size, and a fault of each step on its own: a divisor that is zero, or a result that 64 bits do
not hold. Folding yields the exact value if no step has a fault, and else reports the fault of
the step that is taken first.
-/
namespace OpenQasm

/-! One step -/

/-- The integers that 64 bits hold. -/
def InRange (v : Int) : Prop := -2 ^ 63 ≤ v ∧ v < 2 ^ 63

instance (v : Int) : Decidable (InRange v) := inferInstanceAs (Decidable (_ ∧ _))

/-- What is wrong with a step. -/
inductive Fault where
  | zeroDivisor
  | outOfRange
  deriving DecidableEq, Repr

/-- The exact result of a sign. -/
def UnaryOp.exact : UnaryOp → Int → Int
  | neg, a => -a
  | pos, a => a

/-- The exact result of an operation. Division rounds toward zero. -/
def BinaryOp.exact : BinaryOp → Int → Int → Int
  | add, a, b => a + b
  | sub, a, b => a - b
  | mul, a, b => a * b
  | div, a, b => a.tdiv b
  | mod, a, b => a.tmod b

def BinaryOp.divides : BinaryOp → Bool
  | div => true
  | mod => true
  | _ => false

/-- The fault of a result that 64 bits have to hold. -/
def rangeFault? (v : Int) : Option Fault := if InRange v then none else some .outOfRange

def UnaryOp.fault? (op : UnaryOp) (a : Int) : Option Fault := rangeFault? (op.exact a)

/-- The fault of an operation. A remainder is taken together with its quotient. -/
def BinaryOp.fault? (op : BinaryOp) (a b : Int) : Option Fault :=
  if op.divides ∧ b = 0 then some .zeroDivisor
  else if op = .mod then (rangeFault? (a.tdiv b)).or (rangeFault? (op.exact a b))
  else rangeFault? (op.exact a b)

theorem inRange_toInt (v : Int64) : InRange v.toInt := ⟨v.le_toInt, v.toInt_lt⟩

theorem int64?_of_inRange {v : Int} (h : InRange v) :
    ∃ w : Int64, int64? v = some w ∧ w.toInt = v := by
  have hmin : Int64.minValue.toInt ≤ v := h.1
  have hmax : v ≤ Int64.maxValue.toInt := Int.le_of_lt_add_one h.2
  refine ⟨Int64.ofInt v, if_pos ⟨hmin, hmax⟩, Int64.toInt_ofInt_of_le h.1 h.2⟩

theorem int64?_of_not_inRange {v : Int} (h : ¬InRange v) : int64? v = none := by
  refine if_neg fun hrange => h ⟨hrange.1, ?_⟩
  exact Int.lt_add_one_of_le hrange.2

/-- The fault that an error reports. -/
def EvalError.fault? : EvalError → Option Fault
  | .divisionByZero => some .zeroDivisor
  | .overflow _ => some .outOfRange
  | _ => none

theorem EvalError.fault?_eq_zeroDivisor_iff {e : EvalError} :
    e.fault? = some .zeroDivisor ↔ e = .divisionByZero := by
  cases e <;> simp [fault?]

theorem EvalError.fault?_eq_outOfRange_iff {e : EvalError} :
    e.fault? = some .outOfRange ↔ ∃ source, e = .overflow source := by
  cases e <;> simp [fault?]

/-- How a computation on integers ends: with the exact value, or with a fault. -/
def Computes {α : Type} (value : Int64 → α) (fault : Option Fault) (exact : Option Int)
    (result : Except EvalError α) : Prop :=
  match fault with
  | none => ∃ v : Int64, exact = some v.toInt ∧ result = .ok (value v)
  | some f => ∃ e : EvalError, result = .error e ∧ e.fault? = some f

section Computes

variable {α β : Type} {value : Int64 → α} {fault first second : Option Fault} {x y : Option Int}
  {result : Except EvalError α}

theorem Computes.map (f : α → β) (h : Computes value fault x result) :
    Computes (f ∘ value) fault x (result.map f) := by
  cases fault with
  | none =>
      obtain ⟨v, hx, rfl⟩ := h
      exact ⟨v, hx, rfl⟩
  | some a =>
      obtain ⟨e, rfl, he⟩ := h
      exact ⟨e, rfl, he⟩

/-- Of two computations in a row, the first one that fails decides. -/
theorem Computes.bind {value' : Int64 → β} {f : α → Except EvalError β}
    (h : Computes value first x result)
    (hf : ∀ v : Int64, x = some v.toInt → Computes value' second y (f (value v))) :
    Computes value' (first.or second) y (result >>= f) := by
  cases first with
  | none =>
      obtain ⟨v, hx, rfl⟩ := h
      exact hf v hx
  | some a =>
      obtain ⟨e, rfl, he⟩ := h
      exact ⟨e, rfl, he⟩

/-- A value that is checked against the range. -/
theorem computes_int64? (value : Int64 → α) (source : OverflowSource) (v : Int) :
    Computes value (rangeFault? v) (some v)
      (match int64? v with
        | some w => .ok (value w)
        | none => .error (.overflow source)) := by
  by_cases h : InRange v
  · obtain ⟨w, hw, rfl⟩ := int64?_of_inRange h
    rw [rangeFault?, if_pos h, hw]
    exact ⟨w, rfl, rfl⟩
  · rw [rangeFault?, if_neg h, int64?_of_not_inRange h]
    exact ⟨.overflow source, rfl, rfl⟩

end Computes

theorem toInt_eq_zero_iff {b : Int64} : b.toInt = 0 ↔ b = 0 := by
  rw [← Int64.toInt_inj]
  rfl

/-- An operation on integers yields the exact result, or reports its own fault. -/
theorem computes_foldInt (a : Int64) (op : BinaryOp) (b : Int64) :
    Computes id (op.fault? a.toInt b.toInt) (some (op.exact a.toInt b.toInt)) (foldInt a op b) := by
  cases op with
  | add => exact computes_int64? id _ _
  | sub => exact computes_int64? id _ _
  | mul => exact computes_int64? id _ _
  | div =>
      by_cases hb : b = 0
      · subst hb
        exact ⟨.divisionByZero, rfl, rfl⟩
      · have hfault : BinaryOp.fault? .div a.toInt b.toInt = rangeFault? (a.toInt.tdiv b.toInt) := by
          simp [BinaryOp.fault?, BinaryOp.exact, toInt_eq_zero_iff, hb]
        rw [hfault, foldInt, if_neg hb]
        exact computes_int64? id _ _
  | mod =>
      by_cases hb : b = 0
      · subst hb
        exact ⟨.divisionByZero, rfl, rfl⟩
      · have hfault : BinaryOp.fault? .mod a.toInt b.toInt =
            (rangeFault? (a.toInt.tdiv b.toInt)).or (rangeFault? (a.toInt.tmod b.toInt)) := by
          simp [BinaryOp.fault?, BinaryOp.exact, toInt_eq_zero_iff, hb]
        rw [hfault, foldInt, if_neg hb]
        by_cases hq : InRange (a.toInt.tdiv b.toInt)
        · obtain ⟨w, hw, -⟩ := int64?_of_inRange hq
          simp only [hw, rangeFault?, if_pos hq, Option.none_or]
          exact computes_int64? id _ _
        · simp only [int64?_of_not_inRange hq, rangeFault?, if_neg hq]
          exact ⟨_, rfl, rfl⟩

/-! Expressions -/

section Expressions

variable {R : Type} [Scalar R]

omit [Scalar R] in
/-- Expressions of integer literals, names of integers, parentheses, signs and operations. -/
inductive Expr.Integral (s : Scope R) : Expr → Prop
  | lit {l : Literal} : l.kind = .int → Integral s (.lit l)
  | ident {name : String} {v : Int64} : s.const? name = some (.int v) → Integral s (.ident name)
  | paren {e : Expr} : Integral s e → Integral s (.paren e)
  | unary {op : UnaryOp} {e : Expr} : Integral s e → Integral s (.unary op e)
  | binary {op : BinaryOp} {l r : Expr} :
      Integral s l → Integral s r → Integral s (.binary op l r)

/-- The sub-expressions in the order in which they are folded, each after its own parts. -/
def Expr.steps : Expr → List Expr
  | .paren e => e.steps ++ [.paren e]
  | .unary op e => e.steps ++ [.unary op e]
  | .binary op l r => l.steps ++ r.steps ++ [.binary op l r]
  | e => [e]

namespace Scope

/-- The exact value of an expression over integers of any size. -/
def exactValue? (s : Scope R) : Expr → Option Int
  | .lit l => Decimal.readInt? l.text
  | .ident name =>
      match s.const? name with
      | some (.int v) => some v.toInt
      | _ => none
  | .paren e => s.exactValue? e
  | .unary op e => (s.exactValue? e).map op.exact
  | .binary op l r => (s.exactValue? l).bind fun a => (s.exactValue? r).map (op.exact a)
  | _ => none

/-- The fault of the last step of an expression, given the exact values of its parts. -/
def fault? (s : Scope R) : Expr → Option Fault
  | .lit l => (Decimal.readInt? l.text).elim (some .outOfRange) rangeFault?
  | .unary op e => (s.exactValue? e).bind op.fault?
  | .binary op l r => (s.exactValue? l).bind fun a => (s.exactValue? r).bind (op.fault? a)
  | _ => none

theorem computes_unary (op : UnaryOp) (a : Int64) :
    Computes Const.int (op.fault? a.toInt) (some (op.exact a.toInt))
      (Const.unary op (.int a) : Except EvalError (Const R)) := by
  cases op with
  | neg => exact computes_int64? _ _ _
  | pos =>
      rw [show UnaryOp.fault? .pos a.toInt = none from if_pos (inRange_toInt a)]
      exact ⟨a, rfl, rfl⟩

theorem computes_ofLiteral {l : Literal} (s : Scope R) (hl : l.kind = .int) :
    Computes Const.int (s.fault? (.lit l)) (s.exactValue? (.lit l))
      (Const.ofLiteral l : Except EvalError (Const R)) := by
  have hread : l.int? = (Decimal.readInt? l.text).bind int64? := by
    rw [Literal.int?, hl]
    rfl
  rw [Const.ofLiteral, hl]
  simp only [fault?, exactValue?, hread]
  cases Decimal.readInt? l.text with
  | none => exact ⟨.overflow (.literal l.text), rfl, rfl⟩
  | some v => exact computes_int64? _ _ v

/-- Folding ends with the exact value, or with the fault of the step that is taken first. -/
theorem computes_fold (s : Scope R) {e : Expr} (he : e.Integral s) :
    Computes Const.int (e.steps.findSome? s.fault?) (s.exactValue? e) (s.fold e) := by
  -- the fault of a compound is that of its parts, or else its own
  have hlast (es : List Expr) (e : Expr) : (es ++ [e]).findSome? s.fault? =
      (es.findSome? s.fault?).or (s.fault? e) := by
    simp [List.findSome?_append]
  induction he with
  | lit hkind => simpa [Expr.steps, fold] using computes_ofLiteral s hkind
  | ident hconst =>
      simp only [Expr.steps, List.findSome?, fault?, exactValue?, fold, hconst]
      exact ⟨_, rfl, rfl⟩
  | paren _ ih =>
      rw [Expr.steps, hlast]
      simpa only [fault?, Option.or_none, exactValue?, fold] using ih
  | @unary op e _ ih =>
      rw [Expr.steps, hlast, fold]
      refine ih.bind fun v hv => ?_
      rw [fault?, exactValue?, hv]
      exact computes_unary op v
  | @binary op l r _ _ ihl ihr =>
      rw [Expr.steps, hlast, List.findSome?_append, Option.or_assoc, fold]
      refine ihl.bind fun a ha => ihr.bind fun b hb => ?_
      rw [fault?, exactValue?, ha, hb]
      exact (computes_foldInt a op b).map Const.int

/-- Integers fold exactly or not at all. There is a value if and only if no step divides by
zero or leaves the range of 64 bits, and it is the exact one. Otherwise the first step with a
fault decides between the two errors. -/
theorem fold_exact_or_reported (s : Scope R) {e : Expr} (he : e.Integral s) :
    ((∃ v : Int64, s.fold e = .ok (.int v)) ↔ ∀ step ∈ e.steps, s.fault? step = none) ∧
    (∀ v : Int64, s.fold e = .ok (.int v) → s.exactValue? e = some v.toInt) ∧
    (s.fold e = .error .divisionByZero ↔ e.steps.findSome? s.fault? = some .zeroDivisor) ∧
    ((∃ source, s.fold e = .error (.overflow source)) ↔
      e.steps.findSome? s.fault? = some .outOfRange) := by
  have h := s.computes_fold he
  rw [← List.findSome?_eq_none_iff]
  cases hfault : e.steps.findSome? s.fault? with
  | none =>
      rw [hfault] at h
      obtain ⟨v, hexact, hfold⟩ := h
      simp [hfold, hexact]
  | some fault =>
      rw [hfault] at h
      obtain ⟨err, hfold, herr⟩ := h
      cases fault with
      | zeroDivisor =>
          obtain rfl := EvalError.fault?_eq_zeroDivisor_iff.1 herr
          simp [hfold]
      | outOfRange =>
          obtain ⟨source, rfl⟩ := EvalError.fault?_eq_outOfRange_iff.1 herr
          simp [hfold]

end Scope

end Expressions

def leastScope : Scope Float :=
  { Scope.root with scalars := ⟨[("least", ⟨.int Int64.minValue, false⟩)]⟩ }

def leastModulo : Expr :=
  .binary .add (.binary .mod (.ident "least") (.unary .neg (.lit ⟨.int, "1"⟩)))
    (.binary .div (.lit ⟨.int, "1"⟩) (.lit ⟨.int, "0"⟩))

theorem fold_exact_or_reported_leastModulo :
    leastModulo.Integral leastScope ∧
    ∃ source, leastScope.fold leastModulo = .error (.overflow source) := by
  have hintegral : leastModulo.Integral leastScope :=
    .binary (.binary (.ident rfl) (.unary (.lit rfl))) (.binary (.lit rfl) (.lit rfl))
  exact ⟨hintegral, (leastScope.fold_exact_or_reported hintegral).2.2.2.2 (by decide)⟩

end OpenQasm
