import OpenQasm.Proofs.Parsing.Canonical
import OpenQasm.Proofs.Parsing.Replies

/-!
# What the parser builds is canonical

Every tree that a production finishes with is canonical, whatever lexemes it is
given, as long as their tokens are genuine. For operators the statement says more:
no operator that binds as tightly as asked for is left, which is what keeps left
operands tight, and no comma is left after an expression that ends in registers.
-/
namespace OpenQasm.Parser

/-- The operator that stands next. -/
def nextOp? : List Lexeme → Option BinaryOp
  | [] => none
  | l :: _ => binaryOp? l

/-- An expression was read up to `rest`, and no comma goes on its registers. -/
structure ReadUpTo (e : Expr) (rest : List Lexeme) : Prop where
  canonical : e.Canonical
  comma : e.endsInRegisters = true → startsWith .comma rest = false

structure OperandUpTo (e : Expr) (rest : List Lexeme) : Prop extends ReadUpTo e rest where
  tight : ∀ p, e.looser p = false

/-- An expression of operators that bind as tightly as `minimum` was read up to `rest`. -/
structure BinaryUpTo (minimum : Nat) (e : Expr) (rest : List Lexeme) : Prop
    extends ReadUpTo e rest where
  tight : e.looser minimum = false
  next : ∀ op ∈ nextOp? rest, op.precedence < minimum

structure ArgumentsAt (ts : List Lexeme) (es : List Expr) : Prop where
  canonical : Expr.CanonicalArguments es
  comma : es ≠ [] → startsWith .comma ts = true

structure RegistersUpTo (es : List Expr) (rest : List Lexeme) : Prop where
  canonical : Expr.CanonicalRegisters es
  comma : es ≠ [] → startsWith .comma rest = false

theorem holds_identifier {ts : List Lexeme} (h : Genuine ts) :
    (identifier ts).Holds fun name _ => IsName name := by
  cases ts with
  | nil => exact holds_reject h _
  | cons l r =>
      rw [identifier]
      split
      · rename_i name hname
        have hl := h.head
        rw [hname] at hl
        exact ⟨h.tail, hl⟩
      · exact holds_reject h _

/-- Only what a comma follows needs to end without registers. -/
theorem canonicalArguments_cons {e : Expr} {es : List Expr} {ts : List Lexeme}
    (h : ReadUpTo e ts) (ht : ArgumentsAt ts es) : Expr.CanonicalArguments (e :: es) := by
  refine ⟨h.canonical, ?_, ht.canonical⟩
  intro hne
  by_contra hends
  rw [Bool.not_eq_false] at hends
  have hcomma := h.comma hends
  rw [ht.comma hne] at hcomma
  exact absurd hcomma (by simp)

theorem operandUpTo_literal {l : Literal} {rest : List Lexeme} (h : l.Canonical) :
    OperandUpTo (.lit l) rest :=
  ⟨⟨h, by rintro ⟨⟩⟩, fun _ => rfl⟩

theorem operandUpTo_call {name : String} {ps qs : List Expr} {rest : List Lexeme}
    (hname : IsName name) (hps : Expr.CanonicalArguments ps) (hqs : RegistersUpTo qs rest) :
    OperandUpTo (.call name [] ps qs) rest := by
  refine ⟨⟨⟨rfl, hname, hps, hqs.canonical⟩, ?_⟩, fun _ => rfl⟩
  intro hends
  refine hqs.comma ?_
  simpa [Expr.endsInRegisters] using hends

theorem operandUpTo_register {e : Expr} {rest : List Lexeme} (he : e.CanonicalRegister) :
    OperandUpTo e rest := by
  refine ⟨⟨he.canonical, ?_⟩, ?_⟩
  · intro hends
    cases e <;> simp_all [Expr.CanonicalRegister, Expr.endsInRegisters]
  · intro p
    cases e <;> simp_all [Expr.CanonicalRegister, Expr.looser]

mutual

theorem holds_binary (minimum : Nat) (ts : List Lexeme) (h : Genuine ts) :
    (binary minimum ts).Holds (BinaryUpTo minimum) := by
  rw [binary]
  refine (holds_unary ts h).andThen ?_
  intro left rest hle hrest hleft
  exact holds_operators minimum left rest hrest hleft.toReadUpTo (hleft.tight minimum)
    fun op _ => hleft.tight op.precedence
termination_by 4 * ts.length + 2

theorem holds_operators (minimum : Nat) (left : Expr) : ∀ ts : List Lexeme, Genuine ts →
    ReadUpTo left ts → left.looser minimum = false →
    (∀ op ∈ nextOp? ts, left.looser op.precedence = false) →
    (operators minimum left ts).Holds (BinaryUpTo minimum)
  | [], h, hleft, htight, _ => by
      rw [operators]
      exact .pure h ⟨hleft, htight, by rintro op ⟨⟩⟩
  | l :: r, h, hleft, htight, hnext => by
      rw [operators]
      split
      · rename_i hop
        refine .pure h ⟨hleft, htight, ?_⟩
        intro op hmem
        rw [nextOp?, hop] at hmem
        cases hmem
      · rename_i op hop
        split
        · rename_i hlt
          refine .pure h ⟨hleft, htight, ?_⟩
          intro op' hmem
          rw [nextOp?, hop] at hmem
          cases hmem
          exact hlt
        · rename_i hge
          refine .next ((holds_binary (op.precedence + 1) r h.tail).andThen ?_)
          intro right rest hle hrest hright
          refine holds_operators minimum (.binary op left right) rest hrest
            ⟨⟨hleft.canonical, hright.canonical, hnext op hop, hright.tight⟩, hright.comma⟩ ?_ ?_
          · simpa [Expr.looser] using hge
          · intro op' hop'
            have := hright.next op' hop'
            simp only [Expr.looser, decide_eq_false_iff_not]
            omega
termination_by ts => 4 * ts.length

theorem holds_unary : ∀ ts : List Lexeme, Genuine ts → (unary ts).Holds OperandUpTo
  | [], h => by
      rw [unary]
      exact holds_primary [] h
  | l :: r, h => by
      rw [unary]
      split
      · rename_i op _
        refine .next (.map ((holds_unary r h.tail).mono ?_))
        intro e rest he
        exact ⟨⟨⟨he.canonical, he.tight _⟩, he.comma⟩, fun _ => rfl⟩
      · exact holds_primary (l :: r) h
termination_by ts => 4 * ts.length + 1

theorem holds_primary : ∀ ts : List Lexeme, Genuine ts → (primary ts).Holds OperandUpTo
  | [], h => by
      rw [primary]
      exact holds_reject h _
  | l :: r, h => by
      have hl := h.head
      rw [primary]
      split
      · rename_i text htext
        rw [htext] at hl
        exact ⟨h.tail, operandUpTo_literal hl⟩
      · rename_i text htext
        rw [htext] at hl
        exact ⟨h.tail, operandUpTo_literal hl⟩
      · rename_i text htext
        rw [htext] at hl
        exact ⟨h.tail, operandUpTo_literal hl⟩
      · rename_i c _
        exact ⟨h.tail, ⟨.inr ⟨c, rfl⟩, by rintro ⟨⟩⟩, fun _ => rfl⟩
      · rename_i name hname
        rw [hname] at hl
        split
        · refine .next ((holds_arguments r h.tail).andThen ?_)
          intro ps rest hle hrest hps
          refine .map ((holds_callRegisters rest hrest).mono ?_)
          intro qs rest' hqs
          exact operandUpTo_call hl hps hqs
        · cases r with
          | nil => exact ⟨h.tail, operandUpTo_register hl⟩
          | cons l' r' =>
              dsimp only
              split
              · refine .next (.map ((holds_registers (l' :: r') h.tail).mono ?_))
                intro qs rest hqs
                exact operandUpTo_call hl trivial hqs.2
              · refine .next ((holds_position name (l' :: r') hl h.tail).mono ?_)
                intro e rest he
                exact operandUpTo_register he
      · refine .next ((holds_binary 0 r h.tail).andThen ?_)
        intro e rest hle hrest he
        refine .map ((holds_expect hrest).mono ?_)
        intro _ rest' _
        exact ⟨⟨he.canonical, by rintro ⟨⟩⟩, fun _ => rfl⟩
      · exact holds_reject h _
termination_by ts => 4 * ts.length

theorem holds_arguments : ∀ ts : List Lexeme, Genuine ts →
    (arguments ts).Holds fun es _ => Expr.CanonicalArguments es
  | [], h => by
      rw [arguments]
      exact holds_reject h _
  | l :: r, h => by
      rw [arguments]
      split
      · split
        · exact .next (holds_expect_map h.tail trivial)
        · refine .next ((holds_binary 0 r h.tail).andThen ?_)
          intro e rest hle hrest he
          refine (holds_argumentTail rest hrest).andThen ?_
          intro es rest' _ hrest' hes
          exact holds_expect_map hrest' (canonicalArguments_cons he.toReadUpTo hes)
      · exact holds_reject h _
termination_by ts => 4 * ts.length

theorem holds_argumentTail : ∀ ts : List Lexeme, Genuine ts →
    (argumentTail ts).Holds fun es _ => ArgumentsAt ts es
  | [], h => by
      rw [argumentTail]
      exact .pure h ⟨trivial, fun hne => absurd rfl hne⟩
  | l :: r, h => by
      rw [argumentTail]
      split
      · rename_i hcomma
        refine .next ((holds_binary 0 r h.tail).andThen ?_)
        intro e rest hle hrest he
        refine .map ((holds_argumentTail rest hrest).mono ?_)
        intro es rest' hes
        exact ⟨canonicalArguments_cons he.toReadUpTo hes,
          fun _ => (startsWith_cons .comma l r).2 hcomma⟩
      · exact .pure h ⟨trivial, fun hne => absurd rfl hne⟩
termination_by ts => 4 * ts.length

theorem holds_position (name : String) : ∀ ts : List Lexeme, IsName name → Genuine ts →
    (position name ts).Holds fun e _ => e.CanonicalRegister
  | [], hname, h => by
      rw [position]
      exact .pure h hname
  | l :: r, hname, h => by
      rw [position]
      split
      · refine .next ((holds_binary 0 r h.tail).andThen ?_)
        intro i rest _ hrest hi
        exact holds_expect_map hrest ⟨hname, hi.canonical⟩
      · exact .pure h hname
termination_by ts => 4 * ts.length

theorem holds_register (ts : List Lexeme) (h : Genuine ts) :
    (register ts).Holds fun e _ => e.CanonicalRegister := by
  rw [register]
  refine (holds_identifier h).andThen ?_
  intro name rest hle hrest hname
  exact holds_position name rest hname hrest
termination_by 4 * ts.length + 1

theorem holds_registerTail : ∀ ts : List Lexeme, Genuine ts →
    (registerTail ts).Holds fun es rest =>
      Expr.CanonicalRegisters es ∧ startsWith .comma rest = false
  | [], h => by
      rw [registerTail]
      exact .pure h ⟨trivial, rfl⟩
  | l :: r, h => by
      rw [registerTail]
      split
      · refine .next ((holds_register r h.tail).andThen ?_)
        intro e rest hle hrest he
        refine .map ((holds_registerTail rest hrest).mono ?_)
        intro es rest' hes
        exact ⟨⟨he, hes.1⟩, hes.2⟩
      · rename_i hcomma
        exact .pure h ⟨trivial, by simpa [startsWith] using hcomma⟩
termination_by ts => 4 * ts.length

theorem holds_registers (ts : List Lexeme) (h : Genuine ts) :
    (registers ts).Holds fun es rest => es ≠ [] ∧ RegistersUpTo es rest := by
  rw [registers]
  refine (holds_register ts h).andThen ?_
  intro e rest hle hrest he
  refine .map ((holds_registerTail rest hrest).mono ?_)
  intro es rest' hes
  exact ⟨by simp, ⟨he, hes.1⟩, fun _ => hes.2⟩
termination_by 4 * ts.length + 2

theorem holds_callRegisters : ∀ ts : List Lexeme, Genuine ts →
    (callRegisters ts).Holds RegistersUpTo
  | [], h => by
      rw [callRegisters]
      exact .pure h ⟨trivial, fun hne => absurd rfl hne⟩
  | l :: r, h => by
      rw [callRegisters]
      split
      · exact (holds_registers (l :: r) h).mono fun _ _ hqs => hqs.2
      · exact .pure h ⟨trivial, fun hne => absurd rfl hne⟩
termination_by ts => 4 * ts.length + 3

end

theorem holds_expression {ts : List Lexeme} (h : Genuine ts) :
    (expression ts).Holds fun e _ => e.Canonical :=
  (holds_binary 0 ts h).mono fun _ _ he => he.canonical

theorem holds_optionalRegisters {ts : List Lexeme} (h : Genuine ts) :
    (optionalRegisters ts).Holds fun es _ => Expr.CanonicalRegisters es := by
  rw [optionalRegisters]
  split
  · exact .pure h trivial
  · exact (holds_registers ts h).mono fun _ _ hqs => hqs.2.canonical

theorem holds_optionalArguments {ts : List Lexeme} (h : Genuine ts) :
    (optionalArguments ts).Holds fun es _ => Expr.CanonicalArguments es := by
  rw [optionalArguments]
  split
  · exact holds_arguments ts h
  · exact .pure h trivial

/-- What is no measurement is a value if it can be an operand. -/
theorem canonicalValue_of_canonical {e : Expr} (h : e.Canonical) : e.CanonicalValue := by
  cases e with
  | measure qs => exact absurd h (by simp [Expr.Canonical])
  | _ => exact h

theorem holds_value {ts : List Lexeme} (h : Genuine ts) :
    (value ts).Holds fun e _ => e.CanonicalValue := by
  have hexpr : ∀ ts, Genuine ts → (expression ts).Holds fun e _ => e.CanonicalValue :=
    fun ts h => (holds_expression h).mono fun _ _ he => canonicalValue_of_canonical he
  cases ts with
  | nil => exact hexpr [] h
  | cons l r =>
      rw [value]
      split
      · exact .next (.map (holds_optionalRegisters h.tail))
      · exact hexpr (l :: r) h

end OpenQasm.Parser
