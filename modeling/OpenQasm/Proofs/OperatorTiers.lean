import OpenQasm.Proofs.Parsing.Chains

/-!
# Tiers of operators

An expression is read as the two tiers of the grammar have it, whatever its tokens are: sums
and differences of products, and products of operands with signs. So in every tree that is
read, down to arguments and indices, an operand binds as tightly as its place asks for.
-/
namespace OpenQasm

namespace Expr

/-- The operator at the top of an expression. -/
def top? : Expr → Option BinaryOp
  | .binary op _ _ => some op
  | _ => none

mutual

/-- No binary operator has one that binds less tightly on its left, or one that binds as
tightly or less on its right, and no sign has one after it. -/
def Tight : Expr → Prop
  | .ident _ => True
  | .index _ i => i.Tight
  | .lit _ => True
  | .binary op l r =>
      (∀ o ∈ l.top?, op.precedence ≤ o.precedence) ∧ (∀ o ∈ r.top?, op.precedence < o.precedence) ∧
        l.Tight ∧ r.Tight
  | .unary _ e => e.top? = none ∧ e.Tight
  | .call _ ms ps qs => ms = [] ∧ TightAll ps ∧ TightAll qs
  | .measure qs => TightAll qs
  | .paren e => e.Tight

def TightAll : List Expr → Prop
  | [] => True
  | e :: es => e.Tight ∧ TightAll es

end

end Expr

namespace Parser

namespace Reply

variable {ε α β : Type} {ts us : List Lexeme} {P : α → List Lexeme → Prop}
  {Q : β → List Lexeme → Prop}

/-- Whatever the reply finishes with satisfies `P`. -/
def Gives (P : α → List Lexeme → Prop) : Reply ε ts α → Prop
  | done a rest _ => P a rest
  | fail .. => True

theorem Gives.mono {P' : α → List Lexeme → Prop} {r : Reply ε ts α} (h : r.Gives P)
    (hp : ∀ a rest, P a rest → P' a rest) : r.Gives P' := by
  cases r with
  | done a rest _ => exact hp a rest h
  | fail => trivial

theorem Gives.of_forall {r : Reply ε ts α} (h : ∀ a rest, P a rest) : r.Gives P := by
  cases r with
  | done a rest _ => exact h a rest
  | fail => trivial

theorem Gives.later {r : Reply ε us α} (h : r.Gives P) (le : us.length ≤ ts.length) :
    (r.later le).Gives P := by
  cases r with
  | done => exact h
  | fail => trivial

theorem Gives.next {l : Lexeme} {r : Reply ε ts α} (h : r.Gives P) :
    (r.next : Reply ε (l :: ts) α).Gives P := h.later _

theorem Gives.map {f : α → β} {r : Reply ε ts α} (h : r.Gives fun a rest => Q (f a) rest) :
    (r.map f).Gives Q := by
  cases r with
  | done => exact h
  | fail => trivial

theorem Gives.andThen {r : Reply ε ts α}
    {f : α → (rest : List Lexeme) → rest.length ≤ ts.length → Reply ε rest β}
    (h : r.Gives P) (hf : ∀ a rest le, P a rest → (f a rest le).Gives Q) :
    (r.andThen f).Gives Q := by
  cases r with
  | done a rest le => exact (hf a rest le h).later le
  | fail => trivial

theorem Gives.of_yields {a : α} {rest : List Lexeme} {r : Reply ε ts α} (h : r.Gives P)
    (hr : r.Yields a rest) : P a rest := by
  cases r with
  | done =>
      obtain ⟨rfl, rfl⟩ := hr
      exact h
  | fail => exact absurd hr id

end Reply

/-- A value that is fixed before the symbol at the end. -/
theorem gives_expect_map {α : Type} {P : α → Prop} {a : α} (ha : P a) (s : Symbol)
    (ts : List Lexeme) : ((expect s ts).map fun _ => a).Gives fun b _ => P b :=
  .map (.of_forall fun _ _ => ha)

/-- An operand without an operator of its own. -/
structure TightOperand (e : Expr) : Prop where
  tight : e.Tight
  top : e.top? = none

/-- An expression of operators that bind as tightly as `m`, up to an operator that does not. -/
structure TightUpTo (m : Nat) (e : Expr) (rest : List Lexeme) : Prop where
  tight : e.Tight
  top : ∀ o ∈ e.top?, m ≤ o.precedence
  next : ∀ op ∈ nextOp? rest, op.precedence < m

mutual

theorem tight_binary (m : Nat) (ts : List Lexeme) : (binary m ts).Gives (TightUpTo m) := by
  rw [binary]
  refine (tight_unary ts).andThen fun left rest _ hleft => ?_
  exact tight_operators m left rest hleft.tight (by simp [hleft.top]) (by simp [hleft.top])
termination_by 4 * ts.length + 2

/-- The loop over operators is entered with a left operand that binds as tightly as the next
operator. -/
theorem tight_operators (m : Nat) (left : Expr) : ∀ ts : List Lexeme, left.Tight →
    (∀ o ∈ left.top?, m ≤ o.precedence) →
    (∀ op ∈ nextOp? ts, ∀ o ∈ left.top?, op.precedence ≤ o.precedence) →
    (operators m left ts).Gives (TightUpTo m)
  | [], hleft, htop, _ => by
      rw [operators]
      exact ⟨hleft, htop, by simp [nextOp?]⟩
  | l :: r, hleft, htop, hnext => by
      rw [operators]
      split
      · rename_i hnone
        exact ⟨hleft, htop, by simp [nextOp?, hnone]⟩
      · rename_i op hop
        split
        · rename_i hlt
          exact ⟨hleft, htop, by simpa [nextOp?, hop] using hlt⟩
        · rename_i hge
          refine .next ((tight_binary (op.precedence + 1) r).andThen fun right rest _ hright => ?_)
          refine tight_operators m (.binary op left right) rest
            ⟨hnext op hop, hright.top, hleft, hright.tight⟩ ?_ ?_
          · simpa [Expr.top?] using hge
          · intro op' hop'
            have hlt := hright.next op' hop'
            simp only [Expr.top?, Option.mem_some_iff, forall_eq']
            omega
termination_by ts => 4 * ts.length

theorem tight_unary : ∀ ts : List Lexeme, (unary ts).Gives fun e _ => TightOperand e
  | [] => by
      rw [unary]
      exact tight_primary []
  | l :: r => by
      rw [unary]
      split
      · refine .next (.map ((tight_unary r).mono fun e _ he => ?_))
        exact ⟨⟨he.top, he.tight⟩, rfl⟩
      · exact tight_primary (l :: r)
termination_by ts => 4 * ts.length + 1

theorem tight_primary : ∀ ts : List Lexeme, (primary ts).Gives fun e _ => TightOperand e
  | [] => by
      rw [primary]
      trivial
  | l :: r => by
      rw [primary]
      split
      · exact ⟨trivial, rfl⟩
      · exact ⟨trivial, rfl⟩
      · exact ⟨trivial, rfl⟩
      · exact ⟨trivial, rfl⟩
      · rename_i name _
        split
        · refine .next ((tight_arguments r).andThen fun ps rest _ hps => ?_)
          exact .map ((tight_callRegisters rest).mono fun qs _ hqs => ⟨⟨rfl, hps, hqs⟩, rfl⟩)
        · cases r with
          | nil => exact ⟨trivial, rfl⟩
          | cons l' r' =>
              dsimp only
              split
              · exact .next (.map ((tight_registers (l' :: r')).mono fun qs _ hqs =>
                  ⟨⟨rfl, trivial, hqs⟩, rfl⟩))
              · exact .next (tight_position name (l' :: r'))
      · refine .next ((tight_binary 0 r).andThen fun e rest _ he => ?_)
        exact gives_expect_map ⟨he.tight, rfl⟩ _ rest
      · trivial
termination_by ts => 4 * ts.length

theorem tight_arguments : ∀ ts : List Lexeme, (arguments ts).Gives fun es _ => Expr.TightAll es
  | [] => by
      rw [arguments]
      trivial
  | l :: r => by
      rw [arguments]
      split
      · split
        · exact .next (gives_expect_map trivial _ r)
        · refine .next ((tight_binary 0 r).andThen fun e rest _ he => ?_)
          refine (tight_argumentTail rest).andThen fun es rest' _ hes => ?_
          exact gives_expect_map ⟨he.tight, hes⟩ _ rest'
      · trivial
termination_by ts => 4 * ts.length

theorem tight_argumentTail :
    ∀ ts : List Lexeme, (argumentTail ts).Gives fun es _ => Expr.TightAll es
  | [] => by
      rw [argumentTail]
      trivial
  | l :: r => by
      rw [argumentTail]
      split
      · refine .next ((tight_binary 0 r).andThen fun e rest _ he => ?_)
        exact .map ((tight_argumentTail rest).mono fun es _ hes => ⟨he.tight, hes⟩)
      · trivial
termination_by ts => 4 * ts.length

theorem tight_position (name : String) :
    ∀ ts : List Lexeme, (position name ts).Gives fun e _ => TightOperand e
  | [] => by
      rw [position]
      exact ⟨trivial, rfl⟩
  | l :: r => by
      rw [position]
      split
      · refine .next ((tight_binary 0 r).andThen fun i rest _ hi => ?_)
        exact gives_expect_map ⟨hi.tight, rfl⟩ _ rest
      · exact ⟨trivial, rfl⟩
termination_by ts => 4 * ts.length

theorem tight_register (ts : List Lexeme) : (register ts).Gives fun e _ => TightOperand e := by
  rw [register]
  have hname : (identifier ts).Gives fun _ _ => True := .of_forall fun _ _ => trivial
  exact hname.andThen fun name rest _ _ => tight_position name rest
termination_by 4 * ts.length + 1

theorem tight_registerTail :
    ∀ ts : List Lexeme, (registerTail ts).Gives fun es _ => Expr.TightAll es
  | [] => by
      rw [registerTail]
      trivial
  | l :: r => by
      rw [registerTail]
      split
      · refine .next ((tight_register r).andThen fun e rest _ he => ?_)
        exact .map ((tight_registerTail rest).mono fun es _ hes => ⟨he.tight, hes⟩)
      · trivial
termination_by ts => 4 * ts.length

theorem tight_registers (ts : List Lexeme) :
    (registers ts).Gives fun es _ => Expr.TightAll es := by
  rw [registers]
  refine (tight_register ts).andThen fun e rest _ he => ?_
  exact .map ((tight_registerTail rest).mono fun es _ hes => ⟨he.tight, hes⟩)
termination_by 4 * ts.length + 2

theorem tight_callRegisters :
    ∀ ts : List Lexeme, (callRegisters ts).Gives fun es _ => Expr.TightAll es
  | [] => by
      rw [callRegisters]
      trivial
  | l :: r => by
      rw [callRegisters]
      split
      · exact tight_registers (l :: r)
      · trivial
termination_by ts => 4 * ts.length + 3

end

/-- An expression is read from a list of tokens exactly if a chain of operands with operators
between them ends at a place without an operator, and it is the tree in which runs of
multiplicative operators are joined from the left, and then the runs, with additive operators
between them. It cannot be read exactly if one of the operands cannot, and fails as that does.
In every tree that is read operands bind as tightly as their places ask for. -/
theorem expression_reads_tiers (ts : List Lexeme) :
    (∀ e rest, (expression ts).Yields e rest ↔
      ∃ u factors terms, Operands ts u (factors ++ terms.flatMap Term.links) rest ∧
        nextOp? rest = none ∧ Runs factors terms ∧
        e = joined (joined u factors) (terms.map Term.link)) ∧
      (∀ err rest, (expression ts).Fails err rest ↔ Breaks ts err rest) ∧
      ∀ e rest, (expression ts).Yields e rest → e.Tight :=
  ⟨fun _ _ => yields_expression_iff, fun _ _ => fails_expression_iff, fun _ _ h =>
    ((tight_binary 0 ts).of_yields h).tight⟩

def differenceLexemes : List Lexeme :=
  [.int "1", .symbol .minus, .int "2", .symbol .star, .ident "x", .symbol .semicolon].map
    fun t => ⟨t, [], 0, 1⟩

def difference : Expr :=
  .binary .sub (.lit ⟨.int, "1"⟩) (.binary .mul (.lit ⟨.int, "2"⟩) (.ident "x"))

theorem expression_reads_tiers_difference :
    (expression differenceLexemes).Yields difference (differenceLexemes.drop 5) ∧
      difference.Tight := by
  have hends : Ends (differenceLexemes.drop 5) := ends_cons rfl (by decide) []
  have hone : (unary differenceLexemes).Yields (.lit ⟨.int, "1"⟩) (differenceLexemes.drop 1) :=
    yields_unary_primary rfl (yields_primary_literal rfl _)
  have htwo : (unary (differenceLexemes.drop 2)).Yields (.lit ⟨.int, "2"⟩)
      (differenceLexemes.drop 3) :=
    yields_unary_primary rfl (yields_primary_literal rfl _)
  have hx : (unary (differenceLexemes.drop 4)).Yields (.ident "x") (differenceLexemes.drop 5) :=
    yields_unary_primary rfl
      (yields_primary_position rfl (.inl hends) (yields_position_ident "x" hends))
  have hchain : Chain (differenceLexemes.drop 1)
      [(.sub, .lit ⟨.int, "2"⟩), (.mul, .ident "x")] (differenceLexemes.drop 5) :=
    .cons rfl htwo (.cons rfl hx (.nil _))
  have hruns : Runs [] [⟨.sub, .lit ⟨.int, "2"⟩, [(.mul, .ident "x")]⟩] :=
    ⟨by simp, by simp [BinaryOp.isMultiplicative]⟩
  obtain ⟨hread, -, htight⟩ := expression_reads_tiers differenceLexemes
  have hyields := (hread difference (differenceLexemes.drop 5)).2
    ⟨_, [], [⟨.sub, .lit ⟨.int, "2"⟩, [(.mul, .ident "x")]⟩], ⟨_, hone, hchain⟩, rfl, hruns, rfl⟩
  exact ⟨hyields, htight _ _ hyields⟩

end Parser

end OpenQasm
