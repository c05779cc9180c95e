import OpenQasm.Proofs.Parsing.Outline

/-!
# Expressions keep their tokens

The lexemes that a production takes fill the outline of the tree it finishes with. What is
being read is part of the tree before it is complete, so the loop over operators and the
rest of a register say what they add to the outline they were given.
-/
namespace OpenQasm.Parser

open Slot

/-- The lexemes `ts` fill these slots, and `rest` follows. -/
def Fills (ss : List Slot) (ts rest : List Lexeme) : Prop :=
  ∃ used, Fits ss (used.map Lexeme.token) ∧ ts = used ++ rest

section Fills

variable {ss ss' : List Slot} {ts mid rest : List Lexeme}

theorem Fills.nil (ts : List Lexeme) : Fills [] ts ts := ⟨[], .nil, rfl⟩

theorem Fills.token {l : Lexeme} {t : Token} (hl : l.token = t) (r : List Lexeme) :
    Fills [.token t] (l :: r) r :=
  ⟨[l], by rw [← hl]; exact .token l.token .nil, rfl⟩

theorem Fills.append (h : Fills ss ts mid) (h' : Fills ss' mid rest) :
    Fills (ss ++ ss') ts rest := by
  obtain ⟨used, hused, rfl⟩ := h
  obtain ⟨used', hused', rfl⟩ := h'
  refine ⟨used ++ used', ?_, (List.append_assoc _ _ _).symm⟩
  rw [List.map_append]
  exact hused.append hused'

/-- A lexeme that fills the first slot. -/
theorem Fills.cons {l : Lexeme} {t : Token} {r : List Lexeme} (hl : l.token = t)
    (h : Fills ss r rest) : Fills (.token t :: ss) (l :: r) rest := (Fills.token hl r).append h

theorem Fills.missing (written : Bool) (ts : List Lexeme) : Fills [.empty written] ts ts :=
  ⟨[], .missing written .nil, rfl⟩

/-- Parentheses with nothing between them. -/
theorem Fills.stands (written : Bool) (h : Fills (parens []) ts rest) :
    Fills [.empty written] ts rest := by
  obtain ⟨used, hused, rfl⟩ := h
  refine ⟨used, ?_, rfl⟩
  revert hused
  generalize used.map Lexeme.token = us
  intro hus
  obtain ⟨⟩ | ⟨-, hus⟩ := hus
  obtain ⟨⟩ | ⟨-, hus⟩ := hus
  exact .stands written hus

end Fills

/-! Symbols and names -/

theorem ofWord_of_genuine {n : String} (h : (Token.ident n).Genuine) :
    Token.ofWord n = .ident n := h.2

theorem keeps_expect {s : Symbol} {ts : List Lexeme} (h : Genuine ts) :
    (expect s ts).Holds fun _ rest => Fills [sym s] ts rest := by
  cases ts with
  | nil => exact holds_reject h _
  | cons l r =>
      rw [expect]
      split
      · exact ⟨h.tail, .token ‹_› r⟩
      · exact holds_reject h _

/-- A production ends with a symbol, and its value is fixed before that. -/
theorem keeps_expect_map {α : Type} {P : α → List Lexeme → Prop} {s : Symbol} {ts : List Lexeme}
    {a : α} (h : Genuine ts) (hP : ∀ rest, Fills [sym s] ts rest → P a rest) :
    ((expect s ts).map fun _ => a).Holds P :=
  .map ((keeps_expect h).mono fun _ rest hs => hP rest hs)

theorem keeps_identifier {ts : List Lexeme} (h : Genuine ts) :
    (identifier ts).Holds fun name rest => Fills [word name] ts rest := by
  cases ts with
  | nil => exact holds_reject h _
  | cons l r =>
      rw [identifier]
      split
      · rename_i name hname
        have hl := h.head
        rw [hname] at hl
        exact ⟨h.tail, .token (hname.trans (ofWord_of_genuine hl).symm) r⟩
      · exact holds_reject h _

def nameTail (ns : List String) : List Slot :=
  ofPieces (ns.flatMap fun m => [Layout.sym .comma, .gap, Layout.named m])

theorem keeps_identifierTail (ts : List Lexeme) (h : Genuine ts) :
    (identifierTail ts).Holds fun names rest => Fills (nameTail names) ts rest := by
  cases ts with
  | nil =>
      rw [identifierTail]
      exact .pure h (.nil _)
  | cons l r =>
      rw [identifierTail]
      split
      · refine .next ((keeps_identifier h.tail).andThen ?_)
        intro name rest hle hrest hname
        refine .map ((keeps_identifierTail rest hrest).mono ?_)
        intro names rest' hnames
        exact .cons ‹_› (hname.append hnames)
      · exact .pure h (.nil _)
termination_by ts.length
decreasing_by
  subst_vars
  exact Nat.lt_succ_of_le hle

theorem keeps_identifiers {ts : List Lexeme} (h : Genuine ts) :
    (identifiers ts).Holds fun names rest => Fills (ofPieces (Layout.names names)) ts rest := by
  rw [identifiers]
  refine (keeps_identifier h).andThen ?_
  intro name rest _ hrest hname
  refine .map ((keeps_identifierTail rest hrest).mono ?_)
  intro names rest' hnames
  exact hname.append hnames

/-! Expressions -/

theorem symbol_of_binaryOp? {l : Lexeme} {op : BinaryOp} (h : binaryOp? l = some op) :
    l.token = .symbol op.symbol := by
  unfold binaryOp? at h
  split at h
  · rename_i s hs
    rw [hs]
    cases s <;> cases h <;> rfl
  · cases h

theorem symbol_of_unaryOp? {l : Lexeme} {op : UnaryOp} (h : unaryOp? l = some op) :
    l.token = .symbol op.symbol := by
  unfold unaryOp? at h
  split at h
  · rename_i s hs
    rw [hs]
    cases s <;> cases h <;> rfl
  · cases h

/-- The lexemes go on with a tree whose outline starts with `before`. -/
def Completes (before outline : List Slot) (ts rest : List Lexeme) : Prop :=
  ∃ ss, outline = before ++ ss ∧ Fills ss ts rest

theorem Completes.fills {before outline : List Slot} {ts mid rest : List Lexeme}
    (h : Completes before outline mid rest) (hbefore : Fills before ts mid) :
    Fills outline ts rest := by
  obtain ⟨ss, rfl, hss⟩ := h
  exact hbefore.append hss

/-- The outline of a call in an expression, after its name. -/
theorem Fills.call {ps qs : List Expr} {ts mid rest : List Lexeme}
    (hps : Fills (parens (Expr.outlines ps)) ts mid) (hqs : Fills (Expr.outlines qs) mid rest) :
    Fills ((if ps.isEmpty && !qs.isEmpty then [.empty false] else parens (Expr.outlines ps)) ++
      Expr.outlines qs) ts rest := by
  refine Fills.append ?_ hqs
  split
  · rename_i hempty
    have hps' : ps = [] := by simp_all
    subst hps'
    exact hps.stands false
  · exact hps

mutual

theorem keeps_binary (minimum : Nat) (ts : List Lexeme) (h : Genuine ts) :
    (binary minimum ts).Holds fun e rest => Fills e.outline ts rest := by
  rw [binary]
  refine (keeps_unary ts h).andThen ?_
  intro left rest hle hrest hleft
  exact (keeps_operators minimum left rest hrest).mono fun e _ he => he.fills hleft
termination_by 4 * ts.length + 2

theorem keeps_operators (minimum : Nat) (left : Expr) : ∀ ts : List Lexeme, Genuine ts →
    (operators minimum left ts).Holds fun e rest => Completes left.outline e.outline ts rest
  | [], h => by
      rw [operators]
      exact .pure h ⟨[], (List.append_nil _).symm, .nil _⟩
  | l :: r, h => by
      rw [operators]
      split
      · exact .pure h ⟨[], (List.append_nil _).symm, .nil _⟩
      · rename_i op hop
        split
        · exact .pure h ⟨[], (List.append_nil _).symm, .nil _⟩
        · refine .next ((keeps_binary (op.precedence + 1) r h.tail).andThen ?_)
          intro right rest hle hrest hright
          refine (keeps_operators minimum (.binary op left right) rest hrest).mono ?_
          rintro e rest' ⟨ss, he, hss⟩
          have hop : Fills (sym op.symbol :: (right.outline ++ ss)) (l :: r) rest' :=
            .cons (symbol_of_binaryOp? hop) (hright.append hss)
          refine ⟨_, ?_, hop⟩
          rw [he, Expr.outline, List.append_assoc, List.cons_append]
termination_by ts => 4 * ts.length

theorem keeps_unary : ∀ ts : List Lexeme, Genuine ts →
    (unary ts).Holds fun e rest => Fills e.outline ts rest
  | [], h => by
      rw [unary]
      exact keeps_primary [] h
  | l :: r, h => by
      rw [unary]
      split
      · rename_i op hop
        refine .next (.map ((keeps_unary r h.tail).mono ?_))
        intro e rest he
        exact .cons (symbol_of_unaryOp? hop) he
      · exact keeps_primary (l :: r) h
termination_by ts => 4 * ts.length + 1

theorem keeps_primary : ∀ ts : List Lexeme, Genuine ts →
    (primary ts).Holds fun e rest => Fills e.outline ts rest
  | [], h => by
      rw [primary]
      exact holds_reject h _
  | l :: r, h => by
      rw [primary]
      split
      · exact ⟨h.tail, .token ‹_› r⟩
      · exact ⟨h.tail, .token ‹_› r⟩
      · exact ⟨h.tail, .token ‹_› r⟩
      · rename_i c hc
        have hword : Token.ofWord c.text = .constant c := by cases c <;> decide
        exact ⟨h.tail, .token (hc.trans hword.symm) r⟩
      · rename_i name hname
        have hl := h.head
        rw [hname] at hl
        have hword : l.token = Token.ofWord name := hname.trans (ofWord_of_genuine hl).symm
        split
        · refine .next ((keeps_arguments r h.tail).andThen ?_)
          intro ps rest hle hrest hps
          refine .map ((keeps_callRegisters rest hrest).mono ?_)
          intro qs rest' hqs
          exact .cons hword (.call hps hqs)
        · cases r with
          | nil => exact ⟨h.tail, .token hword []⟩
          | cons l' r' =>
              dsimp only
              split
              · refine .next (.map ((keeps_registers (l' :: r') h.tail).mono ?_))
                rintro qs rest ⟨hne, hqs⟩
                have hmissing := (Fills.missing false (l' :: r')).append hqs
                refine .cons hword ?_
                cases qs with
                | nil => exact absurd rfl hne
                | cons q qs => exact hmissing
              · refine .next ((keeps_position name (l' :: r') h.tail).mono ?_)
                intro e rest he
                exact he.fills (.token hword _)
      · refine .next ((keeps_binary 0 r h.tail).andThen ?_)
        intro e rest hle hrest he
        refine keeps_expect_map hrest fun rest' hs => ?_
        exact .cons ‹_› (he.append hs)
      · exact holds_reject h _
termination_by ts => 4 * ts.length

theorem keeps_arguments : ∀ ts : List Lexeme, Genuine ts →
    (arguments ts).Holds fun es rest => Fills (parens (Expr.outlines es)) ts rest
  | [], h => by
      rw [arguments]
      exact holds_reject h _
  | l :: r, h => by
      rw [arguments]
      split
      · rename_i hl
        split
        · exact .next (keeps_expect_map h.tail fun rest hs => .cons hl hs)
        · refine .next ((keeps_binary 0 r h.tail).andThen ?_)
          intro e rest hle hrest he
          refine (keeps_argumentTail rest hrest).andThen ?_
          intro es rest' _ hrest' hes
          refine keeps_expect_map hrest' fun rest'' hs => ?_
          exact .cons hl ((he.append hes).append hs)
      · exact holds_reject h _
termination_by ts => 4 * ts.length

theorem keeps_argumentTail : ∀ ts : List Lexeme, Genuine ts →
    (argumentTail ts).Holds fun es rest => Fills (Expr.outlineTail es) ts rest
  | [], h => by
      rw [argumentTail]
      exact .pure h (.nil _)
  | l :: r, h => by
      rw [argumentTail]
      split
      · refine .next ((keeps_binary 0 r h.tail).andThen ?_)
        intro e rest hle hrest he
        refine .map ((keeps_argumentTail rest hrest).mono ?_)
        intro es rest' hes
        exact .cons ‹_› (he.append hes)
      · exact .pure h (.nil _)
termination_by ts => 4 * ts.length

theorem keeps_position (name : String) : ∀ ts : List Lexeme, Genuine ts →
    (position name ts).Holds fun e rest => Completes [word name] e.outline ts rest
  | [], h => by
      rw [position]
      exact .pure h ⟨[], rfl, .nil _⟩
  | l :: r, h => by
      rw [position]
      split
      · refine .next ((keeps_binary 0 r h.tail).andThen ?_)
        intro i rest _ hrest hi
        refine keeps_expect_map hrest fun rest' hs => ?_
        exact ⟨_, rfl, .cons ‹_› (hi.append hs)⟩
      · exact .pure h ⟨[], rfl, .nil _⟩
termination_by ts => 4 * ts.length

theorem keeps_register (ts : List Lexeme) (h : Genuine ts) :
    (register ts).Holds fun e rest => Fills e.outline ts rest := by
  rw [register]
  refine (keeps_identifier h).andThen ?_
  intro name rest hle hrest hname
  exact (keeps_position name rest hrest).mono fun e _ he => he.fills hname
termination_by 4 * ts.length + 1

theorem keeps_registerTail : ∀ ts : List Lexeme, Genuine ts →
    (registerTail ts).Holds fun es rest => Fills (Expr.outlineTail es) ts rest
  | [], h => by
      rw [registerTail]
      exact .pure h (.nil _)
  | l :: r, h => by
      rw [registerTail]
      split
      · refine .next ((keeps_register r h.tail).andThen ?_)
        intro e rest hle hrest he
        refine .map ((keeps_registerTail rest hrest).mono ?_)
        intro es rest' hes
        exact .cons ‹_› (he.append hes)
      · exact .pure h (.nil _)
termination_by ts => 4 * ts.length

theorem keeps_registers (ts : List Lexeme) (h : Genuine ts) :
    (registers ts).Holds fun es rest => es ≠ [] ∧ Fills (Expr.outlines es) ts rest := by
  rw [registers]
  refine (keeps_register ts h).andThen ?_
  intro e rest hle hrest he
  refine .map ((keeps_registerTail rest hrest).mono ?_)
  intro es rest' hes
  exact ⟨List.cons_ne_nil _ _, he.append hes⟩
termination_by 4 * ts.length + 2

theorem keeps_callRegisters : ∀ ts : List Lexeme, Genuine ts →
    (callRegisters ts).Holds fun es rest => Fills (Expr.outlines es) ts rest
  | [], h => by
      rw [callRegisters]
      exact .pure h (.nil _)
  | l :: r, h => by
      rw [callRegisters]
      split
      · exact (keeps_registers (l :: r) h).mono fun _ _ hqs => hqs.2
      · exact .pure h (.nil _)
termination_by ts => 4 * ts.length + 3

end

theorem keeps_expression {ts : List Lexeme} (h : Genuine ts) :
    (expression ts).Holds fun e rest => Fills e.outline ts rest := keeps_binary 0 ts h

theorem keeps_optionalRegisters {ts : List Lexeme} (h : Genuine ts) :
    (optionalRegisters ts).Holds fun es rest => Fills (Expr.outlines es) ts rest := by
  rw [optionalRegisters]
  split
  · exact .pure h (.nil _)
  · exact (keeps_registers ts h).mono fun _ _ hqs => hqs.2

theorem keeps_optionalArguments {ts : List Lexeme} (h : Genuine ts) :
    (optionalArguments ts).Holds fun es rest =>
      ∀ written, Fills (Expr.outlineParams written es) ts rest := by
  rw [optionalArguments]
  split
  · refine (keeps_arguments ts h).mono ?_
    intro es rest hes written
    cases es with
    | nil => exact hes.stands written
    | cons e es => exact hes
  · exact .pure h fun written => .missing written ts

theorem keeps_value {ts : List Lexeme} (h : Genuine ts) :
    (value ts).Holds fun e rest => Fills e.outline ts rest := by
  cases ts with
  | nil => exact keeps_expression h
  | cons l r =>
      rw [value]
      split
      · refine .next (.map ((keeps_optionalRegisters h.tail).mono ?_))
        intro qs rest hqs
        exact .cons ‹_› hqs
      · exact keeps_expression h

end OpenQasm.Parser
