import OpenQasm.Proofs.Lexing.Pieces
import OpenQasm.Proofs.Parsing.Canonical
import OpenQasm.Proofs.Parsing.Replies
import OpenQasm.Proofs.Parsing.Soundness.Expr

/-!
# Canonical expressions are read back

The lexemes of a canonical expression, followed by a symbol that does not go on
with it, are read as that expression. An operator of a canonical tree stands at
the head of everything to its left, so the induction says what is read by the loop
over operators once the left operand is complete, not what is read in the end.
-/
namespace OpenQasm.Parser

open Piece Layout

/-- The lexemes `ts` are these tokens, followed by `rest`. -/
def Spells : List Token → List Lexeme → List Lexeme → Prop
  | [], ts, rest => ts = rest
  | t :: tks, ts, rest => ∃ l r, ts = l :: r ∧ l.token = t ∧ Spells tks r rest

theorem spells_append {as bs : List Token} {ts rest : List Lexeme} :
    Spells (as ++ bs) ts rest ↔ ∃ mid, Spells as ts mid ∧ Spells bs mid rest := by
  induction as generalizing ts with
  | nil => simp [Spells]
  | cons a as ih =>
      simp only [List.cons_append, Spells, ih]
      constructor
      · rintro ⟨l, r, rfl, hl, mid, has, hbs⟩
        exact ⟨mid, ⟨l, r, rfl, hl, has⟩, hbs⟩
      · rintro ⟨mid, ⟨l, r, rfl, hl, has⟩, hbs⟩
        exact ⟨l, r, rfl, hl, mid, has, hbs⟩

theorem spells_map (ts rest : List Lexeme) : Spells (ts.map Lexeme.token) (ts ++ rest) rest := by
  induction ts with
  | nil => rfl
  | cons l r ih => exact ⟨l, r ++ rest, rfl, rfl, ih⟩

/-- A symbol stands here that no name goes on with. -/
def Ends (rest : List Lexeme) : Prop :=
  ∃ l r s, rest = l :: r ∧ l.token = .symbol s ∧ s ≠ .lparen ∧ s ≠ .lbracket

theorem ends_cons {l : Lexeme} {s : Symbol} (hl : l.token = .symbol s)
    (hs : s ≠ .lparen ∧ s ≠ .lbracket) (r : List Lexeme) : Ends (l :: r) :=
  ⟨l, r, s, rfl, hl, hs⟩

/-- What may follow an expression. -/
structure Follows (e : Expr) (rest : List Lexeme) : Prop where
  ends : Ends rest
  comma : e.endsInRegisters = true → startsWith .comma rest = false

theorem follows_cons {e : Expr} {l : Lexeme} {s : Symbol} (hl : l.token = .symbol s)
    (hs : s ≠ .lparen ∧ s ≠ .lbracket ∧ s ≠ .comma) (r : List Lexeme) : Follows e (l :: r) := by
  refine ⟨ends_cons hl ⟨hs.1, hs.2.1⟩ r, ?_⟩
  intro _
  simp [startsWith, hl, hs.2.2]

/-! Operands -/

theorem yields_position_ident (n : String) {rest : List Lexeme} (h : Ends rest) :
    (position n rest).Yields (.ident n) rest := by
  obtain ⟨l, r, s, rfl, hl, hs⟩ := h
  rw [position, if_neg (by simp [hl, hs.2])]
  exact .pure _

theorem yields_position_index (n : String) {l l' : Lexeme} {r rest : List Lexeme} {i : Expr}
    (hl : l.token = .symbol .lbracket) (hi : (binary 0 r).Yields i (l' :: rest))
    (hl' : l'.token = .symbol .rbracket) : (position n (l :: r)).Yields (.index n i) rest := by
  rw [position, if_pos hl]
  exact .next (hi.andThen fun _ => (yields_expect hl' rest).map _)

/-- A name that is followed by an index, or by what does not go on with it. -/
theorem yields_primary_position {n : String} {l : Lexeme} {r rest : List Lexeme} {e : Expr}
    (hl : l.token = .ident n) (hr : Ends r ∨ startsWith .lbracket r = true)
    (h : (position n r).Yields e rest) : (primary (l :: r)).Yields e rest := by
  obtain ⟨l', r, s, rfl, hl', hs⟩ : ∃ l' r' s, r = l' :: r' ∧ l'.token = .symbol s ∧
      s ≠ .lparen := by
    rcases hr with ⟨l', r', s, rfl, hl', hs⟩ | hr
    · exact ⟨l', r', s, rfl, hl', hs.1⟩
    · cases r with
      | nil => cases hr
      | cons l' r' => exact ⟨l', r', _, rfl, (startsWith_cons _ _ _).1 hr, by decide⟩
  have hparen : startsWith .lparen (l' :: r) = false := by simp [startsWith, hl', hs]
  rw [primary]
  simp only [hl, hl', hparen]
  exact .next h

theorem yields_primary_call {n : String} {l : Lexeme} {r mid rest : List Lexeme}
    {ps qs : List Expr} (hl : l.token = .ident n) (hr : startsWith .lparen r = true)
    (hps : (arguments r).Yields ps mid) (hqs : (callRegisters mid).Yields qs rest) :
    (primary (l :: r)).Yields (.call n [] ps qs) rest := by
  rw [primary]
  simp only [hl, hr]
  exact .next (hps.andThen fun _ => hqs.map _)

theorem yields_primary_application {n m : String} {l l' : Lexeme} {r rest : List Lexeme}
    {qs : List Expr} (hl : l.token = .ident n) (hl' : l'.token = .ident m)
    (hqs : (registers (l' :: r)).Yields qs rest) :
    (primary (l :: l' :: r)).Yields (.call n [] [] qs) rest := by
  have hparen : startsWith .lparen (l' :: r) = false := by simp [startsWith, hl']
  rw [primary]
  simp only [hl, hl', hparen]
  exact .next (hqs.map _)

theorem yields_primary_paren {l l' : Lexeme} {r rest : List Lexeme} {e : Expr}
    (hl : l.token = .symbol .lparen) (he : (binary 0 r).Yields e (l' :: rest))
    (hl' : l'.token = .symbol .rparen) : (primary (l :: r)).Yields (.paren e) rest := by
  rw [primary]
  simp only [hl]
  exact .next (he.andThen fun _ => (yields_expect hl' rest).map _)

theorem yields_primary_literal {lit : Literal} {l : Lexeme} (hl : [l.token] = tokens [literal lit])
    (rest : List Lexeme) : (primary (l :: rest)).Yields (.lit lit) rest := by
  obtain ⟨kind, text⟩ := lit
  rw [primary]
  cases kind with
  | int | float =>
      simp only [literal, tokens_word, List.cons.injEq] at hl
      simp only [hl.1]
      exact ⟨rfl, rfl⟩
  | string =>
      simp only [literal, tokens_quoted, List.cons.injEq] at hl
      simp only [hl.1]
      exact ⟨rfl, rfl⟩

theorem yields_primary_constant {c : MathConstant} {l : Lexeme} (hl : l.token = .constant c)
    (rest : List Lexeme) : (primary (l :: rest)).Yields (.ident c.text) rest := by
  rw [primary]
  simp only [hl]
  exact ⟨rfl, rfl⟩

/-- Without a sign the operand stands here. -/
theorem yields_unary_primary {l : Lexeme} {r rest : List Lexeme} {e : Expr}
    (hl : unaryOp? l = none) (h : (primary (l :: r)).Yields e rest) :
    (unary (l :: r)).Yields e rest := by
  rw [unary]
  simp only [hl]
  exact h

/-! Operators -/

theorem looser_mono {e : Expr} {p q : Nat} (hle : q ≤ p) (h : e.looser p = false) :
    e.looser q = false := by
  cases e with
  | binary op l r =>
      simp only [Expr.looser, decide_eq_false_iff_not] at h ⊢
      omega
  | _ => rfl

theorem binaryOp?_symbol {op : BinaryOp} {l : Lexeme} (hl : l.token = .symbol op.symbol) :
    binaryOp? l = some op := by
  rw [binaryOp?]
  cases op <;> simp [hl, BinaryOp.symbol, Symbol.binaryOp?]

theorem unaryOp?_symbol {op : UnaryOp} {l : Lexeme} (hl : l.token = .symbol op.symbol) :
    unaryOp? l = some op := by
  rw [unaryOp?]
  cases op <;> simp [hl, UnaryOp.symbol, Symbol.unaryOp?]

/-- The loop stops before an operator that binds less tightly than asked for. -/
theorem yields_operators_stop {m : Nat} {e : Expr} {rest : List Lexeme}
    (h : ∀ op ∈ nextOp? rest, op.precedence < m) : (operators m e rest).Yields e rest := by
  cases rest with
  | nil =>
      rw [operators]
      exact .pure e
  | cons l r =>
      rw [operators]
      split
      · exact .pure e
      · rename_i op hop
        rw [if_pos (h op hop)]
        exact .pure e

/-- The loop takes an operator that binds tightly enough, and goes on behind its operand. -/
theorem yields_operators_step {m : Nat} {op : BinaryOp} {left right v : Expr} {l : Lexeme}
    {r rest last : List Lexeme} (hl : l.token = .symbol op.symbol) (hm : m ≤ op.precedence)
    (hright : (binary (op.precedence + 1) r).Yields right rest)
    (h : (operators m (.binary op left right) rest).Yields v last) :
    (operators m left (l :: r)).Yields v last := by
  rw [operators]
  simp only [binaryOp?_symbol hl]
  rw [if_neg (by omega)]
  exact .next (hright.andThen fun _ => h)

theorem yields_binary_unary {m : Nat} {e v : Expr} {ts rest last : List Lexeme}
    (he : (unary ts).Yields e rest) (h : (operators m e rest).Yields v last) :
    (binary m ts).Yields v last := by
  rw [binary]
  exact he.andThen fun _ => h

/-- No operand starts with a bracket that closes, a semicolon or `measure`. -/
theorem not_yields_binary {l : Lexeme} (hl : l.token = .symbol .rparen ∨
    l.token = .symbol .semicolon ∨ l.token = .keyword .measure) {m : Nat} {e : Expr}
    {r rest : List Lexeme} : ¬(binary m (l :: r)).Yields e rest := by
  intro h
  have hreject : unary (l :: r) = reject "expression" (l :: r) := by
    rw [unary, primary]
    rcases hl with hl | hl | hl <;> simp [unaryOp?, hl, Symbol.unaryOp?]
  rw [binary, hreject] at h
  exact h

theorem startsWith_rparen_of_yields {m : Nat} {e : Expr} {ts rest : List Lexeme}
    (h : (binary m ts).Yields e rest) : startsWith .rparen ts = false := by
  cases ts with
  | nil => rfl
  | cons l r =>
      by_contra hne
      rw [Bool.not_eq_false, startsWith_cons] at hne
      exact not_yields_binary (.inl hne) h

theorem tokens_name {n : String} (h : IsName n) (ps : List Piece) :
    tokens (named n :: ps) = .ident n :: tokens ps := by
  rw [named, tokens_word, h.2]

theorem tokens_parens (ps : List Piece) :
    tokens (parens true ps) = .symbol .lparen :: (tokens ps ++ [.symbol .rparen]) := by
  simp [parens, sym]

/-- A register starts with a name. -/
theorem spells_register {e : Expr} (he : e.CanonicalRegister) {ps : List Token}
    {ts rest : List Lexeme} (h : Spells (tokens e.layout ++ ps) ts rest) :
    ∃ n l r, ts = l :: r ∧ l.token = .ident n := by
  cases e with
  | ident n =>
      rw [Expr.layout, tokens_name he] at h
      obtain ⟨l, r, rfl, hl, -⟩ := h
      exact ⟨n, l, r, rfl, hl⟩
  | index n i =>
      rw [Expr.layout, tokens_name he.1] at h
      obtain ⟨l, r, rfl, hl, -⟩ := h
      exact ⟨n, l, r, rfl, hl⟩
  | _ => exact absurd he (by simp [Expr.CanonicalRegister])

/-- The registers after a call: without any, the symbol that follows is no name. -/
theorem yields_callRegisters {qs : List Expr} (hqs : Expr.CanonicalRegisters qs)
    {ts rest : List Lexeme} (h : Spells (tokens (Expr.layoutSuffix qs)) ts rest)
    (hends : qs = [] → Ends rest) (hregs : qs ≠ [] → (registers ts).Yields qs rest) :
    (callRegisters ts).Yields qs rest := by
  cases qs with
  | nil =>
      obtain rfl : ts = rest := h
      obtain ⟨l, r, s, rfl, hl, -⟩ := hends rfl
      rw [callRegisters]
      simp only [hl]
      exact .pure []
  | cons q qs =>
      rw [Expr.layoutSuffix, tokens_gap, tokens_append] at h
      obtain ⟨n, l, r, rfl, hl⟩ := spells_register hqs.1 h
      rw [callRegisters]
      simp only [hl]
      exact hregs (by simp)

/-- What stands after the first of several expressions. -/
theorem ends_tail {es : List Expr} {ts rest : List Lexeme}
    (h : Spells (tokens (Expr.layoutTail es)) ts rest) (hrest : Ends rest) : Ends ts := by
  cases es with
  | nil =>
      obtain rfl : ts = rest := h
      exact hrest
  | cons e es =>
      obtain ⟨l, r, rfl, hl, -⟩ := h
      exact ends_cons hl (by decide) r

theorem nextOp?_symbol {l : Lexeme} {s : Symbol} (hl : l.token = .symbol s)
    (hs : s.binaryOp? = none) (r : List Lexeme) : nextOp? (l :: r) = none := by
  simp [nextOp?, binaryOp?, hl, hs]

theorem nextOp?_tail {es : List Expr} {ts rest : List Lexeme}
    (h : Spells (tokens (Expr.layoutTail es)) ts rest) (hrest : nextOp? rest = none) :
    nextOp? ts = none := by
  cases es with
  | nil =>
      obtain rfl : ts = rest := h
      exact hrest
  | cons e es =>
      obtain ⟨l, r, rfl, hl, -⟩ := h
      exact nextOp?_symbol hl rfl r

/-- An argument is followed by a comma only if it does not end in registers. -/
theorem follows_tail {e : Expr} {es : List Expr} (he : es ≠ [] → e.endsInRegisters = false)
    {ts rest : List Lexeme} {l : Lexeme} (hl : l.token = .symbol .rparen)
    (h : Spells (tokens (Expr.layoutTail es)) ts (l :: rest)) : Follows e ts := by
  refine ⟨ends_tail h (ends_cons hl (by decide) rest), ?_⟩
  intro hends
  cases es with
  | nil =>
      obtain rfl : ts = l :: rest := h
      simp [startsWith, hl]
  | cons e' es =>
      rw [he (by simp)] at hends
      cases hends

/-! Operands with a sign or without -/

/-- An operand behind a sign is no operator's. -/
theorem not_looser_operand {e : Expr} (h : e.looser UnaryOp.precedence = false) (p : Nat) :
    e.looser p = false := by
  cases e with
  | binary op _ _ => cases op <;> simp [Expr.looser, UnaryOp.precedence, BinaryOp.precedence] at h
  | _ => rfl

theorem yields_unary_sign {op : UnaryOp} {l : Lexeme} {r rest : List Lexeme} {e : Expr}
    (hl : l.token = .symbol op.symbol) (h : (unary r).Yields e rest) :
    (unary (l :: r)).Yields (.unary op e) rest := by
  rw [unary]
  simp only [unaryOp?_symbol hl]
  exact .next (h.map _)

theorem yields_unary_constant {c : MathConstant} {ts rest : List Lexeme}
    (h : Spells (tokens (Expr.ident c.text).layout) ts rest) :
    (unary ts).Yields (.ident c.text) rest := by
  have hword : Token.ofWord c.text = .constant c :=
    (Token.reserved_spelling _ (Token.reserved_constant c)).1
  rw [Expr.layout, named, tokens_word, hword] at h
  obtain ⟨l, _, rfl, hl, rfl⟩ := h
  exact yields_unary_primary (by simp [unaryOp?, hl]) (yields_primary_constant hl _)

theorem yields_unary_literal {lit : Literal} {ts rest : List Lexeme}
    (h : Spells (tokens (Expr.lit lit).layout) ts rest) : (unary ts).Yields (.lit lit) rest := by
  obtain ⟨kind, text⟩ := lit
  rw [Expr.layout] at h
  have hl : ∃ l, ts = l :: rest ∧ [l.token] = tokens [literal ⟨kind, text⟩] := by
    cases kind <;>
    · obtain ⟨l, _, rfl, hl, rfl⟩ := h
      exact ⟨l, rfl, by rw [hl]; rfl⟩
  obtain ⟨l, rfl, hl⟩ := hl
  refine yields_unary_primary ?_ (yields_primary_literal hl rest)
  cases kind <;> simp_all [unaryOp?, literal]

/-- A register is read by its name and what follows that. -/
theorem yields_unary_position {n : String} {l : Lexeme} {r rest : List Lexeme} {e : Expr}
    (hl : l.token = .ident n) (hpos : (position n r).Yields e rest) (hrest : Ends rest)
    (hr : r = rest ∨ startsWith .lbracket r = true) : (unary (l :: r)).Yields e rest := by
  have hends : Ends r ∨ startsWith .lbracket r = true := by
    rcases hr with rfl | hr
    · exact .inl hrest
    · exact .inr hr
  exact yields_unary_primary (by simp [unaryOp?, hl]) (yields_primary_position hl hends hpos)

theorem yields_unary_paren {l l' : Lexeme} {r rest : List Lexeme} {e : Expr}
    (hl : l.token = .symbol .lparen) (he : (binary 0 r).Yields e (l' :: rest))
    (hl' : l'.token = .symbol .rparen) : (unary (l :: r)).Yields (.paren e) rest :=
  yields_unary_primary (by simp [unaryOp?, hl, Symbol.unaryOp?]) (yields_primary_paren hl he hl')

/-- A call has its arguments in brackets, or none and a register after its name. -/
theorem yields_unary_call {n : String} (hn : IsName n) {ps qs : List Expr}
    (hqs : Expr.CanonicalRegisters qs) {ts rest : List Lexeme}
    (h : Spells (tokens (Expr.call n [] ps qs).layout) ts rest) (hrest : Ends rest)
    (hps : ∀ {us mid}, Spells (.symbol .lparen :: (tokens (Expr.layoutList ps) ++
      [.symbol .rparen])) us mid → (arguments us).Yields ps mid)
    (hregs : qs ≠ [] → ∀ {us}, Spells (tokens (Expr.layoutSuffix qs)) us rest →
      (registers us).Yields qs rest) :
    (unary ts).Yields (.call n [] ps qs) rest := by
  rw [Expr.layout, Modifier.layoutAll, List.nil_append, tokens_name hn, tokens_append] at h
  obtain ⟨l, r, rfl, hl, h⟩ := h
  obtain ⟨mid, hargs, hsuffix⟩ := spells_append.1 h
  refine yields_unary_primary (by simp [unaryOp?, hl]) ?_
  cases hwanted : (!ps.isEmpty || qs.isEmpty) with
  | true =>
      rw [hwanted, tokens_parens] at hargs
      have hlparen : startsWith .lparen r = true := by
        obtain ⟨l', r', rfl, hl', -⟩ := hargs
        simp [startsWith, hl']
      exact yields_primary_call hl hlparen (hps hargs)
        (yields_callRegisters hqs hsuffix (fun _ => hrest) fun hne => hregs hne hsuffix)
  | false =>
      obtain ⟨rfl, hne⟩ : ps = [] ∧ qs ≠ [] := by simpa using hwanted
      obtain rfl : r = mid := by rw [hwanted] at hargs; exact hargs
      have hqargs := hregs hne hsuffix
      obtain ⟨q, qs, rfl⟩ := List.exists_cons_of_ne_nil hne
      rw [Expr.layoutSuffix, tokens_gap, tokens_append] at hsuffix
      obtain ⟨m, l', r', rfl, hl'⟩ := spells_register hqs.1 hsuffix
      exact yields_primary_application hl hl' hqargs

mutual

/-- A register is its name and what follows that. -/
theorem yields_position (e : Expr) (he : e.CanonicalRegister) {ts rest : List Lexeme}
    (h : Spells (tokens e.layout) ts rest) (hrest : Ends rest) :
    ∃ n l r, ts = l :: r ∧ l.token = .ident n ∧ (position n r).Yields e rest ∧
      (r = rest ∨ startsWith .lbracket r = true) := by
  cases e with
  | ident n =>
      rw [Expr.layout, tokens_name he] at h
      obtain ⟨l, _, rfl, hl, rfl⟩ := h
      exact ⟨n, l, _, rfl, hl, yields_position_ident n hrest, .inl rfl⟩
  | index n i =>
      rw [Expr.layout, tokens_name he.1] at h
      simp only [sym, tokens_word, tokens_append] at h
      obtain ⟨l, _, rfl, hl, l', r, rfl, hl', h⟩ := h
      obtain ⟨_, hi, l'', _, rfl, hl'', rfl⟩ := spells_append.1 h
      have hindex := yields_inner i he.2 hi (follows_cons hl'' (by decide) _)
        (nextOp?_symbol hl'' rfl _)
      exact ⟨n, l, _, rfl, hl, yields_position_index n hl' hindex hl'',
        .inr ((startsWith_cons _ _ _).2 hl')⟩
  | _ => exact absurd he (by simp [Expr.CanonicalRegister])
termination_by (sizeOf e, 0)
decreasing_by
  all_goals
    subst_vars
    refine .left _ _ ?_
    simp only [Expr.index.sizeOf_spec]
    omega

theorem yields_unary (e : Expr) (he : e.Canonical) (htight : ∀ p, e.looser p = false)
    {ts rest : List Lexeme} (h : Spells (tokens e.layout) ts rest) (hrest : Follows e rest) :
    (unary ts).Yields e rest := by
  have hregister : e.CanonicalRegister → (unary ts).Yields e rest := by
    intro hreg
    obtain ⟨n, l, r, rfl, hl, hpos, hr⟩ := yields_position e hreg h hrest.ends
    exact yields_unary_position hl hpos hrest.ends hr
  cases e with
  | ident n =>
      rcases he with hn | ⟨c, rfl⟩
      · exact hregister hn
      · exact yields_unary_constant h
  | index n i => exact hregister he
  | lit lit => exact yields_unary_literal h
  | binary op l r =>
      have := htight (op.precedence + 1)
      simp [Expr.looser] at this
  | unary op e =>
      rw [Expr.layout, he.2] at h
      obtain ⟨l, r, rfl, hl, h⟩ := h
      exact yields_unary_sign hl
        (yields_unary e he.1 (not_looser_operand he.2) h ⟨hrest.ends, hrest.comma⟩)
  | call n ms ps qs =>
      obtain ⟨rfl, hn, hps, hqs⟩ := he
      refine yields_unary_call hn hqs h hrest.ends (fun hargs => yields_arguments ps hps hargs) ?_
      intro hne us hsuffix
      have hcomma : startsWith .comma rest = false :=
        hrest.comma (by simpa [Expr.endsInRegisters] using hne)
      exact yields_registers qs hqs hne hsuffix hrest.ends hcomma
  | measure qs => exact absurd he (by simp [Expr.Canonical])
  | paren e =>
      rw [Expr.layout, tokens_parens] at h
      obtain ⟨l, r, rfl, hl, h⟩ := h
      obtain ⟨_, hinner, l', _, rfl, hl', rfl⟩ := spells_append.1 h
      have hbinary := yields_inner e he hinner (follows_cons hl' (by decide) _)
        (nextOp?_symbol hl' rfl _)
      exact yields_unary_paren hl hbinary hl'
termination_by (sizeOf e, 1)
decreasing_by
  · exact .right _ (by decide)
  all_goals
    subst_vars
    refine .left _ _ ?_
    simp only [Expr.unary.sizeOf_spec, Expr.call.sizeOf_spec, Expr.paren.sizeOf_spec]
    omega

/-- What the loop over operators makes of a complete left operand is what is read. -/
theorem yields_binary (e : Expr) (he : e.Canonical) {m : Nat} (hm : e.looser m = false)
    {ts rest last : List Lexeme} {v : Expr} (h : Spells (tokens e.layout) ts rest)
    (hrest : Follows e rest) (hnext : ∀ op ∈ nextOp? rest, e.looser op.precedence = false)
    (hv : (operators m e rest).Yields v last) : (binary m ts).Yields v last := by
  have hoperand : (∀ p, e.looser p = false) → (unary ts).Yields e rest :=
    fun htight => yields_unary e he htight h hrest
  cases e with
  | binary op l r =>
      obtain ⟨hl, hr, hlop, hrop⟩ := he
      rw [Expr.layout, hlop, hrop] at h
      simp only [parens, Bool.false_eq_true, if_false, sym, tokens_append, tokens_gap,
        tokens_word] at h
      obtain ⟨_, hleft, lop, rts, rfl, hlop', hright⟩ := spells_append.1 h
      simp only [Expr.looser, decide_eq_false_iff_not] at hm hnext
      have hop : nextOp? (lop :: rts) = some op := binaryOp?_symbol hlop'
      have hsym : op.symbol ≠ .lparen ∧ op.symbol ≠ .lbracket ∧ op.symbol ≠ .comma := by
        cases op <;> decide
      have hstop : (operators (op.precedence + 1) r rest).Yields r rest := by
        refine yields_operators_stop fun op' hop' => ?_
        have := hnext op' hop'
        omega
      have hr' : (binary (op.precedence + 1) rts).Yields r rest := by
        refine yields_binary r hr hrop hright ⟨hrest.ends, hrest.comma⟩ ?_ hstop
        intro op' hop'
        have := hnext op' hop'
        exact looser_mono (by omega) hrop
      refine yields_binary l hl (looser_mono (by omega) hlop) hleft (follows_cons hlop' hsym rts) ?_
        (yields_operators_step hlop' (by omega) hr' hv)
      intro op' hop'
      rw [hop] at hop'
      cases hop'
      exact hlop
  | _ => exact yields_binary_unary (hoperand fun _ => rfl) hv
termination_by (sizeOf e, 2)
decreasing_by
  · exact .right _ (by decide)
  all_goals
    subst_vars
    refine .left _ _ ?_
    simp only [Expr.binary.sizeOf_spec]
    omega

/-- An expression up to a symbol that is no operator. -/
theorem yields_inner (e : Expr) (he : e.Canonical) {ts rest : List Lexeme}
    (h : Spells (tokens e.layout) ts rest) (hrest : Follows e rest) (hop : nextOp? rest = none) :
    (binary 0 ts).Yields e rest := by
  have hzero : e.looser 0 = false := by cases e <;> simp [Expr.looser]
  refine yields_binary e he hzero h hrest ?_ (yields_operators_stop ?_)
  · intro op hmem
    rw [hop] at hmem
    cases hmem
  · intro op hmem
    rw [hop] at hmem
    cases hmem
termination_by (sizeOf e, 3)
decreasing_by exact .right _ (by decide)

theorem yields_arguments (es : List Expr) (hes : Expr.CanonicalArguments es)
    {ts rest : List Lexeme}
    (h : Spells (.symbol .lparen :: (tokens (Expr.layoutList es) ++ [.symbol .rparen])) ts rest) :
    (arguments ts).Yields es rest := by
  obtain ⟨l, r, rfl, hl, h⟩ := h
  rw [arguments, if_pos hl]
  cases es with
  | nil =>
      obtain ⟨l', _, rfl, hl', rfl⟩ := h
      rw [if_pos ((startsWith_cons _ _ _).2 hl')]
      exact .next ((yields_expect hl' _).map _)
  | cons e es =>
      rw [Expr.layoutList, tokens_append, List.append_assoc] at h
      obtain ⟨mid, he, h⟩ := spells_append.1 h
      obtain ⟨_, htail, l', _, rfl, hl', rfl⟩ := spells_append.1 h
      have hfirst := yields_inner e hes.1 he (follows_tail hes.2.1 hl' htail)
        (nextOp?_tail htail (nextOp?_symbol hl' rfl _))
      have hothers := yields_argumentTail es hes.2.2 hl' htail
      rw [startsWith_rparen_of_yields hfirst]
      exact .next (hfirst.andThen fun _ => hothers.andThen fun _ => (yields_expect hl' _).map _)
termination_by (sizeOf es, 0)
decreasing_by
  all_goals
    subst_vars
    refine .left _ _ ?_
    simp only [List.cons.sizeOf_spec]
    omega

theorem yields_argumentTail (es : List Expr) (hes : Expr.CanonicalArguments es)
    {ts rest : List Lexeme} {l : Lexeme} (hl : l.token = .symbol .rparen)
    (h : Spells (tokens (Expr.layoutTail es)) ts (l :: rest)) :
    (argumentTail ts).Yields es (l :: rest) := by
  cases es with
  | nil =>
      obtain rfl : ts = l :: rest := h
      rw [argumentTail, if_neg (by simp [hl])]
      exact .pure []
  | cons e es =>
      rw [Expr.layoutTail] at h
      simp only [sym, tokens_word, tokens_gap, tokens_append] at h
      obtain ⟨l', r, rfl, hl', h⟩ := h
      obtain ⟨mid, he, htail⟩ := spells_append.1 h
      have hfirst := yields_inner e hes.1 he (follows_tail hes.2.1 hl htail)
        (nextOp?_tail htail (nextOp?_symbol hl rfl _))
      have hothers := yields_argumentTail es hes.2.2 hl htail
      rw [argumentTail, if_pos hl']
      exact .next (hfirst.andThen fun _ => hothers.map _)
termination_by (sizeOf es, 0)
decreasing_by
  all_goals
    subst_vars
    refine .left _ _ ?_
    simp only [List.cons.sizeOf_spec]
    omega

theorem yields_register (e : Expr) (he : e.CanonicalRegister) {ts rest : List Lexeme}
    (h : Spells (tokens e.layout) ts rest) (hrest : Ends rest) : (register ts).Yields e rest := by
  obtain ⟨n, l, r, rfl, hl, hpos, -⟩ := yields_position e he h hrest
  rw [register]
  exact (yields_identifier hl r).andThen fun _ => hpos
termination_by (sizeOf e, 1)
decreasing_by exact .right _ (by decide)

theorem yields_registerTail (es : List Expr) (hes : Expr.CanonicalRegisters es)
    {ts rest : List Lexeme} (h : Spells (tokens (Expr.layoutTail es)) ts rest) (hrest : Ends rest)
    (hcomma : startsWith .comma rest = false) : (registerTail ts).Yields es rest := by
  cases es with
  | nil =>
      obtain rfl : ts = rest := h
      obtain ⟨l, r, s, rfl, hl, -⟩ := hrest
      rw [registerTail, if_neg (by simpa [startsWith] using hcomma)]
      exact .pure []
  | cons e es =>
      rw [Expr.layoutTail] at h
      simp only [sym, tokens_word, tokens_gap, tokens_append] at h
      obtain ⟨l, r, rfl, hl, h⟩ := h
      obtain ⟨mid, he, htail⟩ := spells_append.1 h
      have hfirst := yields_register e hes.1 he (ends_tail htail hrest)
      have hothers := yields_registerTail es hes.2 htail hrest hcomma
      rw [registerTail, if_pos hl]
      exact .next (hfirst.andThen fun _ => hothers.map _)
termination_by (sizeOf es, 0)
decreasing_by
  all_goals
    subst_vars
    refine .left _ _ ?_
    simp only [List.cons.sizeOf_spec]
    omega

theorem yields_registers (es : List Expr) (hes : Expr.CanonicalRegisters es) (hne : es ≠ [])
    {ts rest : List Lexeme} (h : Spells (tokens (Expr.layoutSuffix es)) ts rest)
    (hrest : Ends rest) (hcomma : startsWith .comma rest = false) :
    (registers ts).Yields es rest := by
  cases es with
  | nil => exact absurd rfl hne
  | cons e es =>
      rw [Expr.layoutSuffix, tokens_gap, tokens_append] at h
      obtain ⟨mid, he, htail⟩ := spells_append.1 h
      have hfirst := yields_register e hes.1 he (ends_tail htail hrest)
      have hothers := yields_registerTail es hes.2 htail hrest hcomma
      rw [registers]
      exact hfirst.andThen fun _ => hothers.map _
termination_by (sizeOf es, 0)
decreasing_by
  all_goals
    subst_vars
    refine .left _ _ ?_
    simp only [List.cons.sizeOf_spec]
    omega

end

end OpenQasm.Parser
