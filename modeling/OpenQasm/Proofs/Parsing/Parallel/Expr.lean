import OpenQasm.Proofs.Parsing.Locality.Expr

/-!
# Two runs on the same tokens

A parser that is run on two lists of lexemes ends alike as long as the tokens it meets are
the same: with the same value, or with the same error, as many lines apart as the lexemes
are. How far the lists agree is up to a relation `R`, which need not say anything about what
follows the semicolon of a statement: no parser below looks past it.
-/
namespace OpenQasm

/-- The line an error is reported at. The end of the input has none. -/
def ParseError.line? : ParseError → Option Nat
  | unexpectedToken line _ _ => some line
  | unexpectedEnd _ => none
  | illegalToken line _ => some line
  | invalidVersion line _ => some line
  | misplacedVersion line => some line

/-- The same error a number of lines further down. -/
def ParseError.shift (k : Nat) : ParseError → ParseError
  | unexpectedToken line expected found => unexpectedToken (line + k) expected found
  | unexpectedEnd expected => unexpectedEnd expected
  | illegalToken line text => illegalToken (line + k) text
  | invalidVersion line found => invalidVersion (line + k) found
  | misplacedVersion line => misplacedVersion (line + k)

namespace Parser

def lineAt (ts : List Lexeme) : Option Nat := ts.head?.map Lexeme.line

/-- Related lists start with the same token, `k` lines apart, and so do their tails. After a
semicolon the tails are related by `S`. -/
structure Paced (k : Nat) (R S : List Lexeme → List Lexeme → Prop) : Prop where
  nil : ∀ {ts'}, R [] ts' → ts' = []
  cons : ∀ {l r ts'}, R (l :: r) ts' → ∃ l' r', ts' = l' :: r' ∧ l'.token = l.token ∧
    l'.line = l.line + k ∧ (l.token = .symbol .semicolon → S r r') ∧
    (l.token ≠ .symbol .semicolon → R r r')

variable {k : Nat} {R S T : List Lexeme → List Lexeme → Prop} {ts ts' : List Lexeme}

theorem Paced.ahead (h : Paced k R S) (hts : R ts ts') : ahead ts' = ahead ts := by
  cases ts with
  | nil => rw [h.nil hts]
  | cons l r =>
      obtain ⟨l', r', rfl, hl, -⟩ := h.cons hts
      rw [ahead_cons, ahead_cons, hl]

theorem Paced.startsWith (h : Paced k R S) (hts : R ts ts') (s : Symbol) :
    startsWith s ts' = startsWith s ts := by
  rw [startsWith_eq, startsWith_eq, h.ahead hts]

namespace Reply

variable {ε α α' β β' : Type} {us us' : List Lexeme}

/-- Two replies that both end with a value, or both with an error, and there as `D` or `F` says. -/
def Alike (D : α → List Lexeme → α' → List Lexeme → Prop)
    (F : ε → List Lexeme → ε → List Lexeme → Prop) : Reply ε ts α → Reply ε ts' α' → Prop
  | done a rest _, done a' rest' _ => D a rest a' rest'
  | fail e rest _, fail e' rest' _ => F e rest e' rest'
  | _, _ => False

section Alike

variable {D : α → List Lexeme → α' → List Lexeme → Prop}
  {F : ε → List Lexeme → ε → List Lexeme → Prop}

theorem Alike.later {r : Reply ε us α} {r' : Reply ε us' α'} (h : r.Alike D F r')
    (le : us.length ≤ ts.length) (le' : us'.length ≤ ts'.length) :
    (r.later le).Alike D F (r'.later le') := by
  cases r with
  | done => cases r' with
    | done => exact h
    | fail => exact absurd h id
  | fail => cases r' with
    | done => exact absurd h id
    | fail => exact h

theorem Alike.map {D' : β → List Lexeme → β' → List Lexeme → Prop} {f : α → β} {f' : α' → β'}
    (hf : ∀ {a rest a' rest'}, D a rest a' rest' → D' (f a) rest (f' a') rest')
    {r : Reply ε ts α} {r' : Reply ε ts' α'} (h : r.Alike D F r') :
    (r.map f).Alike D' F (r'.map f') := by
  cases r with
  | done => cases r' with
    | done => exact hf h
    | fail => exact absurd h id
  | fail => cases r' with
    | done => exact absurd h id
    | fail => exact h

end Alike

/-- Two replies with the same value, or with the same error `k` lines apart. An error names the
line of the lexeme it was met at. -/
def Matches (k : Nat) (R S : List Lexeme → List Lexeme → Prop) :
    Reply ParseError ts α → Reply ParseError ts' α → Prop :=
  Alike (fun a rest a' rest' => a' = a ∧ S rest rest') fun e rest e' rest' =>
    e' = e.shift k ∧ e.line? = lineAt rest ∧ R rest rest'

theorem Matches.pure (a : α) (h : S ts ts') :
    (Reply.pure a : Reply ParseError ts α).Matches k R S (Reply.pure a : Reply ParseError ts' α) :=
  ⟨rfl, h⟩

theorem Matches.later {r : Reply ParseError us α} {r' : Reply ParseError us' α}
    (h : r.Matches k R S r') (le : us.length ≤ ts.length) (le' : us'.length ≤ ts'.length) :
    (r.later le).Matches k R S (r'.later le') := Alike.later h le le'

theorem Matches.next {l l' : Lexeme} {r : Reply ParseError ts α} {r' : Reply ParseError ts' α}
    (h : r.Matches k R S r') : (r.next : Reply ParseError (l :: ts) α).Matches k R S
      (r'.next : Reply ParseError (l' :: ts') α) := h.later _ _

theorem Matches.map (f : α → β) {r : Reply ParseError ts α} {r' : Reply ParseError ts' α}
    (h : r.Matches k R S r') : (r.map f).Matches k R S (r'.map f) :=
  Alike.map (fun ha => ⟨congrArg f ha.1, ha.2⟩) h

theorem Matches.andThen {r : Reply ParseError ts α} {r' : Reply ParseError ts' α}
    {f : α → (rest : List Lexeme) → rest.length ≤ ts.length → Reply ParseError rest β}
    {f' : α → (rest : List Lexeme) → rest.length ≤ ts'.length → Reply ParseError rest β}
    (h : r.Matches k R T r')
    (hf : ∀ a rest rest' le le', T rest rest' → (f a rest le).Matches k R S (f' a rest' le')) :
    (r.andThen f).Matches k R S (r'.andThen f') := by
  cases r with
  | done a rest le => cases r' with
    | done a' rest' le' =>
        obtain ⟨rfl, hrest⟩ := h
        exact (hf _ rest rest' le le' hrest).later le le'
    | fail => exact absurd h id
  | fail => cases r' with
    | done => exact absurd h id
    | fail => exact h

theorem Matches.ite {c c' : Bool} {p q : Reply ParseError ts α} {p' q' : Reply ParseError ts' α}
    (hc : c' = c) (hp : p.Matches k R S p') (hq : q.Matches k R S q') :
    (if c then p else q).Matches k R S (if c' then p' else q') := by
  subst hc
  split
  · exact hp
  · exact hq

end Reply

/-! Symbols and identifiers -/

theorem line?_unexpected (expected : String) (ts : List Lexeme) :
    (unexpected expected ts).line? = lineAt ts := by
  unfold unexpected
  split
  · rfl
  · split <;> rfl

section Names

variable (h : Paced k R S)

include h

theorem shift_unexpected (hts : R ts ts') (expected : String) :
    unexpected expected ts' = (unexpected expected ts).shift k := by
  cases ts with
  | nil =>
      obtain rfl := h.nil hts
      rfl
  | cons l r =>
      obtain ⟨l', r', rfl, hl, hline, -⟩ := h.cons hts
      cases htoken : l.token <;> simp [unexpected, hl, hline, htoken, ParseError.shift]

theorem matches_reject {α : Type} (hts : R ts ts') (expected : String) :
    (reject expected ts : Reply ParseError ts α).Matches k R T (reject expected ts') :=
  ⟨shift_unexpected h hts expected, line?_unexpected expected ts, hts⟩

theorem matches_semicolon (hts : R ts ts') :
    (expect .semicolon ts).Matches k R S (expect .semicolon ts') := by
  cases ts with
  | nil =>
      obtain rfl := h.nil hts
      exact matches_reject h hts _
  | cons l r =>
      obtain ⟨l', r', rfl, hl, -, hr, -⟩ := h.cons hts
      rw [expect, expect, hl]
      split
      · rename_i hsemi
        exact ⟨rfl, hr hsemi⟩
      · exact matches_reject h hts _

theorem matches_expect (hts : R ts ts') (s : Symbol) (hs : s ≠ .semicolon) :
    (expect s ts).Matches k R R (expect s ts') := by
  cases ts with
  | nil =>
      obtain rfl := h.nil hts
      exact matches_reject h hts _
  | cons l r =>
      obtain ⟨l', r', rfl, hl, -, -, hr⟩ := h.cons hts
      rw [expect, expect, hl]
      split
      · rename_i hsymbol
        exact ⟨rfl, hr (by simpa [hsymbol] using hs)⟩
      · exact matches_reject h hts _

theorem matches_identifier (hts : R ts ts') :
    (identifier ts).Matches k R R (identifier ts') := by
  cases ts with
  | nil =>
      obtain rfl := h.nil hts
      exact matches_reject h hts _
  | cons l r =>
      obtain ⟨l', r', rfl, hl, -, -, hr⟩ := h.cons hts
      cases htoken : l.token with
      | ident name =>
          simp only [identifier, hl, htoken]
          exact ⟨rfl, hr (by simp [htoken])⟩
      | _ =>
          simp only [identifier, hl, htoken]
          exact matches_reject h hts _

/-- Further items, each after a comma. -/
theorem matches_tail {α : Type} {item : (ts : List Lexeme) → Reply ParseError ts α}
    {items : (ts : List Lexeme) → Reply ParseError ts (List α)}
    (hnil : items [] = .pure [])
    (hcomma : ∀ l r, l.token = .symbol .comma → items (l :: r) =
      ((item r).andThen fun a rest _ => (items rest).map (a :: ·)).next)
    (hother : ∀ l r, l.token ≠ .symbol .comma → items (l :: r) = .pure [])
    (hitem : ∀ us us', us.length < ts.length → R us us' → (item us).Matches k R R (item us'))
    (hitems : ∀ us us', us.length < ts.length → R us us' → (items us).Matches k R R (items us'))
    (hts : R ts ts') : (items ts).Matches k R R (items ts') := by
  cases ts with
  | nil =>
      obtain rfl := h.nil hts
      rw [hnil]
      exact .pure [] hts
  | cons l r =>
      obtain ⟨l', r', rfl, hl, -, -, hr⟩ := h.cons hts
      by_cases htoken : l.token = .symbol .comma
      · have hr := hr (by simp [htoken])
        rw [hcomma l r htoken, hcomma l' r' (hl.trans htoken)]
        refine .next ((hitem r r' (Nat.lt_succ_self _) hr).andThen ?_)
        intro a rest rest' le _ hrest
        exact (hitems rest rest' (Nat.lt_succ_of_le le) hrest).map (a :: ·)
      · rw [hother l r htoken, hother l' r' (hl ▸ htoken)]
        exact .pure [] hts

theorem matches_identifierTail (ts ts' : List Lexeme) (hts : R ts ts') :
    (identifierTail ts).Matches k R R (identifierTail ts') := by
  induction hn : ts.length using Nat.strong_induction_on generalizing ts ts' with
  | _ n ih =>
    subst hn
    refine matches_tail h ?_ ?_ ?_ (fun us us' _ hus => matches_identifier h hus)
      (fun us us' hlt hus => ih us.length hlt us us' hus rfl) hts
    · rw [identifierTail]
    · intro l r hl
      rw [identifierTail, if_pos hl]
    · intro l r hl
      rw [identifierTail, if_neg hl]

theorem matches_identifiers (hts : R ts ts') :
    (identifiers ts).Matches k R R (identifiers ts') :=
  (matches_identifier h hts).andThen fun name rest rest' _ _ hrest =>
    (matches_identifierTail h rest rest' hrest).map (name :: ·)

end Names

/-! Expressions -/

mutual

theorem matches_binary (h : Paced k R S) (minimum : Nat) (ts ts' : List Lexeme) (hts : R ts ts') :
    (binary minimum ts).Matches k R R (binary minimum ts') := by
  rw [binary, binary]
  refine (matches_unary h ts ts' hts).andThen ?_
  intro left rest rest' hle _ hrest
  exact matches_operators h minimum left rest rest' hrest
termination_by 4 * ts.length + 2

theorem matches_operators (h : Paced k R S) (minimum : Nat) (left : Expr) :
    ∀ ts ts' : List Lexeme, R ts ts' →
      (operators minimum left ts).Matches k R R (operators minimum left ts')
  | [], ts', hts => by
      obtain rfl := h.nil hts
      rw [operators]
      exact .pure left hts
  | l :: r, ts', hts => by
      obtain ⟨l', r', rfl, hl, -, -, hr⟩ := h.cons hts
      have hsame : binaryOp? l' = binaryOp? l := by rw [binaryOp?, binaryOp?, hl]
      rw [operators, operators, hsame]
      cases hop : binaryOp? l with
      | none => exact .pure left hts
      | some op =>
          dsimp only
          split
          · exact .pure left hts
          · have hr := hr (by rintro hsemi; rw [binaryOp?, hsemi] at hop; cases hop)
            refine .next ((matches_binary h (op.precedence + 1) r r' hr).andThen ?_)
            intro right rest rest' hle _ hrest
            exact matches_operators h minimum (.binary op left right) rest rest' hrest
termination_by ts => 4 * ts.length

theorem matches_unary (h : Paced k R S) : ∀ ts ts' : List Lexeme, R ts ts' →
    (unary ts).Matches k R R (unary ts')
  | [], ts', hts => by
      obtain rfl := h.nil hts
      rw [unary]
      exact matches_primary h [] [] hts
  | l :: r, ts', hts => by
      obtain ⟨l', r', rfl, hl, -, -, hr⟩ := h.cons hts
      have hsame : unaryOp? l' = unaryOp? l := by rw [unaryOp?, unaryOp?, hl]
      rw [unary, unary, hsame]
      cases hop : unaryOp? l with
      | none => exact matches_primary h (l :: r) (l' :: r') hts
      | some op =>
          have hr := hr (by rintro hsemi; rw [unaryOp?, hsemi] at hop; cases hop)
          exact .next ((matches_unary h r r' hr).map (Expr.unary op))
termination_by ts => 4 * ts.length + 1

theorem matches_primary (h : Paced k R S) : ∀ ts ts' : List Lexeme, R ts ts' →
    (primary ts).Matches k R R (primary ts')
  | [], ts', hts => by
      obtain rfl := h.nil hts
      rw [primary]
      exact matches_reject h hts _
  | l :: r, ts', hts => by
      obtain ⟨l', r', rfl, hl, -, -, hr⟩ := h.cons hts
      cases htoken : l.token with
      | int text | float text | string text | constant c =>
          simp only [primary, hl, htoken]
          exact ⟨rfl, hr (by simp [htoken])⟩
      | ident name =>
          have hr := hr (by simp [htoken])
          rw [primary, primary]
          simp only [hl, htoken]
          refine .ite (h.startsWith hr .lparen) ?_ ?_
          · refine .next ((matches_arguments h r r' hr).andThen ?_)
            intro params rest rest' hle _ hrest
            exact (matches_callRegisters h rest rest' hrest).map _
          · cases r with
            | nil =>
                obtain rfl := h.nil hr
                exact ⟨rfl, hr⟩
            | cons l₂ r₂ =>
                obtain ⟨l₂', r₂', rfl, hl₂, -⟩ := h.cons hr
                cases htoken₂ : l₂.token with
                | ident m =>
                    simp only [hl₂, htoken₂]
                    exact .next ((matches_registers h (l₂ :: r₂) (l₂' :: r₂') hr).map _)
                | _ =>
                    simp only [hl₂, htoken₂]
                    exact .next (matches_position h name (l₂ :: r₂) (l₂' :: r₂') hr)
      | symbol s =>
          cases s with
          | lparen =>
              simp only [primary, hl, htoken]
              refine .next ((matches_binary h 0 r r' (hr (by simp [htoken]))).andThen ?_)
              intro e rest rest' hle _ hrest
              exact (matches_expect h hrest .rparen (by decide)).map _
          | _ =>
              simp only [primary, hl, htoken]
              exact matches_reject h hts _
      | _ =>
          simp only [primary, hl, htoken]
          exact matches_reject h hts _
termination_by ts => 4 * ts.length
decreasing_by all_goals (subst_vars; simp only [List.length_cons]; omega)

theorem matches_arguments (h : Paced k R S) : ∀ ts ts' : List Lexeme, R ts ts' →
    (arguments ts).Matches k R R (arguments ts')
  | [], ts', hts => by
      obtain rfl := h.nil hts
      rw [arguments]
      exact matches_reject h hts _
  | l :: r, ts', hts => by
      obtain ⟨l', r', rfl, hl, -, -, hr⟩ := h.cons hts
      rw [arguments, arguments, hl]
      split
      · rename_i htoken
        have hr := hr (by simp [htoken])
        refine .ite (h.startsWith hr .rparen) ?_ ?_
        · exact .next ((matches_expect h hr .rparen (by decide)).map _)
        · refine .next ((matches_binary h 0 r r' hr).andThen ?_)
          intro e rest rest' hle _ hrest
          refine (matches_argumentTail h rest rest' hrest).andThen ?_
          intro es rest₂ rest₂' _ _ hrest₂
          exact (matches_expect h hrest₂ .rparen (by decide)).map _
      · exact matches_reject h hts _
termination_by ts => 4 * ts.length
decreasing_by all_goals (subst_vars; simp only [List.length_cons]; omega)

theorem matches_argumentTail (h : Paced k R S) (ts ts' : List Lexeme) (hts : R ts ts') :
    (argumentTail ts).Matches k R R (argumentTail ts') := by
  refine matches_tail h ?_ ?_ ?_ (fun us us' hlt hus => matches_binary h 0 us us' hus)
    (fun us us' hlt hus => matches_argumentTail h us us' hus) hts
  · rw [argumentTail]
  · intro l r hl
    rw [argumentTail, if_pos hl]
  · intro l r hl
    rw [argumentTail, if_neg hl]
termination_by 4 * ts.length

theorem matches_position (h : Paced k R S) (name : String) : ∀ ts ts' : List Lexeme, R ts ts' →
    (position name ts).Matches k R R (position name ts')
  | [], ts', hts => by
      obtain rfl := h.nil hts
      rw [position]
      exact .pure _ hts
  | l :: r, ts', hts => by
      obtain ⟨l', r', rfl, hl, -, -, hr⟩ := h.cons hts
      rw [position, position, hl]
      split
      · rename_i htoken
        refine .next ((matches_binary h 0 r r' (hr (by simp [htoken]))).andThen ?_)
        intro i rest rest' hle _ hrest
        exact (matches_expect h hrest .rbracket (by decide)).map _
      · exact .pure _ hts
termination_by ts => 4 * ts.length

theorem matches_register (h : Paced k R S) (ts ts' : List Lexeme) (hts : R ts ts') :
    (register ts).Matches k R R (register ts') := by
  rw [register, register]
  refine (matches_identifier h hts).andThen ?_
  intro name rest rest' hle _ hrest
  exact matches_position h name rest rest' hrest
termination_by 4 * ts.length + 1

theorem matches_registerTail (h : Paced k R S) (ts ts' : List Lexeme) (hts : R ts ts') :
    (registerTail ts).Matches k R R (registerTail ts') := by
  refine matches_tail h ?_ ?_ ?_ (fun us us' hlt hus => matches_register h us us' hus)
    (fun us us' hlt hus => matches_registerTail h us us' hus) hts
  · rw [registerTail]
  · intro l r hl
    rw [registerTail, if_pos hl]
  · intro l r hl
    rw [registerTail, if_neg hl]
termination_by 4 * ts.length
decreasing_by all_goals omega

theorem matches_registers (h : Paced k R S) (ts ts' : List Lexeme) (hts : R ts ts') :
    (registers ts).Matches k R R (registers ts') := by
  rw [registers, registers]
  refine (matches_register h ts ts' hts).andThen ?_
  intro e rest rest' hle _ hrest
  exact (matches_registerTail h rest rest' hrest).map (e :: ·)
termination_by 4 * ts.length + 2

theorem matches_callRegisters (h : Paced k R S) : ∀ ts ts' : List Lexeme, R ts ts' →
    (callRegisters ts).Matches k R R (callRegisters ts')
  | [], ts', hts => by
      obtain rfl := h.nil hts
      rw [callRegisters]
      exact .pure [] hts
  | l :: r, ts', hts => by
      obtain ⟨l', r', rfl, hl, -⟩ := h.cons hts
      cases htoken : l.token with
      | ident name =>
          simp only [callRegisters, hl, htoken]
          exact matches_registers h (l :: r) (l' :: r') hts
      | _ =>
          simp only [callRegisters, hl, htoken]
          exact .pure [] hts
termination_by ts => 4 * ts.length + 3

end

theorem matches_expression (h : Paced k R S) (hts : R ts ts') :
    (expression ts).Matches k R R (expression ts') :=
  matches_binary h 0 ts ts' hts

theorem matches_optionalRegisters (h : Paced k R S) (hts : R ts ts') :
    (optionalRegisters ts).Matches k R R (optionalRegisters ts') := by
  have hends : endsRegisters ts' = endsRegisters ts := by
    cases ts with
    | nil => rw [h.nil hts]
    | cons l r =>
        obtain ⟨l', r', rfl, hl, -⟩ := h.cons hts
        simp only [endsRegisters, hl]
  exact .ite hends (.pure [] hts) (matches_registers h ts ts' hts)

theorem matches_optionalArguments (h : Paced k R S) (hts : R ts ts') :
    (optionalArguments ts).Matches k R R (optionalArguments ts') :=
  .ite (h.startsWith hts .lparen) (matches_arguments h ts ts' hts) (.pure [] hts)

theorem matches_value (h : Paced k R S) (hts : R ts ts') :
    (value ts).Matches k R R (value ts') := by
  cases ts with
  | nil =>
      obtain rfl := h.nil hts
      exact matches_expression h hts
  | cons l r =>
      obtain ⟨l', r', rfl, hl, -, -, hr⟩ := h.cons hts
      rw [value, value, hl]
      split
      · rename_i htoken
        exact .next ((matches_optionalRegisters h (hr (by simp [htoken]))).map Expr.measure)
      · exact matches_expression h hts

end Parser

end OpenQasm
