import OpenQasm.Proofs.Lexing.Lines
import OpenQasm.Proofs.Parsing.Completeness.Expr

/-!
# Parsers look one token ahead

What a parser finishes with depends only on the tokens it takes and on the token after
them. So it finishes with the same value on other lexemes with these tokens, whatever
stands further on. Inside a statement no semicolon, no brace and no illegal token is taken.
-/
namespace OpenQasm

/-- The tokens that stand inside a statement without a body. -/
def Token.isInner : Token → Bool
  | symbol .semicolon => false
  | symbol .lbrace => false
  | symbol .rbrace => false
  | illegal _ => false
  | _ => true

namespace Parser

def ahead (ts : List Lexeme) : Option Token := ts.head?.map Lexeme.token

theorem ahead_cons (l : Lexeme) (ts : List Lexeme) : ahead (l :: ts) = some l.token := rfl

theorem eq_nil_of_ahead {ts : List Lexeme} (h : ahead ts = ahead []) : ts = [] := by
  cases ts with
  | nil => rfl
  | cons l r => cases h

theorem exists_of_ahead {ts r : List Lexeme} {l : Lexeme} (h : ahead ts = ahead (l :: r)) :
    ∃ l' r', ts = l' :: r' ∧ l'.token = l.token := by
  cases ts with
  | nil => cases h
  | cons l' r' => exact ⟨l', r', rfl, Option.some.inj h⟩

theorem startsWith_eq (s : Symbol) (ts : List Lexeme) :
    startsWith s ts = decide (ahead ts = some (.symbol s)) := by
  cases ts with
  | nil => rfl
  | cons l r => simp [startsWith, ahead_cons]

theorem ahead_of_spells {used : List Token} {ts ts' rest rest' : List Lexeme}
    (h : Spells used ts rest) (h' : Spells used ts' rest')
    (hrest : used = [] → ahead rest' = ahead rest) : ahead ts' = ahead ts := by
  cases used with
  | nil =>
      obtain rfl : ts = rest := h
      obtain rfl : ts' = rest' := h'
      exact hrest rfl
  | cons t used =>
      obtain ⟨l, r, rfl, hl, -⟩ := h
      obtain ⟨l', r', rfl, hl', -⟩ := h'
      rw [ahead_cons, ahead_cons, hl, hl']

variable {ε α β : Type} {close : List Token} {ts : List Lexeme}

theorem Reply.Yields.of_andThen {r : Reply ε ts α} {b : β} {left : List Lexeme}
    {f : α → (rest : List Lexeme) → rest.length ≤ ts.length → Reply ε rest β}
    (h : (r.andThen f).Yields b left) :
    ∃ a rest le, r.Yields a rest ∧ (f a rest le).Yields b left := by
  cases r with
  | fail => exact absurd h id
  | done a rest le =>
      refine ⟨a, rest, le, ⟨rfl, rfl⟩, ?_⟩
      simp only [Reply.andThen] at h
      revert h
      cases f a rest le with
      | fail => exact id
      | done => exact id

theorem Reply.Yields.of_map {r : Reply ε ts α} {f : α → β} {b : β} {rest : List Lexeme}
    (h : (r.map f).Yields b rest) : ∃ a, r.Yields a rest ∧ f a = b := by
  cases r with
  | fail => exact absurd h id
  | done a rest le => exact ⟨a, ⟨rfl, h.2⟩, h.1⟩

theorem Reply.Yields.of_next {l : Lexeme} {r : Reply ε ts α} {a : α} {rest : List Lexeme}
    (h : (r.next : Reply ε (l :: ts) α).Yields a rest) : r.Yields a rest := by
  cases r with
  | fail => exact h
  | done => exact h

/-- If a parser finishes on `ts`, it takes tokens that stand inside a statement and then those
of `close`, and finishes in the same way wherever these tokens stand. The token after them
counts only if there is nothing to close. -/
def Local (close : List Token) (p : (ts : List Lexeme) → Reply ε ts α) (ts : List Lexeme) : Prop :=
  ∀ a rest, (p ts).Yields a rest → ∃ phrase, (∀ t ∈ phrase, t.isInner = true) ∧
    Spells (phrase ++ close) ts rest ∧
    ∀ ts' rest', Spells (phrase ++ close) ts' rest' → (close = [] → ahead rest' = ahead rest) →
      (p ts').Yields a rest'

namespace Local

variable {p q : (ts : List Lexeme) → Reply ε ts α}

/-- The next token decides between the rules of a parser. -/
theorem congr (h : ∀ ts', ahead ts' = ahead ts → p ts' = q ts') (hq : Local close q ts) :
    Local close p ts := by
  intro a rest ha
  rw [h ts rfl] at ha
  obtain ⟨phrase, hphrase, hspells, hother⟩ := hq a rest ha
  refine ⟨phrase, hphrase, hspells, fun ts' rest' hspells' hrest => ?_⟩
  have hahead : ahead ts' = ahead ts := ahead_of_spells hspells hspells' fun hused =>
    hrest (List.append_eq_nil_iff.1 hused).2
  rw [h ts' hahead]
  exact hother ts' rest' hspells' hrest

theorem fail (h : ∀ a rest, ¬(p ts).Yields a rest) : Local close p ts :=
  fun a rest ha => absurd ha (h a rest)

theorem pure (a : α) (ts : List Lexeme) : Local [] (fun ts => (.pure a : Reply ε ts α)) ts := by
  rintro _ _ ⟨rfl, rfl⟩
  refine ⟨[], by simp, rfl, fun ts' rest' hspells _ => ?_⟩
  obtain rfl : ts' = rest' := hspells
  exact ⟨rfl, rfl⟩

theorem map (f : α → β) (hp : Local close p ts) : Local close (fun ts => (p ts).map f) ts := by
  intro b rest hb
  obtain ⟨a, ha, rfl⟩ := hb.of_map
  obtain ⟨phrase, hphrase, hspells, hother⟩ := hp a rest ha
  exact ⟨phrase, hphrase, hspells, fun ts' rest' hspells' hrest =>
    (hother ts' rest' hspells' hrest).map f⟩

theorem andThen {f : α → (ts : List Lexeme) → Reply ε ts β} (hp : Local [] p ts)
    (hf : ∀ a rest, rest.length ≤ ts.length → Local close (f a) rest) :
    Local close (fun ts => (p ts).andThen fun a rest _ => f a rest) ts := by
  intro b left hb
  obtain ⟨a, rest, hle, ha, hb⟩ := hb.of_andThen
  obtain ⟨first, hfirst, hspells, hother⟩ := hp a rest ha
  obtain ⟨second, hsecond, hspells₂, hother₂⟩ := hf a rest hle b left hb
  rw [List.append_nil] at hspells hother
  refine ⟨first ++ second, List.forall_mem_append.2 ⟨hfirst, hsecond⟩, ?_, ?_⟩
  · rw [List.append_assoc]
    exact spells_append.2 ⟨rest, hspells, hspells₂⟩
  · intro ts' left' h hleft
    rw [List.append_assoc] at h
    obtain ⟨rest', hspells', hspells₂'⟩ := spells_append.1 h
    have hahead : ahead rest' = ahead rest := ahead_of_spells hspells₂ hspells₂' fun hused =>
      hleft (List.append_eq_nil_iff.1 hused).2
    exact (hother ts' rest' hspells' fun _ => hahead).andThen fun _ =>
      hother₂ rest' left' hspells₂' hleft

/-- A rule that takes the first lexeme. The token after it may decide as well. -/
theorem next {l : Lexeme} {r : List Lexeme} (hl : l.token.isInner = true)
    (h : ∀ l' r', l'.token = l.token → ahead r' = ahead r → p (l' :: r') = (q r').next)
    (hq : Local close q r) : Local close p (l :: r) := by
  intro a rest ha
  rw [h l r rfl rfl] at ha
  obtain ⟨phrase, hphrase, hspells, hother⟩ := hq a rest ha.of_next
  refine ⟨l.token :: phrase, List.forall_mem_cons.2 ⟨hl, hphrase⟩, ⟨l, r, rfl, rfl, hspells⟩, ?_⟩
  rintro _ rest' ⟨l', r', rfl, hl', hspells'⟩ hrest
  have hahead : ahead r' = ahead r := ahead_of_spells hspells hspells' fun hused =>
    hrest (List.append_eq_nil_iff.1 hused).2
  rw [h l' r' hl' hahead]
  exact .next (hother r' rest' hspells' hrest)

theorem ite {c : List Lexeme → Bool} (hc : ∀ ts', ahead ts' = ahead ts → c ts' = c ts)
    (hp : c ts = true → Local close p ts) (hq : c ts = false → Local close q ts) :
    Local close (fun ts => if c ts then p ts else q ts) ts := by
  cases hts : c ts with
  | true => exact congr (fun ts' h => by rw [hc ts' h, hts, if_pos rfl]) (hp hts)
  | false => exact congr (fun ts' h => by rw [hc ts' h, hts, if_neg (by simp)]) (hq hts)

theorem startsWith {s : Symbol} (hp : Local close p ts) (hq : Local close q ts) :
    Local close (fun ts => if Parser.startsWith s ts then p ts else q ts) ts :=
  ite (fun ts' h => by rw [startsWith_eq, startsWith_eq, h]) (fun _ => hp) fun _ => hq

/-- Nothing is taken at the end. -/
theorem nil {a : α} (h : p [] = .pure a) : Local [] p [] := by
  refine congr (fun ts' hts' => ?_) (pure a [])
  obtain rfl := eq_nil_of_ahead hts'
  exact h

/-- Nothing is taken before some token. -/
theorem stop (a : α) {l : Lexeme} {r : List Lexeme}
    (h : ∀ l' r', l'.token = l.token → p (l' :: r') = .pure a) : Local [] p (l :: r) := by
  refine congr (fun ts' hts' => ?_) (pure a (l :: r))
  obtain ⟨l', r', rfl, hl'⟩ := exists_of_ahead hts'
  exact h l' r' hl'

/-- A single lexeme is taken. -/
theorem take (a : α) {l : Lexeme} {r : List Lexeme} (hl : l.token.isInner = true)
    (h : ∀ l' r', l'.token = l.token → p (l' :: r') = .done a r' (Nat.le_succ _)) :
    Local [] p (l :: r) :=
  next (q := fun _ => .pure a) hl (fun l' r' hl' _ => h l' r' hl') (pure a r)

/-- Further items, each after a comma. -/
theorem tail {item : (ts : List Lexeme) → Reply ε ts β}
    {items : (ts : List Lexeme) → Reply ε ts (List β)} {l : Lexeme} {r : List Lexeme}
    (hcomma : ∀ l' r', l'.token = .symbol .comma → items (l' :: r') =
      ((item r').andThen fun b rest _ => (items rest).map (b :: ·)).next)
    (hother : ∀ l' r', l'.token ≠ .symbol .comma → items (l' :: r') = .pure [])
    (hitem : Local [] item r) (hitems : ∀ rest, rest.length ≤ r.length → Local [] items rest) :
    Local [] items (l :: r) := by
  by_cases hl : l.token = .symbol .comma
  · refine next (by rw [hl]; rfl) (fun l' r' hl' _ => hcomma l' r' (hl'.trans hl)) ?_
    exact hitem.andThen fun b rest hle => (hitems rest hle).map (b :: ·)
  · exact stop [] fun l' r' hl' => hother l' r' (hl' ▸ hl)

/-- What is closed inside a statement can be taken as a part of it. -/
theorem inner (hclose : ∀ t ∈ close, t.isInner = true) (hp : Local close p ts) : Local [] p ts := by
  intro a rest ha
  obtain ⟨phrase, hphrase, hspells, hother⟩ := hp a rest ha
  refine ⟨phrase ++ close, List.forall_mem_append.2 ⟨hphrase, hclose⟩, ?_, ?_⟩
  · rwa [List.append_nil]
  · intro ts' rest' hspells' hrest
    rw [List.append_nil] at hspells'
    exact hother ts' rest' hspells' fun _ => hrest rfl

end Local

/-! Symbols and identifiers -/

theorem closes_expect (s : Symbol) (ts : List Lexeme) : Local [.symbol s] (expect s) ts := by
  cases ts with
  | nil => exact .fail fun _ _ => id
  | cons l r =>
      by_cases hl : l.token = .symbol s
      · intro a rest ha
        rw [expect, if_pos hl] at ha
        obtain ⟨rfl, rfl⟩ := ha
        refine ⟨[], by simp, ⟨l, r, rfl, hl, rfl⟩, ?_⟩
        rintro _ rest' ⟨l', r', rfl, hl', rfl⟩ -
        exact yields_expect hl' _
      · refine .fail fun a rest ha => ?_
        rw [expect, if_neg hl] at ha
        exact ha

theorem local_expect (s : Symbol) (hs : (Token.symbol s).isInner = true) (ts : List Lexeme) :
    Local [] (expect s) ts :=
  (closes_expect s ts).inner (by simpa using hs)

theorem local_identifier (ts : List Lexeme) : Local [] identifier ts := by
  cases ts with
  | nil => exact .fail fun _ _ => id
  | cons l r =>
      cases hl : l.token with
      | ident name =>
          refine .take name (by rw [hl]; rfl) fun l' r' hl' => ?_
          simp only [identifier, hl', hl]
      | _ =>
          refine .fail fun a rest ha => ?_
          simp only [identifier, hl] at ha
          exact ha

theorem local_identifierTail : ∀ ts : List Lexeme, Local [] identifierTail ts
  | [] => .nil (by rw [identifierTail])
  | l :: r => by
      refine .tail (fun l' r' hl' => ?_) (fun l' r' hl' => ?_) (local_identifier r)
        fun rest hle => local_identifierTail rest
      · rw [identifierTail, if_pos hl']
      · rw [identifierTail, if_neg hl']
termination_by ts => ts.length

theorem local_identifiers (ts : List Lexeme) : Local [] identifiers ts :=
  (local_identifier ts).andThen fun name rest _ => (local_identifierTail rest).map (name :: ·)

/-! Expressions -/

theorem isInner_of_binaryOp? {l : Lexeme} {op : BinaryOp} (h : binaryOp? l = some op) :
    l.token.isInner = true := by
  unfold binaryOp? at h
  split at h
  · rename_i s hs
    rw [hs]
    cases s <;> first | rfl | cases h
  · cases h

theorem isInner_of_unaryOp? {l : Lexeme} {op : UnaryOp} (h : unaryOp? l = some op) :
    l.token.isInner = true := by
  unfold unaryOp? at h
  split at h
  · rename_i s hs
    rw [hs]
    cases s <;> first | rfl | cases h
  · cases h

mutual

theorem local_binary (minimum : Nat) (ts : List Lexeme) : Local [] (binary minimum) ts := by
  refine .congr (fun ts' _ => binary.eq_1 minimum ts') ?_
  exact (local_unary ts).andThen fun left rest hle => local_operators minimum left rest
termination_by 4 * ts.length + 2

theorem local_operators (minimum : Nat) (left : Expr) :
    ∀ ts : List Lexeme, Local [] (operators minimum left) ts
  | [] => .nil (by rw [operators])
  | l :: r => by
      have hsame : ∀ l' : Lexeme, l'.token = l.token → binaryOp? l' = binaryOp? l := by
        intro l' hl'
        rw [binaryOp?, binaryOp?, hl']
      cases hop : binaryOp? l with
      | none =>
          refine .stop left fun l' r' hl' => ?_
          rw [operators, hsame l' hl', hop]
      | some op =>
          by_cases hlt : op.precedence < minimum
          · refine .stop left fun l' r' hl' => ?_
            rw [operators, hsame l' hl', hop]
            exact if_pos hlt
          · refine .next (isInner_of_binaryOp? hop) (fun l' r' hl' _ => ?_)
              ((local_binary (op.precedence + 1) r).andThen fun right rest hle =>
                local_operators minimum (.binary op left right) rest)
            rw [operators, hsame l' hl', hop]
            exact if_neg hlt
termination_by ts => 4 * ts.length

theorem local_unary : ∀ ts : List Lexeme, Local [] unary ts
  | [] => by
      refine .congr (fun ts' h => ?_) (local_primary [])
      obtain rfl := eq_nil_of_ahead h
      rw [unary]
  | l :: r => by
      have hsame : ∀ l' : Lexeme, l'.token = l.token → unaryOp? l' = unaryOp? l := by
        intro l' hl'
        rw [unaryOp?, unaryOp?, hl']
      cases hop : unaryOp? l with
      | none =>
          refine .congr (fun ts' h => ?_) (local_primary (l :: r))
          obtain ⟨l', r', rfl, hl'⟩ := exists_of_ahead h
          rw [unary, hsame l' hl', hop]
      | some op =>
          refine .next (isInner_of_unaryOp? hop) (fun l' r' hl' _ => ?_)
            ((local_unary r).map (.unary op))
          rw [unary, hsame l' hl', hop]
termination_by ts => 4 * ts.length + 1

theorem local_primary : ∀ ts : List Lexeme, Local [] primary ts
  | [] => .fail fun a rest ha => by
      rw [primary] at ha
      exact ha
  | l :: r => by
      cases hl : l.token with
      | int text =>
          refine .take (.lit ⟨.int, text⟩) (by rw [hl]; rfl) fun l' r' hl' => ?_
          simp only [primary, hl', hl]
      | float text =>
          refine .take (.lit ⟨.float, text⟩) (by rw [hl]; rfl) fun l' r' hl' => ?_
          simp only [primary, hl', hl]
      | string text =>
          refine .take (.lit ⟨.string, text⟩) (by rw [hl]; rfl) fun l' r' hl' => ?_
          simp only [primary, hl', hl]
      | constant c =>
          refine .take (.ident c.text) (by rw [hl]; rfl) fun l' r' hl' => ?_
          simp only [primary, hl', hl]
      | ident name =>
          have hinner : l.token.isInner = true := by
            rw [hl]
            rfl
          by_cases hparen : startsWith .lparen r = true
          · refine .next hinner (fun l' r' hl' hr' => ?_)
              ((local_arguments r).andThen fun params rest hle =>
                (local_callRegisters rest).map fun qargs => Expr.call name [] params qargs)
            have hparen' : startsWith .lparen r' = true := by
              rw [startsWith_eq, hr', ← startsWith_eq, hparen]
            simp only [primary, hl', hl, hparen', if_true]
          · cases r with
            | nil =>
                refine .next hinner (fun l' r' hl' hr' => ?_) (.pure (.ident name) [])
                obtain rfl := eq_nil_of_ahead hr'
                simp only [primary, hl', hl]
                rfl
            | cons l₂ r₂ =>
                cases hl₂ : l₂.token with
                | ident m =>
                    refine .next hinner (fun l' r' hl' hr' => ?_)
                      ((local_registers (l₂ :: r₂)).map fun qargs => Expr.call name [] [] qargs)
                    obtain ⟨l₂', r₂', rfl, hl₂'⟩ := exists_of_ahead hr'
                    simp [primary, hl', hl, startsWith, hl₂', hl₂]
                | _ =>
                    refine .next hinner (fun l' r' hl' hr' => ?_) (local_position name (l₂ :: r₂))
                    obtain ⟨l₂', r₂', rfl, hl₂'⟩ := exists_of_ahead hr'
                    simp_all [primary, startsWith]
      | symbol s =>
          cases s with
          | lparen =>
              refine .next (by rw [hl]; rfl) (fun l' r' hl' _ => ?_)
                ((local_binary 0 r).andThen fun e rest hle =>
                  (local_expect .rparen rfl rest).map fun _ => Expr.paren e)
              simp only [primary, hl', hl]
          | _ =>
              refine .fail fun a rest ha => ?_
              simp only [primary, hl] at ha
              exact ha
      | _ =>
          refine .fail fun a rest ha => ?_
          simp only [primary, hl] at ha
          exact ha
termination_by ts => 4 * ts.length

theorem local_arguments : ∀ ts : List Lexeme, Local [] arguments ts
  | [] => .fail fun a rest ha => by
      rw [arguments] at ha
      exact ha
  | l :: r => by
      by_cases hl : l.token = .symbol .lparen
      · refine .next (by rw [hl]; rfl) (fun l' r' hl' _ => ?_)
          (.startsWith (s := .rparen) ((local_expect .rparen rfl r).map fun _ => [])
            ((local_binary 0 r).andThen fun e rest hle =>
              (local_argumentTail rest).andThen fun es rest' _ =>
                (local_expect .rparen rfl rest').map fun _ => e :: es))
        rw [arguments, if_pos (hl'.trans hl)]
        split <;> rfl
      · refine .fail fun a rest ha => ?_
        rw [arguments, if_neg hl] at ha
        exact ha
termination_by ts => 4 * ts.length

theorem local_argumentTail : ∀ ts : List Lexeme, Local [] argumentTail ts
  | [] => .nil (by rw [argumentTail])
  | l :: r => by
      refine .tail (fun l' r' hl' => ?_) (fun l' r' hl' => ?_) (local_binary 0 r)
        fun rest hle => local_argumentTail rest
      · rw [argumentTail, if_pos hl']
      · rw [argumentTail, if_neg hl']
termination_by ts => 4 * ts.length

theorem local_position (name : String) : ∀ ts : List Lexeme, Local [] (position name) ts
  | [] => .nil (by rw [position])
  | l :: r => by
      by_cases hl : l.token = .symbol .lbracket
      · refine .next (by rw [hl]; rfl) (fun l' r' hl' _ => ?_)
          ((local_binary 0 r).andThen fun i rest hle =>
            (local_expect .rbracket rfl rest).map fun _ => Expr.index name i)
        rw [position, if_pos (hl'.trans hl)]
      · refine .stop (.ident name) fun l' r' hl' => ?_
        rw [position, if_neg (hl' ▸ hl)]
termination_by ts => 4 * ts.length

theorem local_register (ts : List Lexeme) : Local [] register ts := by
  refine .congr (fun ts' _ => register.eq_1 ts') ?_
  exact (local_identifier ts).andThen fun name rest hle => local_position name rest
termination_by 4 * ts.length + 1

theorem local_registerTail : ∀ ts : List Lexeme, Local [] registerTail ts
  | [] => .nil (by rw [registerTail])
  | l :: r => by
      refine .tail (fun l' r' hl' => ?_) (fun l' r' hl' => ?_) (local_register r)
        fun rest hle => local_registerTail rest
      · rw [registerTail, if_pos hl']
      · rw [registerTail, if_neg hl']
termination_by ts => 4 * ts.length

theorem local_registers (ts : List Lexeme) : Local [] registers ts := by
  refine .congr (fun ts' _ => registers.eq_1 ts') ?_
  exact (local_register ts).andThen fun e rest hle => (local_registerTail rest).map (e :: ·)
termination_by 4 * ts.length + 2

theorem local_callRegisters : ∀ ts : List Lexeme, Local [] callRegisters ts
  | [] => .nil (by rw [callRegisters])
  | l :: r => by
      cases hl : l.token with
      | ident name =>
          refine .congr (fun ts' h => ?_) (local_registers (l :: r))
          obtain ⟨l', r', rfl, hl'⟩ := exists_of_ahead h
          simp only [callRegisters, hl', hl]
      | _ =>
          refine .stop [] fun l' r' hl' => ?_
          simp only [callRegisters, hl', hl]
termination_by ts => 4 * ts.length + 3

end

theorem local_expression (ts : List Lexeme) : Local [] expression ts := local_binary 0 ts

theorem local_optionalRegisters (ts : List Lexeme) : Local [] optionalRegisters ts := by
  refine .ite (fun ts' h => ?_) (fun _ => .pure [] ts) fun _ => local_registers ts
  cases ts with
  | nil =>
      obtain rfl := eq_nil_of_ahead h
      rfl
  | cons l r =>
      obtain ⟨l', r', rfl, hl'⟩ := exists_of_ahead h
      simp only [endsRegisters, hl']

theorem local_optionalArguments (ts : List Lexeme) : Local [] optionalArguments ts :=
  .startsWith (local_arguments ts) (.pure [] ts)

theorem local_value (ts : List Lexeme) : Local [] value ts := by
  cases ts with
  | nil =>
      refine .congr (fun ts' h => ?_) (local_expression [])
      obtain rfl := eq_nil_of_ahead h
      rfl
  | cons l r =>
      by_cases hl : l.token = .keyword .measure
      · refine .next (by rw [hl]; rfl) (fun l' r' hl' _ => ?_)
          ((local_optionalRegisters r).map .measure)
        rw [value, if_pos (hl'.trans hl)]
      · refine .congr (fun ts' h => ?_) (local_expression (l :: r))
        obtain ⟨l', r', rfl, hl'⟩ := exists_of_ahead h
        rw [value, if_neg (hl' ▸ hl)]

end Parser

end OpenQasm
