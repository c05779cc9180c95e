import OpenQasm.Proofs.Parsing.Parallel.Stmt

/-!
# The loop over statements, round by round

A round of the loop reads one statement or reports why it cannot, and says where the next
round starts. What kind of statement it tries to read is settled by the next two tokens, so
on two lists that agree the rounds are the same.
-/
namespace OpenQasm.Parser

/-! What a statement looks like -/

/-- A parser of statements that never looks past the semicolon. -/
def Simple (p : (ts : List Lexeme) → Reply ParseError ts Stmt) : Prop :=
  ∀ {k R S ts ts'}, Paced k R S → R ts ts' → (p ts).Matches k R S (p ts')

/-- A parser of what stands before a body. -/
def IsHeader {α : Type} (p : (ts : List Lexeme) → Reply ParseError ts α) : Prop :=
  ∀ {k R S ts ts'}, Paced k R S → R ts ts' → (p ts).Matches k R R (p ts')

def definition {α : Type} (header : (ts : List Lexeme) → Reply ParseError ts α)
    (make : α → List Stmt → Stmt) (ts : List Lexeme) : Noted ts Stmt :=
  ((header ts).mapError fun e => [e]).andThen fun a rest _ =>
    (body rest).map fun (stmts, errors) => (make a stmts, errors)

/-- The kinds of statement that may start with `l`, as the token after it tells. -/
inductive Form (l : Lexeme) (r : List Lexeme) : Prop
  | nothing : (∀ l' r', l'.token = l.token → ahead r' = ahead r → statement l' r' = none) →
      Form l r
  | simple (p : (ts : List Lexeme) → Reply ParseError ts Stmt) : Simple p →
      (∀ l' r', l'.token = l.token → ahead r' = ahead r → statement l' r' = some (p r').noted) →
      Form l r
  | definition {α : Type} (header : (ts : List Lexeme) → Reply ParseError ts α)
      (make : α → List Stmt → Stmt) : IsHeader header → (∀ a ss, isVersion (make a ss) = false) →
      (l.token = .keyword .gate ∨ l.token = .keyword .defn) →
      (∀ l' r', l'.token = l.token → statement l' r' = some (definition header make r')) →
      Form l r
  | block : l.token = .symbol .lbrace →
      (∀ l' r', l'.token = l.token → statement l' r' =
        some ((block r').map fun (stmts, errors) => (.block stmts, errors))) →
      Form l r

theorem form_of_token {l : Lexeme} {r : List Lexeme} {t : Token}
    {p : (ts : List Lexeme) → Reply ParseError ts Stmt} (ht : l.token = t) (hp : Simple p)
    (hstatement : ∀ l' r', l'.token = t → statement l' r' = some (p r').noted) : Form l r :=
  .simple p hp fun l' r' hl _ => hstatement l' r' (hl.trans ht)

theorem form_of_keyword {l : Lexeme} {word : Keyword} (ht : l.token = .keyword word)
    (r : List Lexeme) : Form l r := by
  cases word with
  | openqasm => exact form_of_token ht matches_versionTail fun l' r' hl => by rw [statement, hl]
  | includes => exact form_of_token ht matches_includeTail fun l' r' hl => by rw [statement, hl]
  | const => exact form_of_token ht matches_constTail fun l' r' hl => by rw [statement, hl]
  | gate =>
      refine .definition gateHeader (fun a ss => .gate a.1 a.2.1 a.2.2 ss) matches_gateHeader
        (fun _ _ => rfl) (.inl ht) fun l' r' hl => ?_
      rw [statement, hl, ht]
      rfl
  | defn =>
      refine .definition subroutineHeader
        (fun a ss => .subroutine a.1 a.2.1 a.2.2.1 a.2.2.2 ss) matches_subroutineHeader
        (fun _ _ => rfl) (.inr ht) fun l' r' hl => ?_
      rw [statement, hl, ht]
      rfl
  | returns => exact form_of_token ht matches_returnTail fun l' r' hl => by rw [statement, hl]
  | reset => exact form_of_token ht matches_resetTail fun l' r' hl => by rw [statement, hl]
  | print => exact form_of_token ht matches_printTail fun l' r' hl => by rw [statement, hl]
  | measure => exact form_of_token ht matches_measureTail fun l' r' hl => by rw [statement, hl]

theorem form_of_ident {l : Lexeme} {name : String} (ht : l.token = .ident name)
    (r : List Lexeme) : Form l r := by
  cases hassign : startsWith .assign r || startsWith .lbracket r with
  | true =>
      refine .simple (assignTail name) (fun h => matches_assignTail h name) ?_
      intro l' r' hl hr'
      rw [statement, hl, ht]
      exact if_pos ((assigns_congr hr').trans hassign)
  | false =>
      refine .simple (callTail [] name) (fun h => matches_callTail h [] name) ?_
      intro l' r' hl hr'
      rw [statement, hl, ht]
      exact if_neg (by rw [assigns_congr hr', hassign]; simp)

/-- Every lexeme falls under one of the forms. -/
theorem form (l : Lexeme) (r : List Lexeme) : Form l r := by
  cases ht : l.token with
  | keyword word => exact form_of_keyword ht r
  | typeName kind =>
      exact form_of_token ht (fun h => matches_declareTail h kind) fun l' r' hl => by
        rw [statement, hl]
  | modifier kind =>
      exact form_of_token ht (fun h => matches_modified h kind) fun l' r' hl => by
        rw [statement, hl]
  | builtin gate =>
      exact form_of_token ht (fun h => matches_applyTail h [] gate) fun l' r' hl => by
        rw [statement, hl]
  | ident name => exact form_of_ident ht r
  | symbol s =>
      cases s with
      | lbrace =>
          refine .block ht fun l' r' hl => ?_
          rw [statement, hl, ht]
      | _ =>
          refine .nothing fun l' r' hl _ => ?_
          rw [statement, hl, ht]
  | _ =>
      refine .nothing fun l' r' hl _ => ?_
      rw [statement, hl, ht]

/-! Rounds -/

/-- What one round adds to the statements and to the errors, and where the next one starts. -/
structure Round where
  statement? : Option Stmt
  errors : List ParseError
  rest : List Lexeme

/-- The round that starts with the lexeme `l`. -/
def round (opening : Bool) (l : Lexeme) (r : List Lexeme) : Round :=
  match statement l r with
  | none => ⟨none, [unexpected "statement" (l :: r)], skipFrom l r⟩
  | some (.fail errors rest _) => ⟨none, errors, skip rest⟩
  | some (.done (stmt, errors) rest _) =>
      if isVersion stmt && !opening then ⟨none, errors ++ [.misplacedVersion l.line], rest⟩
      else ⟨some stmt, errors, rest⟩

section Round

variable {l : Lexeme} {r rest : List Lexeme} {errors : List ParseError} {c : Stmt}
  {le : rest.length ≤ r.length} {opening : Bool}

theorem round_nothing (opening : Bool) (h : statement l r = none) :
    round opening l r = ⟨none, [unexpected "statement" (l :: r)], skipFrom l r⟩ := by
  rw [round, h]

theorem round_failed (opening : Bool) (h : statement l r = some (.fail errors rest le)) :
    round opening l r = ⟨none, errors, skip rest⟩ := by
  rw [round, h]

theorem round_misplaced (h : statement l r = some (.done (c, errors) rest le))
    (hc : isVersion c = true) (hopening : opening = false) :
    round opening l r = ⟨none, errors ++ [.misplacedVersion l.line], rest⟩ := by
  rw [round, h]
  exact if_pos (by simp [hc, hopening])

theorem round_read (h : statement l r = some (.done (c, errors) rest le))
    (hc : isVersion c = true → opening = true) :
    round opening l r = ⟨some c, errors, rest⟩ := by
  rw [round, h]
  refine if_neg ?_
  rw [Bool.and_eq_true, Bool.not_eq_true']
  rintro ⟨hversion, hopening⟩
  rw [hc hversion] at hopening
  cases hopening

/-- A round takes at least the lexeme it starts with. -/
theorem length_round_le (opening : Bool) (l : Lexeme) (r : List Lexeme) :
    (round opening l r).rest.length ≤ r.length := by
  cases hreply : statement l r with
  | none =>
      rw [round_nothing opening hreply]
      exact skipFrom_length_le l r
  | some reply =>
      cases reply with
      | fail errors rest le =>
          rw [round_failed opening hreply]
          exact Nat.le_trans (skip_length_le rest) le
      | done value rest le =>
          rw [round, hreply]
          dsimp only
          split
          · exact le
          · exact le

end Round

def closesBlock (inBlock : Bool) (l : Lexeme) : Bool :=
  inBlock && decide (l.token = .symbol .rbrace)

theorem statements_nil (inBlock opening : Bool) :
    statements inBlock opening [] = ⟨[], [], [], Nat.le_refl _⟩ := by
  rw [statements]

theorem statements_close {inBlock : Bool} {l : Lexeme} (h : closesBlock inBlock l = true)
    (opening : Bool) (r : List Lexeme) :
    statements inBlock opening (l :: r) = ⟨[], [], l :: r, Nat.le_refl _⟩ := by
  rw [statements]
  exact if_pos h

/-- What a round adds comes first, then what the rounds after it add. -/
structure Recovered.Continues {ts : List Lexeme} (all : Recovered ts) (c : Round)
    (next : Recovered c.rest) : Prop where
  statements : all.statements = c.statement?.toList ++ next.statements
  errors : all.errors = c.errors ++ next.errors
  rest : all.rest = next.rest

/-- Unless the block ends, a round is made, and the loop goes on where it left off. A version
is accepted for as long as no statement has been read. -/
theorem statements_round {inBlock : Bool} {l : Lexeme} (h : closesBlock inBlock l = false)
    (opening : Bool) (r : List Lexeme) :
    (statements inBlock opening (l :: r)).Continues (round opening l r)
      (statements inBlock (opening && (round opening l r).statement?.isNone)
        (round opening l r).rest) := by
  have hbrace : ¬(inBlock && decide (l.token = .symbol .rbrace)) = true := by
    rw [Bool.not_eq_true]
    exact h
  rw [statements, if_neg hbrace]
  cases hreply : statement l r with
  | none =>
      rw [round_nothing opening hreply]
      constructor <;> simp
  | some reply =>
      cases reply with
      | fail errors rest le =>
          rw [round_failed opening hreply]
          constructor <;> simp
      | done value rest le =>
          obtain ⟨c, errors⟩ := value
          by_cases hversion : (isVersion c && !opening) = true
          · have hc : isVersion c = true ∧ opening = false := by simpa using hversion
            rw [round_misplaced hreply hc.1 hc.2]
            simp only [if_pos hversion]
            constructor <;> simp
          · have hc : isVersion c = true → opening = true := by simpa using hversion
            rw [round_read hreply hc]
            simp only [if_neg hversion]
            constructor <;> simp

/-! Rounds on the same tokens -/

section Matches

variable {k : Nat} {R S : List Lexeme → List Lexeme → Prop} {ts ts' : List Lexeme} {α : Type}

/-- Two replies with the same value, and with the same errors `k` lines apart. -/
def Reply.MatchesNoted (k : Nat) (R S : List Lexeme → List Lexeme → Prop) :
    Noted ts α → Noted ts' α → Prop :=
  Alike (fun a rest a' rest' => a'.1 = a.1 ∧ a'.2 = a.2.map (.shift k) ∧ S rest rest')
    fun errors rest errors' rest' => errors' = errors.map (.shift k) ∧ R rest rest'

theorem Reply.Matches.noted {r : Reply ParseError ts α} {r' : Reply ParseError ts' α}
    (h : r.Matches k R S r') : r.noted.MatchesNoted k R S r'.noted := by
  cases r with
  | done => cases r' with
    | done => exact ⟨h.1, rfl, h.2⟩
    | fail => exact absurd h id
  | fail => cases r' with
    | done => exact absurd h id
    | fail => exact ⟨congrArg (fun e => [e]) h.1, h.2.2⟩

theorem Reply.MatchesNoted.later {us us' : List Lexeme} {r : Noted us α} {r' : Noted us' α}
    (h : r.MatchesNoted k R S r') (le : us.length ≤ ts.length) (le' : us'.length ≤ ts'.length) :
    (r.later le : Noted ts α).MatchesNoted k R S (r'.later le' : Noted ts' α) := Alike.later h le le'

theorem Reply.MatchesNoted.map {β : Type} (f : α → β) {r : Noted ts α} {r' : Noted ts' α}
    (h : r.MatchesNoted k R S r') :
    (r.map fun (a, errors) => (f a, errors) : Noted ts β).MatchesNoted k R S
      (r'.map fun (a, errors) => (f a, errors) : Noted ts' β) :=
  Alike.map (fun ha => ⟨congrArg f ha.1, ha.2⟩) h

/-- Two runs of the loop with the same statements, and with the same errors `k` lines apart. -/
structure Recovered.Matches (k : Nat) (R : List Lexeme → List Lexeme → Prop) (a : Recovered ts)
    (b : Recovered ts') : Prop where
  statements : b.statements = a.statements
  errors : b.errors = a.errors.map (.shift k)
  rest : R a.rest b.rest

/-- Two rounds with the same statement, and with the same errors `k` lines apart. -/
structure Round.Matches (k : Nat) (T : List Lexeme → List Lexeme → Prop) (a b : Round) : Prop where
  statement? : b.statement? = a.statement?
  errors : b.errors = a.errors.map (.shift k)
  rest : T a.rest b.rest

/-- A statement without a body, read up to its semicolon. -/
theorem rel_simple (h : Paced k R S) {l l' : Lexeme} {r r' : List Lexeme}
    (hl : l'.token = l.token) (hr : R r r') (hgate : l.token ≠ .keyword .gate)
    (hdefn : l.token ≠ .keyword .defn) (hblock : l.token ≠ .symbol .lbrace) :
    Option.Rel (Reply.MatchesNoted k R S) (statement l r) (statement l' r') := by
  cases form l r with
  | nothing hnone =>
      rw [hnone l r rfl rfl, hnone l' r' hl (h.ahead hr)]
      exact .none
  | simple p hp hsome =>
      rw [hsome l r rfl rfl, hsome l' r' hl (h.ahead hr)]
      exact .some (hp h hr).noted
  | definition header make hheader hmake htoken hsome =>
      rcases htoken with htoken | htoken
      · exact absurd htoken hgate
      · exact absurd htoken hdefn
  | block htoken hsome => exact absurd htoken hblock

/-- Rounds match if the statements they try to read do, and skipping leads to related places. -/
theorem matches_round {T : List Lexeme → List Lexeme → Prop} (h : Paced k R S) {l l' : Lexeme}
    {r r' : List Lexeme} (hts : R (l :: r) (l' :: r'))
    (hrel : Option.Rel (Reply.MatchesNoted k R S) (statement l r) (statement l' r'))
    (hread : ∀ us us', S us us' → T us us') (hskip : ∀ us us', R us us' → T (skip us) (skip us'))
    (hskipFrom : T (skipFrom l r) (skipFrom l' r')) (opening : Bool) :
    (round opening l r).Matches k T (round opening l' r') := by
  obtain ⟨_, _, heq, -, hline, -⟩ := h.cons hts
  cases heq
  cases hreply : statement l r with
  | none =>
      rw [hreply] at hrel
      cases hreply' : statement l' r' with
      | some => rw [hreply'] at hrel; cases hrel
      | none =>
          rw [round_nothing opening hreply, round_nothing opening hreply']
          exact ⟨rfl, congrArg (fun e => [e]) (shift_unexpected h hts _), hskipFrom⟩
  | some reply =>
      rw [hreply] at hrel
      cases hreply' : statement l' r' with
      | none => rw [hreply'] at hrel; cases hrel
      | some reply' =>
          rw [hreply'] at hrel
          obtain ⟨hrel⟩ := hrel
          cases reply with
          | fail errors rest le => cases reply' with
            | done => exact absurd hrel id
            | fail errors' rest' le' =>
                rw [round_failed opening hreply, round_failed opening hreply']
                exact ⟨rfl, hrel.1, hskip rest rest' hrel.2⟩
          | done value rest le => cases reply' with
            | fail => exact absurd hrel id
            | done value' rest' le' =>
                obtain ⟨c, errors⟩ := value
                obtain ⟨c', errors'⟩ := value'
                obtain ⟨heq, herrors, hrest⟩ := hrel
                dsimp only at heq herrors
                subst heq herrors
                by_cases hc : isVersion c' = true → opening = true
                · rw [round_read hreply hc, round_read hreply' hc]
                  exact ⟨rfl, rfl, hread rest rest' hrest⟩
                · obtain ⟨hversion, hopening⟩ := Classical.not_imp.1 hc
                  rw [Bool.not_eq_true] at hopening
                  rw [round_misplaced hreply hversion hopening,
                    round_misplaced hreply' hversion hopening, hline]
                  refine ⟨rfl, ?_, hread rest rest' hrest⟩
                  simp [ParseError.shift]

variable (h : Paced k R R)

include h

theorem matches_block
    (hinner : (statements true false ts).Matches k R (statements true false ts')) :
    (block ts).MatchesNoted k R R (block ts') := by
  rw [block, block]
  refine .later ?_ _ _
  have hbrace := matches_expect h hinner.rest .rbrace (by decide)
  revert hbrace
  cases expect .rbrace (statements true false ts).rest with
  | done => cases expect .rbrace (statements true false ts').rest with
    | done => exact fun hbrace => ⟨hinner.statements, hinner.errors, hbrace.2⟩
    | fail => exact fun hbrace => absurd hbrace id
  | fail => cases expect .rbrace (statements true false ts').rest with
    | done => exact fun hbrace => absurd hbrace id
    | fail =>
        intro hbrace
        refine ⟨?_, hbrace.2.2⟩
        simp only [hinner.errors, hbrace.1, List.map_append, List.map_cons, List.map_nil]

theorem matches_body (hts : R ts ts')
    (hblock : ∀ us us', us.length < ts.length → R us us' →
      (block us).MatchesNoted k R R (block us')) :
    (body ts).MatchesNoted k R R (body ts') := by
  cases ts with
  | nil =>
      obtain rfl := h.nil hts
      rw [body]
      exact (matches_reject h hts _).noted
  | cons l r =>
      obtain ⟨l', r', rfl, hl, -, -, hr⟩ := h.cons hts
      rw [body, body, hl]
      split
      · rename_i hbrace
        exact (hblock r r' (Nat.lt_succ_self _) (hr (by simp [hbrace]))).later _ _
      · exact (matches_reject h hts _).noted

theorem matches_definition {header : (ts : List Lexeme) → Reply ParseError ts α}
    {make : α → List Stmt → Stmt} (hheader : IsHeader header) (hts : R ts ts')
    (hbody : ∀ us us', us.length ≤ ts.length → R us us' →
      (body us).MatchesNoted k R R (body us')) :
    (definition header make ts).MatchesNoted k R R (definition header make ts') := by
  have hhead := hheader h hts
  unfold definition
  revert hhead
  cases header ts with
  | done a rest le => cases header ts' with
    | done a' rest' le' =>
        rintro ⟨rfl, hrest⟩
        exact ((hbody rest rest' le hrest).map (make a')).later le le'
    | fail => exact fun hhead => absurd hhead id
  | fail => cases header ts' with
    | done => exact fun hhead => absurd hhead id
    | fail => exact fun hhead => ⟨congrArg (fun e => [e]) hhead.1, hhead.2.2⟩

theorem rel_statement {l l' : Lexeme} (hl : l'.token = l.token) (hts : R ts ts')
    (hinner : ∀ us us', us.length ≤ ts.length → R us us' →
      (statements true false us).Matches k R (statements true false us')) :
    Option.Rel (Reply.MatchesNoted k R R) (statement l ts) (statement l' ts') := by
  have hblock : ∀ us us', us.length ≤ ts.length → R us us' →
      (block us).MatchesNoted k R R (block us') :=
    fun us us' hle hus => matches_block h (hinner us us' hle hus)
  cases form l ts with
  | nothing hnone =>
      rw [hnone l ts rfl rfl, hnone l' ts' hl (h.ahead hts)]
      exact .none
  | simple p hp hsome =>
      rw [hsome l ts rfl rfl, hsome l' ts' hl (h.ahead hts)]
      exact .some (hp h hts).noted
  | definition header make hheader hmake htoken hsome =>
      rw [hsome l ts rfl, hsome l' ts' hl]
      refine .some (matches_definition h hheader hts fun us us' hle hus => ?_)
      exact matches_body h hus fun vs vs' hlt => hblock vs vs' (by omega)
  | block htoken hsome =>
      rw [hsome l ts rfl, hsome l' ts' hl]
      exact .some ((hblock ts ts' (Nat.le_refl _) hts).map Stmt.block)

theorem related_skip (hts : R ts ts') : R (skip ts) (skip ts') := by
  induction ts generalizing ts' with
  | nil =>
      obtain rfl := h.nil hts
      exact hts
  | cons l r ih =>
      obtain ⟨l', r', rfl, hl, -, hsemi, hr⟩ := h.cons hts
      have hboundary : isBoundary l' = isBoundary l := by rw [isBoundary, isBoundary, hl]
      rw [skip, skip, hl, hboundary]
      split
      · exact hsemi ‹_›
      · split
        · exact hts
        · exact ih (hr ‹_›)

theorem related_skipFrom {l l' : Lexeme} (hl : l'.token = l.token) (hts : R ts ts') :
    R (skipFrom l ts) (skipFrom l' ts') := by
  rw [skipFrom, skipFrom, hl]
  split
  · exact hts
  · exact related_skip h hts

theorem tail_related {l l' : Lexeme} {r r' : List Lexeme} (hts : R (l :: r) (l' :: r')) :
    R r r' := by
  obtain ⟨_, _, heq, -, -, hsemi, hr⟩ := h.cons hts
  cases heq
  by_cases htoken : l.token = .symbol .semicolon
  · exact hsemi htoken
  · exact hr htoken

/-- On lists that agree throughout, the loop returns the same statements and reports the same
errors. -/
theorem matches_statements (inBlock opening : Bool) (hts : R ts ts') :
    (statements inBlock opening ts).Matches k R (statements inBlock opening ts') := by
  induction hn : ts.length using Nat.strong_induction_on generalizing ts ts' inBlock opening with
  | _ n ih =>
    subst hn
    cases ts with
    | nil =>
        obtain rfl := h.nil hts
        rw [statements_nil]
        exact ⟨rfl, rfl, hts⟩
    | cons l r =>
        obtain ⟨l', r', rfl, hl, -⟩ := h.cons hts
        have hsame : closesBlock inBlock l' = closesBlock inBlock l := by
          rw [closesBlock, closesBlock, hl]
        cases hclose : closesBlock inBlock l with
        | true =>
            rw [statements_close hclose, statements_close (hsame.trans hclose)]
            exact ⟨rfl, rfl, hts⟩
        | false =>
            have hr := tail_related h hts
            have hrel := rel_statement h hl hr fun us us' hle hus =>
              ih us.length (Nat.lt_succ_of_le hle) true false hus rfl
            have hround := matches_round h hts hrel (fun _ _ => id) (fun _ _ => related_skip h)
              (related_skipFrom h hl hr) opening
            have hgo := statements_round hclose opening r
            have hgo' := statements_round (hsame.trans hclose) opening r'
            rw [hround.statement?] at hgo'
            have hlt : (round opening l r).rest.length < (l :: r).length :=
              Nat.lt_succ_of_le (length_round_le opening l r)
            have hnext := ih _ hlt inBlock (opening && (round opening l r).statement?.isNone)
              hround.rest rfl
            refine ⟨?_, ?_, ?_⟩
            · rw [hgo'.statements, hgo.statements, hround.statement?, hnext.statements]
            · rw [hgo'.errors, hgo.errors, hround.errors, hnext.errors, List.map_append]
            · rw [hgo'.rest, hgo.rest]
              exact hnext.rest

end Matches

end OpenQasm.Parser
