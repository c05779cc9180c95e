import OpenQasm.Proofs.Lexing.Places
import OpenQasm.Proofs.Parsing.Rounds

/-!
# Parsing goes on and reports in order

A parser ends at a place further on, and an error names the line of the place where it was
met. So the errors of a run are met one after the other along the source, which gives their
lines an order, and every round of the loop over statements starts further on than the one
before. A round pays with the lexemes it takes for what it adds: a statement or an error of
its own with the first one, and an error inside a body with a lexeme of that body.
-/
namespace OpenQasm.Parser

/-! Places along a list of lexemes -/

def Reply.left {ε α : Type} {ts : List Lexeme} : Reply ε ts α → List Lexeme
  | done _ rest _ => rest
  | fail _ rest _ => rest

/-- The same place, reached from `ts`. -/
def Within (ts : List Lexeme) (here here' : List Lexeme) : Prop := here' = here ∧ here <:+ ts

theorem within_refl (ts : List Lexeme) : Within ts ts ts := ⟨rfl, List.suffix_rfl⟩

/-- A run goes along with itself. -/
theorem paced_within (ts : List Lexeme) : Paced 0 (Within ts) (Within ts) where
  nil := by
    rintro ts' ⟨rfl, -⟩
    rfl
  cons := by
    rintro l r ts' ⟨rfl, hsuffix⟩
    have hr : Within ts r r := ⟨rfl, (List.suffix_cons l r).trans hsuffix⟩
    exact ⟨l, r, rfl, rfl, rfl, fun _ => hr, fun _ => hr⟩

/-- The errors are met one after the other on the way from one place to another. -/
inductive Found : List Lexeme → List ParseError → List Lexeme → Prop
  | nil {ts rest : List Lexeme} : rest <:+ ts → Found ts [] rest
  | cons {ts here rest : List Lexeme} {e : ParseError} {errors : List ParseError} :
      here <:+ ts → e.line? = lineAt here → Found here errors rest → Found ts (e :: errors) rest

namespace Found

variable {ts us mid rest : List Lexeme} {errors errors' : List ParseError} {e : ParseError}

theorem single (hmid : mid <:+ ts) (he : e.line? = lineAt mid) (hrest : rest <:+ mid) :
    Found ts [e] rest := .cons hmid he (.nil hrest)

/-- Whoever starts before `us` comes past it. -/
theorem of_suffix (h : Found us errors rest) (hus : us <:+ ts) : Found ts errors rest := by
  cases h with
  | nil hrest => exact .nil (hrest.trans hus)
  | cons hhere he herrors => exact .cons (hhere.trans hus) he herrors

theorem append (h : Found ts errors mid) (h' : Found mid errors' rest) :
    Found ts (errors ++ errors') rest := by
  induction h with
  | nil hmid => exact h'.of_suffix hmid
  | cons hhere he _ ih => exact .cons hhere he (ih h')

theorem onward (h : Found ts errors mid) (hrest : rest <:+ mid) : Found ts errors rest := by
  rw [← List.append_nil errors]
  exact h.append (.nil hrest)

theorem suffix (h : Found ts errors rest) : rest <:+ ts := by
  induction h with
  | nil hrest => exact hrest
  | cons hhere _ _ ih => exact ih.trans hhere

theorem mem_lines (h : Found ts errors rest) :
    ∀ n ∈ errors.filterMap ParseError.line?, n ∈ ts.map Lexeme.line := by
  induction h with
  | nil => simp
  | @cons ts here rest e errors hhere he _ ih =>
      have hhead : ∀ n ∈ e.line?, n ∈ here.map Lexeme.line := by
        intro n hn
        rw [he, lineAt, ← List.head?_map] at hn
        exact List.mem_of_mem_head? hn
      intro n hn
      refine (hhere.map Lexeme.line).subset ?_
      rw [List.filterMap_cons] at hn
      cases hline : e.line? with
      | none =>
          rw [hline] at hn
          exact ih n hn
      | some line =>
          rw [hline] at hn
          rcases List.mem_cons.1 hn with rfl | hn
          · exact hhead n hline
          · exact ih n hn

/-- Errors met along lexemes that stand in the order of their lines have lines in order. -/
theorem pairwise (h : Found ts errors rest) (hts : ts.Pairwise fun a b => a.line ≤ b.line) :
    (errors.filterMap ParseError.line?).Pairwise (· ≤ ·) := by
  induction h with
  | nil => exact .nil
  | @cons ts here rest e errors hhere he hfound ih =>
      have hsorted : here.Pairwise fun a b => a.line ≤ b.line := hts.sublist hhere.sublist
      rw [List.filterMap_cons]
      cases hline : e.line? with
      | none => exact ih hsorted
      | some line =>
          refine List.pairwise_cons.2 ⟨fun n hn => ?_, ih hsorted⟩
          have hn := hfound.mem_lines n hn
          cases here with
          | nil => cases hn
          | cons l r =>
              rw [hline] at he
              cases he
              rcases List.mem_cons.1 hn with rfl | hn
              · exact Nat.le_refl _
              · obtain ⟨l', hl', rfl⟩ := List.mem_map.1 hn
                exact (List.pairwise_cons.1 hsorted).1 l' hl'

end Found

theorem skip_suffix (ts : List Lexeme) : skip ts <:+ ts := by
  induction ts with
  | nil => exact List.suffix_rfl
  | cons l r ih =>
      rw [skip]
      split
      · exact List.suffix_cons l r
      · split
        · exact List.suffix_rfl
        · exact ih.trans (List.suffix_cons l r)

theorem skipFrom_suffix (l : Lexeme) (r : List Lexeme) : skipFrom l r <:+ r := by
  rw [skipFrom]
  split
  · exact List.suffix_rfl
  · exact skip_suffix r

/-! What is reported, and what it costs -/

section Reports

variable {ts : List Lexeme} {α : Type}

/-- The errors of a reply are met along the lexemes it takes, and are no more than these. An
error that the reply fails with is paid for by the token before. -/
def Reply.Reports : Noted ts α → Prop
  | done value rest _ => Found ts value.2 rest ∧ value.2.length + rest.length ≤ ts.length
  | fail errors rest _ => Found ts errors rest ∧ errors.length + rest.length ≤ ts.length + 1

theorem Reply.Reports.map {β : Type} {r : Noted ts α} (h : r.Reports) (f : α → β) :
    (r.map fun (a, errors) => (f a, errors) : Noted ts β).Reports := by
  cases r with
  | done => exact h
  | fail => exact h

theorem Reply.Reports.later {us : List Lexeme} {r : Noted us α} (h : r.Reports) (hus : us <:+ ts) :
    (r.later hus.length_le : Noted ts α).Reports := by
  have hle := hus.length_le
  cases r with
  | done => exact ⟨h.1.of_suffix hus, Nat.le_trans h.2 hle⟩
  | fail => exact ⟨h.1.of_suffix hus, Nat.le_trans h.2 (Nat.succ_le_succ hle)⟩

theorem reports_noted {r : Reply ParseError ts α} (h : r.Matches 0 (Within ts) (Within ts) r) :
    r.noted.Reports := by
  cases r with
  | done a rest le =>
      refine ⟨.nil h.2.2, ?_⟩
      simpa using le
  | fail e rest le =>
      refine ⟨.single h.2.2.2 h.2.1 List.suffix_rfl, ?_⟩
      simp only [List.length_singleton]
      omega

/-- The same for the loop: a statement costs a lexeme as well. -/
structure Recovered.Reports (all : Recovered ts) : Prop where
  found : Found ts all.errors all.rest
  count : all.errors.length + all.statements.length + all.rest.length ≤ ts.length

theorem reports_block (h : (statements true false ts).Reports) : (block ts).Reports := by
  have hfound := h.found
  have hcount := h.count
  rw [block]
  revert hfound hcount
  generalize statements true false ts = inner
  obtain ⟨stmts, errors, rest, le⟩ := inner
  intro hfound hcount
  have hbrace := matches_expect (paced_within rest) (within_refl rest) .rbrace (by decide)
  dsimp only at hfound hcount ⊢
  revert hbrace
  cases expect .rbrace rest with
  | done value left hle =>
      intro hbrace
      refine ⟨hfound.onward hbrace.2.2, ?_⟩
      dsimp only
      omega
  | fail e left hle =>
      intro hbrace
      refine ⟨hfound.append (.single hbrace.2.2.2 hbrace.2.1 List.suffix_rfl), ?_⟩
      simp only [List.length_append, List.length_singleton]
      omega

theorem reports_body (hblock : ∀ us, us.length < ts.length → (block us).Reports) :
    (body ts).Reports := by
  cases ts with
  | nil =>
      rw [body]
      exact reports_noted (matches_reject (paced_within []) (within_refl []) _)
  | cons l r =>
      rw [body]
      split
      · exact (hblock r (Nat.lt_succ_self _)).later (List.suffix_cons l r)
      · exact reports_noted (matches_reject (paced_within (l :: r)) (within_refl (l :: r)) _)

theorem reports_definition {header : (ts : List Lexeme) → Reply ParseError ts α}
    {make : α → List Stmt → Stmt} (hheader : IsHeader header)
    (hbody : ∀ us, us.length ≤ ts.length → (body us).Reports) :
    (definition header make ts).Reports := by
  have hhead := hheader (paced_within ts) (within_refl ts)
  unfold definition
  revert hhead
  cases header ts with
  | done a rest le => exact fun hhead => ((hbody rest le).map (make a)).later hhead.2.2
  | fail e rest le =>
      intro hhead
      refine ⟨.single hhead.2.2.2 hhead.2.1 List.suffix_rfl, ?_⟩
      simp only [List.length_singleton]
      omega

theorem reports_statement {l : Lexeme} {reply : Noted ts Stmt}
    (hinner : ∀ us, us.length ≤ ts.length → (statements true false us).Reports)
    (h : statement l ts = some reply) : reply.Reports := by
  have hblock : ∀ us, us.length ≤ ts.length → (block us).Reports := fun us hle =>
    reports_block (hinner us hle)
  cases form l ts with
  | nothing hnone =>
      rw [hnone l ts rfl rfl] at h
      cases h
  | simple p hp hsome =>
      rw [hsome l ts rfl rfl] at h
      cases h
      exact reports_noted (hp (paced_within ts) (within_refl ts))
  | definition header make hheader hmake htoken hsome =>
      rw [hsome l ts rfl] at h
      cases h
      refine reports_definition hheader fun us hle => reports_body fun vs hlt => ?_
      exact hblock vs (by omega)
  | block htoken hsome =>
      rw [hsome l ts rfl] at h
      cases h
      exact (hblock ts (Nat.le_refl _)).map Stmt.block

/-- Nothing is noted on the way to a version. -/
theorem errors_eq_nil_of_isVersion {l : Lexeme} {reply : Noted ts Stmt} {c : Stmt}
    {errors : List ParseError} {rest : List Lexeme} (h : statement l ts = some reply)
    (hyields : reply.Yields (c, errors) rest) (hc : isVersion c = true) : errors = [] := by
  cases form l ts with
  | nothing hnone =>
      rw [hnone l ts rfl rfl] at h
      cases h
  | simple p hp hsome =>
      rw [hsome l ts rfl rfl] at h
      cases h
      obtain ⟨a, -, heq⟩ := hyields.of_mapError.of_map
      cases heq
      rfl
  | definition header make hheader hmake htoken hsome =>
      rw [hsome l ts rfl] at h
      cases h
      obtain ⟨a, mid, _, -, hbody⟩ := hyields.of_andThen
      obtain ⟨⟨ss, errors⟩, -, heq⟩ := hbody.of_map
      cases heq
      rw [hmake] at hc
      cases hc
  | block htoken hsome =>
      rw [hsome l ts rfl] at h
      cases h
      obtain ⟨⟨ss, errors⟩, -, heq⟩ := hyields.of_map
      cases heq
      cases hc

/-- The errors of a round are met from its first lexeme on. What it adds is no more than the
lexemes it takes. -/
structure Round.Reports (c : Round) (ts : List Lexeme) : Prop where
  found : Found ts c.errors c.rest
  count : c.errors.length + c.statement?.toList.length + c.rest.length ≤ ts.length

theorem reports_round (opening : Bool) (l : Lexeme) (r : List Lexeme)
    (hinner : ∀ us, us.length ≤ r.length → (statements true false us).Reports) :
    (round opening l r).Reports (l :: r) := by
  have hl : r <:+ l :: r := List.suffix_cons l r
  cases hreply : statement l r with
  | none =>
      rw [round_nothing opening hreply]
      have hle := skipFrom_length_le l r
      refine ⟨.single List.suffix_rfl (line?_unexpected _ _) ((skipFrom_suffix l r).trans hl), ?_⟩
      simp
      omega
  | some reply =>
      have hreports := reports_statement hinner hreply
      cases reply with
      | fail errors rest le =>
          rw [round_failed opening hreply]
          have hle := skip_length_le rest
          have hcount := hreports.2
          refine ⟨(hreports.1.onward (skip_suffix rest)).of_suffix hl, ?_⟩
          simp
          omega
      | done value rest le =>
          obtain ⟨c, errors⟩ := value
          have hcount : errors.length + rest.length ≤ r.length := hreports.2
          by_cases hc : isVersion c = true → opening = true
          · rw [round_read hreply hc]
            refine ⟨hreports.1.of_suffix hl, ?_⟩
            simp
            omega
          · obtain ⟨hversion, hopening⟩ := Classical.not_imp.1 hc
            rw [Bool.not_eq_true] at hopening
            obtain rfl := errors_eq_nil_of_isVersion hreply ⟨rfl, rfl⟩ hversion
            rw [round_misplaced hreply hversion hopening]
            refine ⟨.single List.suffix_rfl rfl (hreports.1.suffix.trans hl), ?_⟩
            simp at hcount ⊢
            omega

theorem reports_statements (inBlock opening : Bool) (ts : List Lexeme) :
    (statements inBlock opening ts).Reports := by
  induction hn : ts.length using Nat.strong_induction_on generalizing ts inBlock opening with
  | _ n ih =>
    subst hn
    cases ts with
    | nil =>
        rw [statements_nil]
        exact ⟨.nil List.suffix_rfl, Nat.le_refl _⟩
    | cons l r =>
        cases hclose : closesBlock inBlock l with
        | true =>
            rw [statements_close hclose]
            refine ⟨.nil List.suffix_rfl, ?_⟩
            simp
        | false =>
            have hround := reports_round opening l r fun us hle =>
              ih us.length (Nat.lt_succ_of_le hle) true false us rfl
            have hgo := statements_round hclose opening r
            have hnext := ih (round opening l r).rest.length
              (Nat.lt_succ_of_le (length_round_le opening l r)) inBlock
              (opening && (round opening l r).statement?.isNone) _ rfl
            constructor
            · rw [hgo.errors, hgo.rest]
              exact hround.found.append hnext.found
            · have hfirst := hround.count
              have hothers := hnext.count
              rw [hgo.errors, hgo.statements, hgo.rest, List.length_append, List.length_append]
              omega

end Reports

/-- At the top level the loop only ends with the source. -/
theorem rest_statements (opening : Bool) (ts : List Lexeme) :
    (statements false opening ts).rest = [] := by
  induction hn : ts.length using Nat.strong_induction_on generalizing ts opening with
  | _ n ih =>
    subst hn
    cases ts with
    | nil => rw [statements_nil]
    | cons l r =>
        rw [(statements_round rfl opening r).rest]
        exact ih _ (Nat.lt_succ_of_le (length_round_le opening l r)) _ _ rfl

/-- The next round starts after the lexeme this one started with. -/
theorem round_suffix (opening : Bool) (l : Lexeme) (r : List Lexeme) :
    (round opening l r).rest <:+ r := by
  have hsuffix : (round opening l r).rest <:+ l :: r :=
    (reports_round opening l r fun us _ => reports_statements true false us).found.suffix
  rcases List.suffix_cons_iff.1 hsuffix with heq | hsuffix
  · have hle := length_round_le opening l r
    rw [heq, List.length_cons] at hle
    omega
  · exact hsuffix

/-- Whatever the source, all of it is read. No parser goes back, every round of the loop over
statements, in a block or not, takes a lexeme and hands over to the next round, the errors and
the statements together are no more than the lexemes, and the lines of the errors are in
order. -/
theorem parsing_advances (source : String) :
    (statements false true (significant source)).rest = [] ∧
      (∀ inBlock opening ts, (statements inBlock opening ts).rest <:+ ts) ∧
      (∀ l ts, ∀ reply ∈ statement l ts, reply.left <:+ ts) ∧
      (∀ inBlock opening l r, closesBlock inBlock l = true ∨
        (round opening l r).rest <:+ r ∧
          (statements inBlock opening (l :: r)).Continues (round opening l r)
            (statements inBlock (opening && (round opening l r).statement?.isNone)
              (round opening l r).rest)) ∧
      (Program.recover source).2.length + (Program.recover source).1.statements.length ≤
        (significant source).length ∧
      ((Program.recover source).2.filterMap ParseError.line?).Pairwise (· ≤ ·) := by
  have hreports := reports_statements false true (significant source)
  refine ⟨rest_statements true _, fun inBlock opening ts => ?_, fun l ts reply hreply => ?_,
    fun inBlock opening l r => ?_, ?_, ?_⟩
  · exact (reports_statements inBlock opening ts).found.suffix
  · have hreply := reports_statement (fun us _ => reports_statements true false us) hreply
    cases reply with
    | done => exact hreply.1.suffix
    | fail => exact hreply.1.suffix
  · cases hclose : closesBlock inBlock l with
    | true => exact .inl rfl
    | false => exact .inr ⟨round_suffix opening l r, statements_round hclose opening r⟩
  · have hcount := hreports.count
    rw [rest_statements] at hcount
    exact hcount
  · exact hreports.found.pairwise (pairwise_significant source)

/-- The end of the source, met in a statement and again in the block around it, has no line. -/
example : (Program.recover "x q q;\ngate g q \x7b x q; \x7d\nOPENQASM 3; \x7b x q").2.map
    ParseError.line? = [some 1, some 3, none, none] := by
  decide +kernel

end OpenQasm.Parser
