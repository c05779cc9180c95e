import OpenQasm.Proofs.KeptTokens
import OpenQasm.Proofs.ParsingProgress

/-!
# A syntax error stays local

A faulty statement that ends with a semicolon, and in which no body and no declaration
starts, is reported with one error and skipped up to its semicolon. What stands before it and
after it is read as it is on its own, with the errors as many lines further down as the text
is.
-/
namespace OpenQasm

/-- Tokens that recovery passes over: none ends a statement, opens or closes a body, or starts
a declaration. -/
def Token.isFiller : Token → Bool
  | symbol .semicolon => false
  | symbol .lbrace => false
  | symbol .rbrace => false
  | keyword .openqasm => false
  | keyword .includes => false
  | keyword .const => false
  | keyword .gate => false
  | keyword .defn => false
  | typeName .qubit => false
  | typeName .bit => false
  | _ => true

namespace Parser

/-! Where no version is declared -/

/-- Only a version declaration starts with its keyword. -/
theorem token_of_isVersion {l : Lexeme} {r rest : List Lexeme} {c : Stmt} (h : Genuine (l :: r))
    (hreads : Reads (l :: r) c rest) (hc : isVersion c = true) :
    l.token = .keyword .openqasm := by
  have hblocks : ∀ us, us.length ≤ r.length → Genuine us → BlockKeeps us := fun us _ hus =>
    blockKeeps_of_statements (keeps_statements true false us hus)
  obtain ⟨used, hfits, hused⟩ := keeps_statement h.head h.tail hblocks hreads
  cases c with
  | version v =>
      generalize htokens : used.map Lexeme.token = tokens at hfits
      cases hfits with
      | token t hfits =>
          obtain ⟨l', used', rfl, hl', -⟩ := List.map_eq_cons_iff.1 htokens
          rw [(List.cons.inj hused).1, hl']
  | _ => cases hc

/-- Whether a version would be accepted makes no difference to a round that reads none. -/
theorem round_opening {l : Lexeme} {r : List Lexeme} (h : Genuine (l :: r))
    (hl : l.token ≠ .keyword .openqasm) (opening : Bool) :
    round opening l r = round true l r := by
  cases hreply : statement l r with
  | none => rw [round_nothing _ hreply, round_nothing _ hreply]
  | some reply =>
      cases reply with
      | fail errors rest le => rw [round_failed _ hreply, round_failed _ hreply]
      | done value rest le =>
          obtain ⟨c, errors⟩ := value
          have hc : ¬isVersion c = true := by
            intro hc
            obtain rfl := errors_eq_nil_of_isVersion hreply ⟨rfl, rfl⟩ hc
            exact hl (token_of_isVersion h ⟨l, r, _, rfl, hreply, rfl, rfl⟩ hc)
          rw [round_read hreply fun hversion => absurd hversion hc,
            round_read hreply fun hversion => absurd hversion hc]

theorem Recovered.Continues.unique {ts : List Lexeme} {all all' : Recovered ts} {c : Round}
    {next : Recovered c.rest} (h : all.Continues c next) (h' : all'.Continues c next) :
    all = all' := by
  obtain ⟨stmts, errors, rest, le⟩ := all
  obtain ⟨stmts', errors', rest', le'⟩ := all'
  obtain ⟨rfl, rfl, rfl⟩ := h
  obtain ⟨rfl, rfl, rfl⟩ := h'
  rfl

/-- The loop does not depend on whether a version would be accepted if none is declared. -/
theorem statements_opening {ts : List Lexeme} (h : Genuine ts)
    (hts : ∀ l ∈ ts, l.token ≠ .keyword .openqasm) (inBlock opening : Bool) :
    statements inBlock opening ts = statements inBlock true ts := by
  induction hn : ts.length using Nat.strong_induction_on generalizing ts opening with
  | _ n ih =>
    subst hn
    cases ts with
    | nil => rw [statements_nil, statements_nil]
    | cons l r =>
        cases hclose : closesBlock inBlock l with
        | true => rw [statements_close hclose, statements_close hclose]
        | false =>
            have hmem : ∀ l' ∈ (round true l r).rest, l' ∈ l :: r := fun l' hl' =>
              List.mem_cons_of_mem l ((round_suffix true l r).subset hl')
            have hnext : ∀ o, statements inBlock o (round true l r).rest =
                statements inBlock true (round true l r).rest := fun o =>
              ih _ (Nat.lt_succ_of_le (length_round_le true l r)) (fun l' hl' => h l' (hmem l' hl'))
                (fun l' hl' => hts l' (hmem l' hl')) o rfl
            have hgo := statements_round hclose opening r
            rw [round_opening h (hts l List.mem_cons_self), hnext] at hgo
            have hgo' := statements_round hclose true r
            rw [hnext] at hgo'
            exact hgo.unique hgo'

/-! The same text further down -/

/-- The same tokens, `k` lines further down. -/
def Apart (k : Nat) (ts ts' : List Lexeme) : Prop :=
  ts'.map Lexeme.mark = ts.map fun l => (l.token, l.line + k)

theorem paced_apart (k : Nat) : Paced k (Apart k) (Apart k) where
  nil := fun h => List.map_eq_nil_iff.1 h
  cons := by
    intro l r ts' h
    obtain ⟨l', r', rfl, hmark, hr⟩ := List.map_eq_cons_iff.1 h
    obtain ⟨htoken, hline⟩ := Prod.mk.inj hmark
    exact ⟨l', r', rfl, htoken, hline, fun _ => hr, fun _ => hr⟩

/-! A faulty statement -/

/-- Two copies, `k` lines apart, of a statement up to its semicolon, and what follows each. -/
inductive Garbled (k : Nat) (rest rest' : List Lexeme) : List Lexeme → List Lexeme → Prop
  | semicolon {l l' : Lexeme} : l.token = .symbol .semicolon → l'.token = l.token →
      l'.line = l.line + k → Garbled k rest rest' (l :: rest) (l' :: rest')
  | filler {l l' : Lexeme} {r r' : List Lexeme} : l.token.isFiller = true → l'.token = l.token →
      l'.line = l.line + k → Garbled k rest rest' r r' → Garbled k rest rest' (l :: r) (l' :: r')

section Garbled

variable {k : Nat} {rest rest' ts ts' : List Lexeme}

theorem garbled_of_apart {g g' : List Lexeme} {s s' : Lexeme}
    (h : Apart k (g ++ [s]) (g' ++ [s'])) (hg : ∀ l ∈ g, l.token.isFiller = true)
    (hs : s.token = .symbol .semicolon) (rest rest' : List Lexeme) :
    Garbled k rest rest' (g ++ s :: rest) (g' ++ s' :: rest') := by
  induction g generalizing g' with
  | nil =>
      cases g' with
      | nil =>
          obtain ⟨htoken, hline⟩ := Prod.mk.inj (List.cons.inj h).1
          exact .semicolon hs htoken hline
      | cons l' r' =>
          have hlength := congrArg List.length h
          simp at hlength
  | cons l r ih =>
      cases g' with
      | nil =>
          have hlength := congrArg List.length h
          simp at hlength
      | cons l' r' =>
          obtain ⟨hmark, hr⟩ := List.cons.inj h
          obtain ⟨htoken, hline⟩ := Prod.mk.inj hmark
          obtain ⟨hl, hg⟩ := List.forall_mem_cons.1 hg
          exact .filler hl htoken hline (ih hr hg)

theorem ne_semicolon_of_isFiller {t : Token} (h : t.isFiller = true) :
    t ≠ .symbol .semicolon := by
  rintro rfl
  cases h

theorem paced_garbled (k : Nat) (rest rest' : List Lexeme) :
    Paced k (Garbled k rest rest') (fun us us' => us = rest ∧ us' = rest') where
  nil := nofun
  cons := by
    intro l r ts' h
    cases h with
    | semicolon hl htoken hline =>
        exact ⟨_, _, rfl, htoken, hline, fun _ => ⟨rfl, rfl⟩, fun hne => absurd hl hne⟩
    | filler hl htoken hline hr =>
        have hne := ne_semicolon_of_isFiller hl
        exact ⟨_, _, rfl, htoken, hline, fun heq => absurd heq hne, fun _ => hr⟩

/-- Filler is skipped. -/
theorem skip_filler {l : Lexeme} (h : l.token.isFiller = true) (r : List Lexeme) :
    skip (l :: r) = skip r := by
  have hboundary : isBoundary l = false := by
    rw [isBoundary]
    split <;> first | rfl | (rename_i heq; rw [heq] at h; cases h)
  rw [skip, if_neg (ne_semicolon_of_isFiller h), hboundary]
  rfl

/-- Skipping stops behind the semicolon. -/
theorem Garbled.skip_eq (h : Garbled k rest rest' ts ts') : skip ts = rest ∧ skip ts' = rest' := by
  induction h with
  | semicolon hl htoken hline =>
      rw [skip, skip, if_pos hl, if_pos (htoken.trans hl)]
      exact ⟨rfl, rfl⟩
  | filler hl htoken hline hr ih =>
      rw [skip_filler hl, skip_filler (htoken ▸ hl)]
      exact ih

theorem Garbled.skipFrom_eq {l l' : Lexeme} {r r' : List Lexeme}
    (h : Garbled k rest rest' (l :: r) (l' :: r')) :
    skipFrom l r = rest ∧ skipFrom l' r' = rest' := by
  cases h with
  | semicolon hl htoken hline =>
      rw [skipFrom, skipFrom, htoken, hl]
      exact ⟨rfl, rfl⟩
  | filler hl htoken hline hr =>
      have hends : ¬(l.token = .symbol .semicolon || l.token = .symbol .rbrace) = true := by
        rw [Bool.or_eq_true, decide_eq_true_eq, decide_eq_true_eq]
        rintro (heq | heq)
        · exact ne_semicolon_of_isFiller hl heq
        · rw [heq] at hl
          cases hl
      rw [skipFrom, skipFrom, htoken, if_neg hends, if_neg hends]
      exact hr.skip_eq

/-- Neither a body nor a version declaration starts here. -/
structure Bodiless (l : Lexeme) : Prop where
  gate : l.token ≠ .keyword .gate
  defn : l.token ≠ .keyword .defn
  block : l.token ≠ .symbol .lbrace
  version : l.token ≠ .keyword .openqasm

theorem Garbled.bodiless {l : Lexeme} {r : List Lexeme} (h : Garbled k rest rest' (l :: r) ts') :
    Bodiless l := by
  cases h with
  | semicolon hl htoken hline => constructor <;> rw [hl] <;> exact nofun
  | filler hl htoken hline hr => constructor <;> (intro heq; rw [heq] at hl; cases hl)

/-- The two copies give rise to the same round. -/
theorem Garbled.matches_round {l l' : Lexeme} {r r' : List Lexeme}
    (h : Garbled k rest rest' (l :: r) (l' :: r')) (opening : Bool) :
    (round opening l r).Matches k (fun us us' => us = rest ∧ us' = rest')
      (round opening l' r') := by
  have hpaced := paced_garbled k rest rest'
  have hbodiless := h.bodiless
  have hrel : Option.Rel (Reply.MatchesNoted k (Garbled k rest rest')
      fun us us' => us = rest ∧ us' = rest') (statement l r) (statement l' r') := by
    cases h with
    | semicolon hl htoken hline =>
        rw [statement, statement, htoken, hl]
        exact .none
    | filler hl htoken hline hr =>
        exact rel_simple hpaced htoken hr hbodiless.gate hbodiless.defn hbodiless.block
  exact Parser.matches_round hpaced h hrel (fun _ _ => id) (fun _ _ hus => hus.skip_eq)
    h.skipFrom_eq opening

/-- Without a body, a statement is read or one error is reported. -/
theorem count_round {l : Lexeme} (h : Bodiless l) (opening : Bool) (r : List Lexeme) :
    (round opening l r).errors.length + (round opening l r).statement?.toList.length = 1 := by
  cases form l r with
  | nothing hnone =>
      rw [round_nothing opening (hnone l r rfl rfl)]
      rfl
  | simple p hp hsome =>
      have hreply := hsome l r rfl rfl
      rw [round, hreply]
      cases p r with
      | done c rest le =>
          simp only [Reply.noted, Reply.map, Reply.mapError]
          split <;> rfl
      | fail => rfl
  | definition header make hheader hmake htoken hsome =>
      rcases htoken with htoken | htoken
      · exact absurd htoken h.gate
      · exact absurd htoken h.defn
  | block htoken hsome => exact absurd htoken h.block

/-- On its own the statement is read, or there is one error. In front of other statements that
error comes before theirs, and nothing else changes for them. -/
theorem statements_garbled (h : Garbled k [] rest' ts ts') (hgenuine : Genuine ts')
    (opening : Bool) :
    (∃ c, (statements false true ts).statements = [c] ∧ (statements false true ts).errors = []) ∨
      ∃ e, (statements false true ts).errors = [e] ∧
        (statements false opening ts').statements = (statements false opening rest').statements ∧
        (statements false opening ts').errors =
          e.shift k :: (statements false opening rest').errors := by
  obtain ⟨l, r, l', r', rfl, rfl⟩ : ∃ l r l' r', ts = l :: r ∧ ts' = l' :: r' := by
    cases h with
    | semicolon => exact ⟨_, _, _, _, rfl, rfl⟩
    | filler => exact ⟨_, _, _, _, rfl, rfl⟩
  have htoken : l'.token = l.token := by
    obtain ⟨_, _, heq, htoken, -⟩ := (paced_garbled k [] rest').cons h
    cases heq
    exact htoken
  have hversion : l'.token ≠ .keyword .openqasm := htoken ▸ h.bodiless.version
  have hround := h.matches_round true
  have hcount := count_round h.bodiless true r
  have halone := statements_round (show closesBlock false l = false from rfl) true r
  have hgo := statements_round (show closesBlock false l' = false from rfl) opening r'
  rw [round_opening hgenuine hversion] at hgo
  revert hround hcount halone hgo
  generalize round true l r = first
  generalize round true l' r' = second
  obtain ⟨read, errors, rest⟩ := first
  obtain ⟨read', errors', rest''⟩ := second
  rintro ⟨hsame, hshift, hrest, hrest'⟩ hcount ⟨hstmts, herrors, -⟩ ⟨hstmts', herrors', -⟩
  dsimp only at hsame hshift hrest hrest' hcount hstmts herrors hstmts' herrors'
  subst hsame hshift hrest hrest'
  rw [statements_nil, List.append_nil] at hstmts herrors
  cases read' with
  | some c =>
      refine .inl ⟨c, hstmts, ?_⟩
      rw [herrors, ← List.length_eq_zero_iff]
      exact Nat.succ.inj hcount
  | none =>
      obtain ⟨e, rfl⟩ := List.length_eq_one_iff.1 hcount
      rw [Option.isNone_none, Bool.and_true] at hstmts' herrors'
      exact .inr ⟨e, herrors, hstmts', herrors'⟩

end Garbled

/-! Texts in a row -/

theorem Span.ends_getLast {u : List Token} (h : Span u) : ∀ t ∈ u.getLast?, t.ends = true := by
  intro t ht
  cases h with
  | simple =>
      rw [List.getLast?_concat] at ht
      cases ht
      rfl
  | body =>
      rw [← List.cons_append, ← List.append_assoc, List.getLast?_concat] at ht
      cases ht
      rfl

theorem ends_getLast_flatten {us : List (List Token)} (h : ∀ u ∈ us, Span u) :
    ∀ t ∈ us.flatten.getLast?, t.ends = true := by
  induction us with
  | nil => exact nofun
  | cons u us ih =>
      obtain ⟨hu, hus⟩ := List.forall_mem_cons.1 h
      intro t ht
      rw [List.flatten_cons, List.getLast?_append, Option.mem_def, Option.or_eq_some_iff] at ht
      rcases ht with ht | ⟨-, ht⟩
      · exact ih hus t ht
      · exact hu.ends_getLast t ht

theorem apart_of_marks {line k : Nat} {cs : List Char} {ts ts' : List Lexeme}
    (h : ts.map Lexeme.mark = marksOf line cs) (h' : ts'.map Lexeme.mark = marksOf (line + k) cs) :
    Apart k ts ts' := by
  rw [Apart, h', marksOf_shift, ← h, List.map_map]
  rfl

end Parser

open OpenQasm.Parser

theorem marksOf_semicolon (line : Nat) (cs : List Char) :
    marksOf line (';' :: cs) = (.symbol .semicolon, line) :: marksOf line cs := by
  have hscan : Token.scan ';' cs = (.symbol .semicolon, 0) := rfl
  rw [marksOf_cons, hscan]
  rfl

theorem sealed_of_parse {source : String} {p : Program} (h : Program.parse source = .ok p) :
    Sealed source.toList := by
  obtain ⟨us, htokens, hus⟩ := exists_sentences h
  refine sealed_of_ends ?_
  rw [htokens]
  exact ends_getLast_flatten (span_of_mem hus.each)

/-- What comes after a text without errors is read as if on its own, but for a version. -/
theorem recover_after {a source : String} {p : Program} {cs : List Char}
    (ha : Program.parse a = .ok p) (hsource : source.toList = a.toList ++ '\n' :: cs) :
    ∃ ts, Genuine ts ∧ ts.map Lexeme.mark = marksOf (1 + (newlines a.toList + 1)) cs ∧
      Program.recover source =
        (⟨p.statements ++ (statements false p.statements.isEmpty ts).statements⟩,
          (statements false p.statements.isEmpty ts).errors) := by
  have hmarks := marks_significant source
  rw [hsource, marksOf_append (sealed_of_parse ha)] at hmarks
  obtain ⟨front, ts, hlexemes, hfront, hts⟩ := List.map_eq_append_iff.1 hmarks
  obtain ⟨us, htokens, hus⟩ := exists_sentences ha
  have hspells : Spells us.flatten (significant source) ts := by
    have hmap := congrArg (List.map Prod.fst) hfront
    rw [List.map_map, tokens_marksOf, htokens] at hmap
    rw [hlexemes, ← hmap]
    exact spells_map front ts
  obtain ⟨hstmts, herrors, -⟩ := statements_after_sentences hus.each false hus.versionFirst hspells
  refine ⟨ts, fun l hl => ?_, ?_, ?_⟩
  · exact genuine_significant source l (hlexemes ▸ List.mem_append_right front hl)
  · rw [hts, Nat.add_assoc]
  · rw [Program.recover, hstmts, herrors, Bool.true_and]

/-- A text without a version is read alike wherever it stands. -/
theorem statements_of_marks {b : String} {k : Nat} {ts : List Lexeme}
    (hb : ∀ l ∈ significant b, l.token ≠ .keyword .openqasm)
    (hts : ts.map Lexeme.mark = marksOf (1 + k) b.toList) (opening : Bool) :
    (statements false opening ts).statements = (Program.recover b).1.statements ∧
      (statements false opening ts).errors = (Program.recover b).2.map (.shift k) := by
  have hapart : Apart k (significant b) ts := apart_of_marks (marks_significant b) hts
  have hmatches := matches_statements (paced_apart k) false opening hapart
  have hsame := statements_opening (genuine_significant b) hb false opening
  rw [hsame] at hmatches
  exact ⟨hmatches.statements, hmatches.errors⟩

/-- Where a text and a semicolon in the line below it end. -/
theorem exists_semicolon {g : List Char} (h : Sealed g) {line : Nat} {cs : List Char}
    {ts : List Lexeme} (hts : ts.map Lexeme.mark = marksOf line (g ++ '\n' :: ';' :: cs)) :
    ∃ gs s rest, ts = gs ++ s :: rest ∧ gs.map Lexeme.token = tokensOf g ∧
      s.token = .symbol .semicolon ∧
      (gs ++ [s]).map Lexeme.mark = marksOf line (g ++ ['\n', ';']) ∧
      rest.map Lexeme.mark = marksOf (line + newlines g + 1) cs := by
  rw [marksOf_append h, marksOf_semicolon] at hts
  obtain ⟨gs, others, rfl, hgs, hothers⟩ := List.map_eq_append_iff.1 hts
  obtain ⟨s, rest, rfl, hs, hrest⟩ := List.map_eq_cons_iff.1 hothers
  refine ⟨gs, s, rest, rfl, ?_, congrArg Prod.fst hs, ?_, hrest⟩
  · have hmap := congrArg (List.map Prod.fst) hgs
    rw [List.map_map, tokens_marksOf] at hmap
    exact hmap
  · rw [marksOf_append h, marksOf_semicolon, marksOf_nil, List.map_append, hgs, List.map_singleton,
      hs]

/-- A text of filler with a semicolon behind it, on its own and as part of another text. -/
theorem exists_garbled {g : String} {k : Nat} {cs : List Char} {ts : List Lexeme}
    (hg : ∀ l ∈ significant g, l.token.isFiller = true)
    (hclosed : ∀ l ∈ lexemes g, l.isOpen = false)
    (hts : ts.map Lexeme.mark = marksOf (1 + k) (g.toList ++ '\n' :: ';' :: cs)) :
    ∃ rest, rest.map Lexeme.mark = marksOf (1 + k + newlines g.toList + 1) cs ∧
      Garbled k [] rest (significant (g ++ "\n;")) ts := by
  have hsealed : Sealed g.toList := sealed_of_closed 0 1 g.toList hclosed
  have halone : (significant (g ++ "\n;")).map Lexeme.mark =
      marksOf 1 (g.toList ++ '\n' :: ';' :: []) := by
    rw [marks_significant, String.toList_append]
    rfl
  obtain ⟨gs, s, last, heq, htokens, hs, hmarks, hlast⟩ := exists_semicolon hsealed halone
  obtain ⟨gs', s', rest, rfl, -, -, hmarks', hrest⟩ := exists_semicolon hsealed hts
  obtain rfl : last = [] := by
    rw [marksOf_nil] at hlast
    exact List.map_eq_nil_iff.1 hlast
  have hfiller : ∀ l ∈ gs, l.token.isFiller = true := by
    intro l hl
    have hmem : l.token ∈ (significant g).map Lexeme.token := by
      rw [significant_tokens, ← htokens]
      exact List.mem_map_of_mem hl
    obtain ⟨l', hl', htoken⟩ := List.mem_map.1 hmem
    exact htoken ▸ hg l' hl'
  refine ⟨rest, hrest, ?_⟩
  rw [heq]
  exact garbled_of_apart (apart_of_marks hmarks hmarks') hfiller hs [] rest

/-- An error stays local. A text `b` without a version is read after a text `a` without errors
as it is on its own. Let `g` be a text of filler in which no string and no comment is left
open, and which is no statement with a semicolon behind it. Put between the two, it makes for
one error, the one it makes for on its own, and `a` and `b` are read as without it. -/
theorem Program.recover_local {a b : String} {p : Program} (ha : Program.parse a = .ok p)
    (hb : ∀ l ∈ significant b, l.token ≠ .keyword .openqasm) :
    Program.recover (a ++ "\n" ++ b) =
        (⟨p.statements ++ (Program.recover b).1.statements⟩,
          (Program.recover b).2.map (.shift (newlines a.toList + 1))) ∧
      ∀ g : String, (∀ l ∈ significant g, l.token.isFiller = true) →
        (∀ l ∈ lexemes g, l.isOpen = false) →
        (∀ c, Program.parse (g ++ "\n;") ≠ .ok ⟨[c]⟩) →
        ∃ e, (Program.recover (g ++ "\n;")).2 = [e] ∧
          Program.recover (a ++ "\n" ++ g ++ "\n;\n" ++ b) =
            (⟨p.statements ++ (Program.recover b).1.statements⟩,
              e.shift (newlines a.toList + 1) ::
                (Program.recover b).2.map
                  (.shift (newlines a.toList + newlines g.toList + 3))) := by
  refine ⟨?_, fun g hg hclosed hfaulty => ?_⟩
  · have hsource : (a ++ "\n" ++ b).toList = a.toList ++ '\n' :: b.toList := by simp
    obtain ⟨ts, -, hts, hrecover⟩ := recover_after ha hsource
    obtain ⟨hstmts, herrors⟩ := statements_of_marks hb hts p.statements.isEmpty
    rw [hrecover, hstmts, herrors]
  · have hsource : (a ++ "\n" ++ g ++ "\n;\n" ++ b).toList =
        a.toList ++ '\n' :: (g.toList ++ '\n' :: ';' :: '\n' :: b.toList) := by simp
    obtain ⟨ts, hgenuine, hts, hrecover⟩ := recover_after ha hsource
    obtain ⟨rest, hrest, hgarbled⟩ := exists_garbled hg hclosed hts
    have hlines : 1 + (newlines a.toList + 1) + newlines g.toList + 1 + newlines ['\n'] =
        1 + (newlines a.toList + newlines g.toList + 3) := by
      have hone : newlines ['\n'] = 1 := rfl
      omega
    rw [marksOf_blank (by decide), hlines] at hrest
    obtain ⟨hstmts, herrors⟩ := statements_of_marks hb hrest p.statements.isEmpty
    rcases statements_garbled hgarbled hgenuine p.statements.isEmpty with
      ⟨c, hread, hnone⟩ | ⟨e, herror, hstmts', herrors'⟩
    · refine absurd ?_ (hfaulty c)
      rw [Program.parse, Program.recover, hread, hnone]
    · refine ⟨e, herror, ?_⟩
      rw [hrecover, hstmts', herrors', hstmts, herrors]

def soundText : String := "OPENQASM 3.0; qubit[2] q;\nx q[0];"

def garbledText : String := "ctrl @ rz(pi,\n 2 q["

def laterText : String := "x q[1] q;\nh q[1];\n\x7d"

theorem recover_local_garbled :
    (Program.recover (soundText ++ "\n" ++ garbledText ++ "\n;\n" ++ laterText)).1.statements =
        (Program.recover soundText).1.statements ++ (Program.recover laterText).1.statements ∧
      (Program.recover (soundText ++ "\n" ++ garbledText ++ "\n;\n" ++ laterText)).2 =
        [.unexpectedToken 4 "')'" "'q'", .unexpectedToken 6 "';'" "'q'",
          .unexpectedToken 8 "statement" "'\x7d'"] ∧
      (Program.recover (soundText ++ "\n" ++ laterText)).2 =
        [.unexpectedToken 3 "';'" "'q'", .unexpectedToken 5 "statement" "'\x7d'"] := by
  have hsound : Program.parse soundText = .ok (Program.recover soundText).1 := by
    have herrors : (Program.recover soundText).2 = [] := by decide +kernel
    have hrecover : Program.recover soundText = ((Program.recover soundText).1, []) :=
      Prod.ext rfl herrors
    rw [Program.parse, hrecover]
  have hgarbled : (Program.recover (garbledText ++ "\n;")).2 =
      [.unexpectedToken 2 "')'" "'q'"] := by decide +kernel
  have hfaulty : ∀ c, Program.parse (garbledText ++ "\n;") ≠ .ok ⟨[c]⟩ := by
    intro c hparse
    rw [recover_of_parse hparse] at hgarbled
    cases hgarbled
  have hlater : (Program.recover laterText).2 =
      [.unexpectedToken 1 "';'" "'q'", .unexpectedToken 3 "statement" "'\x7d'"] := by decide +kernel
  obtain ⟨hplain, hbetween⟩ := Program.recover_local hsound
    (show ∀ l ∈ significant laterText, l.token ≠ .keyword .openqasm by decide +kernel)
  obtain ⟨e, he, hspoiled⟩ := hbetween garbledText (by decide +kernel) (by decide +kernel) hfaulty
  rw [hgarbled] at he
  cases he
  have hlines : newlines soundText.toList = 1 ∧ newlines garbledText.toList = 1 := by
    decide +kernel
  rw [hspoiled, hplain, hlater, hlines.1, hlines.2]
  exact ⟨rfl, rfl, rfl⟩

end OpenQasm
