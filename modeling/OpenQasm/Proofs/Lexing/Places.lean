import OpenQasm.Proofs.Lexing.Lines

/-!
# Lines of lexemes

The lexemes of a text stand in the order of their lines. For the parser a lexeme is its token
and its line. A text can be put before another one if a line ends between them and no string
or comment is open there: each part is then cut as it is on its own, and the lines of the
second part are counted on from the first.
-/
namespace OpenQasm

theorem line_le_of_mem_lexFrom (start line : Nat) (cs : List Char) :
    ∀ l ∈ lexFrom start line cs, line ≤ l.line := by
  induction start, line, cs using lexFrom.induct with
  | case1 start line =>
      intro l hl
      rw [lexFrom] at hl
      cases hl
  | case2 start line c cs token n hscan chars ih =>
      intro l hl
      rw [lexFrom_cons, hscan] at hl
      rcases List.mem_cons.1 hl with rfl | hl
      · exact Nat.le_refl _
      · exact Nat.le_trans (Nat.le_add_right _ _) (ih l hl)

theorem pairwise_lexFrom (start line : Nat) (cs : List Char) :
    (lexFrom start line cs).Pairwise fun a b => a.line ≤ b.line := by
  induction start, line, cs using lexFrom.induct with
  | case1 start line =>
      rw [lexFrom]
      exact .nil
  | case2 start line c cs token n hscan chars ih =>
      rw [lexFrom_cons, hscan, List.pairwise_cons]
      refine ⟨fun l hl => ?_, ih⟩
      exact Nat.le_trans (Nat.le_add_right _ _) (line_le_of_mem_lexFrom _ _ _ l hl)

/-- The lexemes of a source stand in the order of their lines. -/
theorem pairwise_significant (source : String) :
    (significant source).Pairwise fun a b => a.line ≤ b.line :=
  (pairwise_lexFrom 0 1 source.toList).filter _

/-! Tokens with their lines -/

/-- A token and the line it stands in. -/
def Lexeme.mark (l : Lexeme) : Token × Nat := (l.token, l.line)

/-- The tokens that carry meaning, with their lines, of a text that starts at a given line. -/
def marksOf (line : Nat) (cs : List Char) : List (Token × Nat) :=
  ((lexFrom 0 line cs).filter (!·.token.isTrivia)).map Lexeme.mark

theorem marks_lexFrom (start line : Nat) (cs : List Char) :
    ((lexFrom start line cs).filter (!·.token.isTrivia)).map Lexeme.mark = marksOf line cs := by
  suffices h : ∀ start', ((lexFrom start line cs).filter (!·.token.isTrivia)).map Lexeme.mark =
      ((lexFrom start' line cs).filter (!·.token.isTrivia)).map Lexeme.mark from h 0
  induction start, line, cs using lexFrom.induct with
  | case1 start line =>
      intro start'
      rw [lexFrom, lexFrom]
  | case2 start line c cs token n hscan chars ih =>
      intro start'
      rw [lexFrom_cons, lexFrom_cons, hscan, List.filter_cons, List.filter_cons]
      dsimp only
      split
      · rw [List.map_cons, List.map_cons, ih]
        rfl
      · exact ih _

theorem marks_significant (source : String) :
    (significant source).map Lexeme.mark = marksOf 1 source.toList :=
  marks_lexFrom 0 1 source.toList

theorem marksOf_nil (line : Nat) : marksOf line [] = [] := by
  rw [marksOf, lexFrom]
  rfl

theorem marksOf_cons (line : Nat) (c : Char) (cs : List Char) :
    marksOf line (c :: cs) =
      (if (Token.scan c cs).1.isTrivia then [] else [((Token.scan c cs).1, line)]) ++
        marksOf (line + newlines (c :: cs.take (Token.scan c cs).2))
          (cs.drop (Token.scan c cs).2) := by
  rw [marksOf, lexFrom_cons, List.filter_cons]
  cases htrivia : (Token.scan c cs).1.isTrivia with
  | true => simpa [htrivia] using marks_lexFrom _ _ _
  | false => simpa [htrivia, Lexeme.mark] using marks_lexFrom _ _ _

theorem tokens_marksOf (line : Nat) (cs : List Char) :
    (marksOf line cs).map Prod.fst = tokensOf cs := by
  rw [marksOf, List.map_map, ← tokens_lexFrom 0 line cs, List.filter_map]
  rfl

/-- Further down every line is further down. -/
theorem marksOf_shift (line k : Nat) (cs : List Char) :
    marksOf (line + k) cs = (marksOf line cs).map fun m => (m.1, m.2 + k) := by
  induction hn : cs.length using Nat.strong_induction_on generalizing cs line with
  | _ n ih =>
    subst hn
    cases cs with
    | nil => rw [marksOf_nil, marksOf_nil, List.map_nil]
    | cons c cs =>
        have hlt : (cs.drop (Token.scan c cs).2).length < (c :: cs).length := by
          rw [List.length_drop, List.length_cons]
          omega
        rw [marksOf_cons, marksOf_cons, Nat.add_right_comm, ih _ hlt _ _ rfl, List.map_append]
        congr 1
        split <;> rfl

theorem newlines_append (cs ds : List Char) : newlines (cs ++ ds) = newlines cs + newlines ds :=
  List.count_append

theorem scan_blank {c : Char} (hc : Token.isBlank c = true) (cs : List Char) :
    Token.scan c cs = (.blank, Token.run Token.isBlank cs) := by
  simp [Token.scan, hc]

/-- A blank before a text only moves it down, by the line that it ends. -/
theorem marksOf_blank {c : Char} (hc : Token.isBlank c = true) (line : Nat) (cs : List Char) :
    marksOf line (c :: cs) = marksOf (line + newlines [c]) cs := by
  rw [marksOf_cons, scan_blank hc]
  cases cs with
  | nil => rfl
  | cons d ds =>
      by_cases hd : Token.isBlank d = true
      · have hlines : newlines (c :: d :: ds.take (Token.run Token.isBlank ds)) =
            newlines [c] + newlines (d :: ds.take (Token.run Token.isBlank ds)) :=
          newlines_append [c] _
        rw [marksOf_cons _ d, scan_blank hd]
        simp only [Token.run, hd, List.takeWhile_cons_of_pos, List.length_cons, List.take_succ_cons,
          List.drop_succ_cons] at hlines ⊢
        simp [Token.isTrivia, hlines, Nat.add_assoc]
      · simp [Token.run, hd, Token.isTrivia]

theorem marksOf_blanks {bs : List Char} (hbs : ∀ c ∈ bs, Token.isBlank c = true) (line : Nat)
    (cs : List Char) : marksOf line (bs ++ cs) = marksOf (line + newlines bs) cs := by
  induction bs generalizing line with
  | nil => rfl
  | cons c bs ih =>
      obtain ⟨hc, hbs⟩ := List.forall_mem_cons.1 hbs
      have hlines : newlines (c :: bs) = newlines [c] + newlines bs := newlines_append [c] bs
      rw [List.cons_append, marksOf_blank hc, ih hbs, hlines, Nat.add_assoc]

/-! One text before another -/

/-- Texts in which no token is left open at the end. -/
inductive Sealed : List Char → Prop
  | nil : Sealed []
  | cons {c : Char} {cs : List Char} : ¬Token.Unfinished c cs (Token.scan c cs) →
      Sealed (cs.drop (Token.scan c cs).2) → Sealed (c :: cs)

/-- A sealed text that a line end follows is cut on its own. -/
theorem marksOf_append {cs : List Char} (h : Sealed cs) (line : Nat) (rest : List Char) :
    marksOf line (cs ++ '\n' :: rest) =
      marksOf line cs ++ marksOf (line + newlines cs + 1) rest := by
  induction h generalizing line with
  | nil =>
      rw [List.nil_append, marksOf_blank (by decide), marksOf_nil]
      rfl
  | @cons c cs hfinished hsealed ih =>
      by_cases hc : Token.isBlank c = true
      · rw [scan_blank hc] at ih
        obtain ⟨bs, ds, rfl, hrun, hbs⟩ := Token.exists_run Token.isBlank cs
        simp only [hrun, List.drop_left] at ih
        have hblanks : ∀ d ∈ c :: bs, Token.isBlank d = true := List.forall_mem_cons.2 ⟨hc, hbs⟩
        have hlines := newlines_append (c :: bs) ds
        rw [← List.cons_append, List.append_assoc, marksOf_blanks hblanks, ih,
          marksOf_blanks hblanks, hlines, ← Nat.add_assoc]
      · rw [Bool.not_eq_true] at hc
        rcases Token.scan_append hc (.inr ⟨rest, rfl⟩) with ⟨hscan, hle⟩ | hopen
        · have hlines := newlines_append (c :: cs.take (Token.scan c cs).2)
            (cs.drop (Token.scan c cs).2)
          rw [List.cons_append, List.take_append_drop] at hlines
          rw [List.cons_append, marksOf_cons, marksOf_cons, hscan, hlines,
            List.drop_append_of_le_length hle, List.take_append_of_le_length hle, ih,
            List.append_assoc, ← Nat.add_assoc]
        · exact absurd hopen hfinished

/-- A text that ends with a statement, or has no tokens, is sealed. -/
theorem sealed_of_ends {cs : List Char} (h : ∀ t ∈ (tokensOf cs).getLast?, t.ends = true) :
    Sealed cs := by
  induction hn : cs.length using Nat.strong_induction_on generalizing cs with
  | _ n ih =>
    subst hn
    cases cs with
    | nil => exact .nil
    | cons c cs =>
        rw [tokensOf_cons] at h
        refine .cons (fun hopen => ?_) (ih _ ?_ (fun t ht => ?_) rfl)
        · rw [hopen.length, hopen.isTrivia] at h
          simp [tokensOf_nil, hopen.ends] at h
        · rw [List.length_drop, List.length_cons]
          omega
        · exact h t (List.mem_getLast?_append_of_mem_getLast? ht)

def Lexeme.isOpen (l : Lexeme) : Bool := l.token.isOpen l.chars

theorem sealed_of_closed (start line : Nat) (cs : List Char)
    (h : ∀ l ∈ lexFrom start line cs, l.isOpen = false) : Sealed cs := by
  induction start, line, cs using lexFrom.induct with
  | case1 start line => exact .nil
  | case2 start line c cs token n hscan chars ih =>
      rw [lexFrom_cons, List.forall_mem_cons] at h
      rw [hscan] at h
      refine .cons (fun hopen => ?_) ?_
      · have hisOpen := hopen.isOpen
        have hlength := hopen.length
        rw [hscan] at hisOpen hlength
        have hfirst : token.isOpen (c :: cs.take n) = false := h.1
        dsimp only at hisOpen hlength
        rw [hlength, List.take_length, hisOpen] at hfirst
        cases hfirst
      · rw [hscan]
        exact ih h.2

end OpenQasm
