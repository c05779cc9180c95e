import OpenQasm.Proofs.Lexing.Rules

/-!
# Accepted texts under the scanner

The scanner cuts off at least what any rule accepts at the front of a text. A text that a
rule of the highest rank accepts is, on its own, one token, the token of that rule.
-/
namespace OpenQasm

open Pattern

namespace Token

/-! Longest runs -/

theorem length_le_run {p : Char → Bool} {cs : List Char} (h : ∀ c ∈ cs, p c = true)
    (rest : List Char) : cs.length ≤ run p (cs ++ rest) := by
  rw [run, List.takeWhile_append_of_pos h, List.length_append]
  exact Nat.le_add_right _ _

theorem length_le_exponentLength {cs : List Char} (h : IsExponent cs) (rest : List Char) :
    cs.length ≤ exponentLength (cs ++ rest) := by
  rcases h with rfl | ⟨mark, sign, ds, hmark, hsign, hne, hds, rfl⟩
  · exact Nat.zero_le _
  · have hrun := length_le_run hds rest
    obtain ⟨d, ds, rfl⟩ := List.exists_cons_of_ne_nil hne
    rw [List.cons_append, List.append_assoc, List.cons_append,
      exponentLength_signed hmark hsign (hds d List.mem_cons_self), ← List.cons_append]
    simp only [List.length_cons, List.length_append, List.cons_append] at hrun ⊢
    omega

theorem run_le_numberTail (cs : List Char) : run Char.isDigit cs ≤ (numberTail cs).2 := by
  simp only [numberTail]
  split
  · dsimp only
    omega
  · exact Nat.le_add_right _ _

theorem numberTail_of_isNumberTail {real : Bool} {cs : List Char} (h : IsNumberTail real cs) :
    numberTail cs = (real, cs.length) := by
  have htail : numberTail (cs ++ []) = (real, cs.length) := numberTail_append h nofun
  rwa [List.append_nil] at htail

/-- A number is not cut before the end of a shorter one. -/
theorem length_le_numberTail {real : Bool} {cs : List Char} (h : IsNumberTail real cs)
    (rest : List Char) : cs.length ≤ (numberTail (cs ++ rest)).2 := by
  obtain ⟨whole, exponent, hwhole, hexponent, hshape⟩ := h
  have hlength := length_le_exponentLength hexponent rest
  have hmark : exponent ≠ [] → ∃ mark tail, exponent = mark :: tail ∧
      mark.isDigit = false ∧ mark ≠ '.' := by
    rcases hexponent with rfl | ⟨mark, sign, ds, rfl | rfl, -, -, -, rfl⟩
    · exact fun hne => absurd rfl hne
    · exact fun _ => ⟨'e', _, rfl, rfl, by decide⟩
    · exact fun _ => ⟨'E', _, rfl, rfl, by decide⟩
  rcases hshape with ⟨-, fraction, hfraction, rfl⟩ | ⟨-, rfl⟩
  · have hrun : run Char.isDigit (whole ++ '.' :: (fraction ++ exponent ++ rest)) = whole.length := by
      refine run_append_of_head hwhole ?_
      rintro c ⟨⟩
      decide
    simp only [numberTail, List.append_assoc, List.cons_append] at hrun ⊢
    simp only [hrun, List.drop_left, List.length_append, List.length_cons]
    by_cases hne : exponent = []
    · subst hne
      have := length_le_run hfraction rest
      simp only [List.nil_append, List.length_nil]
      omega
    · obtain ⟨mark, tail, rfl, hdigit, hpoint⟩ := hmark hne
      have hfrac : run (fun c => c.isDigit || c = '.') (fraction ++ (mark :: tail ++ rest)) =
          fraction.length := by
        refine run_append_of_head hfraction ?_
        rintro c ⟨⟩
        simp [hdigit, hpoint]
      rw [hfrac, List.drop_left]
      omega
  · by_cases hne : exponent = []
    · subst hne
      have hrun := length_le_run hwhole rest
      have := run_le_numberTail (whole ++ rest)
      simp only [List.append_nil]
      omega
    · obtain ⟨mark, tail, rfl, hdigit, hpoint⟩ := hmark hne
      have hrun : run Char.isDigit (whole ++ (mark :: tail ++ rest)) = whole.length := by
        refine run_append_of_head hwhole ?_
        rintro c ⟨⟩
        exact hdigit
      simp only [numberTail, List.append_assoc, hrun, List.drop_left, List.length_append]
      split
      · rename_i heq
        cases heq
        exact absurd rfl hpoint
      · omega

/-! Block comments -/

/-- A block comment that is opened at the front of a text and has no end. -/
def Unclosed (cs : List Char) : Prop := ∃ tail, cs = '/' :: '*' :: tail ∧ ¬['*', '/'] <:+: tail

theorem commentEnd?_eq_none_iff {cs : List Char} :
    commentEnd? cs = none ↔ ¬['*', '/'] <:+: cs := by
  induction cs using commentEnd?.induct with
  | case1 => simp [commentEnd?]
  | case2 tail =>
      simp only [commentEnd?, reduceCtorEq, false_iff, not_not]
      exact ⟨[], tail, rfl⟩
  | case3 c cs hopen ih =>
      have hfront : ¬['*', '/'] <+: c :: cs := by
        rintro ⟨tail, heq⟩
        cases heq
        exact hopen tail rfl rfl
      rw [commentEnd?.eq_3 c cs hopen, Option.map_eq_none_iff, ih, List.infix_cons_iff, not_or]
      exact (and_iff_right hfront).symm

theorem commentEnd?_take {cs : List Char} {n : Nat} (h : commentEnd? cs = some n) :
    n ≤ cs.length ∧ commentEnd? (cs.take n) = some n := by
  induction cs using commentEnd?.induct generalizing n with
  | case1 => cases h
  | case2 tail =>
      cases h
      exact ⟨by simp, rfl⟩
  | case3 c cs hopen ih =>
      rw [commentEnd?.eq_3 c cs hopen] at h
      obtain ⟨m, hm, rfl⟩ := Option.map_eq_some_iff.1 h
      obtain ⟨hle, htake⟩ := ih hm
      refine ⟨Nat.succ_le_succ hle, ?_⟩
      have hhead : c = '*' → (cs.take m).head? ≠ some '/' := by
        intro hc hslash
        rw [List.head?_take, Option.ite_none_left_eq_some] at hslash
        obtain ⟨tail, rfl⟩ := List.head?_eq_some_iff.1 hslash.2
        exact hopen tail hc rfl
      rw [List.take_succ_cons, Rule.commentEnd?_cons hhead, htake, Option.map_some]

/-! What the scanner makes of a text that a rule accepts -/

theorem run_of_forall {p : Char → Bool} {cs : List Char} (h : ∀ c ∈ cs, p c = true) :
    run p cs = cs.length := by
  rw [run, List.takeWhile_eq_self_iff.2 h]

theorem scan_quote {quote : Char} (h : quote = '"' ∨ quote = '\'') (cs : List Char) :
    scan quote cs = scanString quote cs := by
  rcases h with rfl | rfl <;> rfl

theorem takeWhile_body {quote : Char} {body : List Char} (h : quote ∉ body) (rest : List Char) :
    (body ++ rest).takeWhile (· ≠ quote) = body ++ rest.takeWhile (· ≠ quote) :=
  List.takeWhile_append_of_pos fun c hc => by simpa using fun heq : c = quote => h (heq ▸ hc)

/-- A string whose second quote is missing goes up to the end of the text. -/
theorem scanString_open {quote : Char} {body : List Char} (h : quote ∉ body) :
    scanString quote body = (string (String.ofList body), body.length) := by
  have hbody := takeWhile_body h []
  rw [List.append_nil, List.takeWhile_nil, List.append_nil] at hbody
  simp only [scanString, hbody, Nat.lt_irrefl, if_false, Nat.add_zero]

end Token

namespace Rule

open Token (scan scan_word scan_digit run)

theorem unquoted_open {quote : Char} {body : List Char} (h : quote ∉ body) :
    unquoted (quote :: body) = body :=
  if_neg fun hlast => h (List.mem_of_getLast? hlast)

theorem unquoted_closed (quote : Char) (body : List Char) :
    unquoted (quote :: (body ++ [quote])) = body := by
  simp [unquoted]

theorem mem_word_of_reserved {t : Token} (h : (t.text, t) ∈ Token.reserved) :
    t.text.toList ∈ word.language := by
  obtain ⟨-, -, hhead, hall⟩ := Token.reserved_spelling _ h
  cases hlist : t.text.toList with
  | nil =>
      rw [hlist] at hhead
      cases hhead
  | cons c cs =>
      rw [hlist] at hhead hall
      exact mem_word.2 ⟨c, cs, rfl, hhead, fun d hd =>
        List.all_eq_true.1 hall d (List.mem_cons_of_mem c hd)⟩

/-- Spelled tokens are words, symbols, or one character long. -/
theorem spelled_cases (s : Spelling) :
    s.text = s.token.text ∧ (s.token.text, s.token) ∈ Token.reserved ∨
      (∃ symbol, s = .symbol symbol) ∨ ∃ name, s = .glyph name := by
  cases s with
  | keyword word => exact .inl ⟨rfl, Token.reserved_keyword word⟩
  | typeName kind => exact .inl ⟨rfl, Token.reserved_typeName kind⟩
  | modifier kind => exact .inl ⟨rfl, Token.reserved_modifier kind⟩
  | builtin gate => exact .inl ⟨rfl, Token.reserved_builtin gate⟩
  | constant name => exact .inl ⟨rfl, Token.reserved_constant name⟩
  | glyph name => exact .inr (.inr ⟨name, rfl⟩)
  | symbol symbol => exact .inr (.inl ⟨symbol, rfl⟩)

theorem scan_spelled {s : Spelling} {c : Char} {cs : List Char} (h : s.text.toList = c :: cs) :
    scan c cs = (s.token, cs.length) := by
  have hself {t : Token} (ht : t.SelfReading) (htext : t.text.toList = c :: cs) :
      scan c cs = (t, cs.length) := by
    obtain ⟨d, ds, hlist, -, hscan⟩ := ht
    cases hlist.symm.trans htext
    have := hscan [] nofun
    rwa [List.append_nil] at this
  rcases spelled_cases s with ⟨htext, hreserved⟩ | ⟨symbol, rfl⟩ | ⟨name, rfl⟩
  · exact hself (Token.selfReading_reserved hreserved) (htext ▸ h)
  · exact hself (Token.selfReading_symbol symbol) h
  · cases name <;> (cases h; rfl)

theorem scan_real {c : Char} {cs : List Char}
    (h : c :: cs ∈ pointed.language ∨ c :: cs ∈ scaled.language) :
    scan c cs = (.float (String.ofList (c :: cs)), cs.length) := by
  obtain ⟨hc, hcs⟩ := mem_real.1 h
  rw [scan_digit hc (Token.numberTail_of_isNumberTail hcs), List.take_length]
  rfl

theorem scan_quoted {quote : Char} (hquote : quote = '"' ∨ quote = '\'') {c : Char} {cs : List Char}
    (h : c :: cs ∈ quoted quote) :
    scan c cs = (.string (String.ofList (unquoted (c :: cs))), cs.length) := by
  obtain ⟨body, hbody, heq | heq⟩ := mem_quoted.1 h
  · cases heq
    rw [Token.scan_quote hquote, Token.scanString_open hbody, unquoted_open hbody]
  · cases heq
    rw [Piece.scan_quoted hquote hbody, unquoted_closed]
    simp

/-- A text that a rule of the highest rank accepts is the text of one token. -/
theorem scan_of_mem {r : Rule} (hr : r.rank = 2) {c : Char} {cs : List Char}
    (h : c :: cs ∈ r.language) : scan c cs = (r.token (c :: cs), cs.length) := by
  cases r with
  | blank =>
      obtain ⟨hc, hcs⟩ := List.forall_mem_cons.1 (mem_blank.1 h).2
      rw [scan_blank hc, Token.run_of_forall hcs]
      rfl
  | lineComment =>
      obtain ⟨cs, heq, hcs⟩ := mem_lineComment.1 h
      cases heq
      have hrun : run (· ≠ '\n') cs = cs.length := Token.run_of_forall (by simpa using hcs)
      change (Token.comment, 1 + run (· ≠ '\n') cs) = _
      rw [hrun, Nat.add_comm]
      rfl
  | blockComment =>
      obtain ⟨cs, heq, hcs⟩ := mem_blockComment.1 h
      cases heq
      change Token.scanSlash ('*' :: cs) = _
      simp only [Token.scanSlash, hcs, token, List.length_cons, Nat.add_comm]
  | spelled s => exact scan_spelled (mem_spelled.1 h).symm
  | pointed => exact scan_real (.inl h)
  | scaled => exact scan_real (.inr h)
  | whole =>
      obtain ⟨hc, hcs⟩ := mem_whole.1 h
      rw [scan_digit hc (Token.numberTail_of_isNumberTail hcs), List.take_length]
      rfl
  | doubleQuoted => exact scan_quoted (.inl rfl) h
  | singleQuoted => exact scan_quoted (.inr rfl) h
  | word => cases hr
  | stray => cases hr

/-! Nothing longer is left out -/

theorem length_le_scan_word {c : Char} {cs : List Char} (h : c :: cs ∈ word.language)
    (rest : List Char) : cs.length ≤ (scan c (cs ++ rest)).2 := by
  obtain ⟨_, _, heq, hc, hcs⟩ := mem_word.1 h
  cases heq
  rw [scan_word hc]
  exact Token.length_le_run hcs rest

theorem length_le_scan_number {real : Bool} {c : Char} {cs : List Char}
    (h : c.isDigit = true ∧ Token.IsNumberTail real cs) (rest : List Char) :
    cs.length ≤ (scan c (cs ++ rest)).2 := by
  rw [scan_digit h.1 rfl]
  exact Token.length_le_numberTail h.2 rest

theorem length_le_scan_quoted {quote : Char} (hquote : quote = '"' ∨ quote = '\'') {c : Char}
    {cs : List Char} (h : c :: cs ∈ quoted quote) (rest : List Char) :
    cs.length ≤ (scan c (cs ++ rest)).2 := by
  obtain ⟨body, hbody, heq | heq⟩ := mem_quoted.1 h
  · cases heq
    rw [Token.scan_quote hquote]
    simp only [Token.scanString, Token.takeWhile_body hbody, List.length_append]
    omega
  · cases heq
    rw [List.append_assoc, List.singleton_append, Piece.scan_quoted hquote hbody]
    simp

theorem length_le_scan_spelled {s : Spelling} {c : Char} {cs : List Char}
    (h : c :: cs = s.text.toList) (rest : List Char) : cs.length ≤ (scan c (cs ++ rest)).2 := by
  rcases spelled_cases s with ⟨htext, hreserved⟩ | ⟨symbol, rfl⟩ | ⟨name, rfl⟩
  · refine length_le_scan_word ?_ rest
    rw [h, htext]
    exact mem_word_of_reserved hreserved
  · cases symbol with
    | arrow =>
        cases h
        exact Nat.le_refl 1
    | _ =>
        cases h
        exact Nat.zero_le _
  · rw [Spelling.text, String.toList_ofList] at h
    cases h
    exact Nat.zero_le _

/-- The scanner cuts off at least what any rule accepts. -/
theorem length_le_scan {r : Rule} {c : Char} {cs : List Char} (h : c :: cs ∈ r.language)
    (rest : List Char) : cs.length ≤ (scan c (cs ++ rest)).2 := by
  cases r with
  | blank =>
      obtain ⟨hc, hcs⟩ := List.forall_mem_cons.1 (mem_blank.1 h).2
      rw [scan_blank hc]
      exact Token.length_le_run hcs rest
  | lineComment =>
      obtain ⟨cs, heq, hcs⟩ := mem_lineComment.1 h
      cases heq
      have hrun : cs.length ≤ run (· ≠ '\n') (cs ++ rest) :=
        Token.length_le_run (by simpa using hcs) rest
      change cs.length + 1 ≤ 1 + run (· ≠ '\n') (cs ++ rest)
      omega
  | blockComment =>
      obtain ⟨cs, heq, hcs⟩ := mem_blockComment.1 h
      cases heq
      have hend := (Token.commentEnd?_append hcs rest).1
      change cs.length + 1 ≤ (Token.scanSlash ('*' :: (cs ++ rest))).2
      simp only [Token.scanSlash, hend, Nat.add_comm, Nat.le_refl]
  | spelled s => exact length_le_scan_spelled h rest
  | pointed => exact length_le_scan_number (mem_real.1 (.inl h)) rest
  | scaled => exact length_le_scan_number (mem_real.1 (.inr h)) rest
  | whole => exact length_le_scan_number (mem_whole.1 h) rest
  | doubleQuoted => exact length_le_scan_quoted (.inl rfl) h rest
  | singleQuoted => exact length_le_scan_quoted (.inr rfl) h rest
  | word => exact length_le_scan_word h rest
  | stray =>
      obtain ⟨d, -, heq⟩ := mem_stray.1 h
      cases heq
      exact Nat.zero_le _

end Rule

end OpenQasm
