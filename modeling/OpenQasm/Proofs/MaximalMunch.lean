import OpenQasm.Proofs.Lexing.Accepted
import OpenQasm.Proofs.LosslessLexing

/-!
# The longest token

A source is cut at the longest text that some rule accepts. Among the rules that accept it
those of the highest rank agree on a token, and this is the token of the lexeme. A block
comment without an end is no such text; the rest of the source is then one illegal token.
-/
namespace OpenQasm

open Pattern

namespace Rule

open Token (scan scan_word scan_digit run)

/-! What is cut off is accepted -/

theorem rank_le (r : Rule) : r.rank ≤ 2 := by
  cases r <;> simp [rank]

theorem token_of_rank {r : Rule} (hr : r.rank = 2) (w : List Char) (text : String) :
    r.token w ≠ .ident text ∧ r.token w ≠ .illegal text := by
  cases r with
  | spelled s => cases s <;> exact ⟨nofun, nofun⟩
  | word => cases hr
  | stray => cases hr
  | _ => exact ⟨nofun, nofun⟩

/-- A rule accepts what was cut off and none of a higher rank does, and the token is that of
the rule. -/
def Explains (c : Char) (cs : List Char) (read : Token × Nat) (r : Rule) : Prop :=
  c :: cs.take read.2 ∈ r.language ∧ read.1 = r.token (c :: cs.take read.2) ∧
    ∀ r', c :: cs.take read.2 ∈ language r' → r'.rank ≤ r.rank

theorem explains_of_rank {c : Char} {cs : List Char} {read : Token × Nat} {r : Rule}
    (hr : r.rank = 2) (h : c :: cs.take read.2 ∈ r.language)
    (htoken : read.1 = r.token (c :: cs.take read.2)) : Explains c cs read r :=
  ⟨h, htoken, fun r' _ => hr ▸ r'.rank_le⟩

theorem exists_spelling {w : String} {t : Token} (h : Token.reserved.lookup w = some t) :
    ∃ s : Spelling, s.text = w ∧ s.token = t := by
  obtain ⟨before, after, hsplit, -⟩ := List.lookup_eq_some_iff.1 h
  have hmem : (w, t) ∈ Token.reserved := by simp [hsplit]
  simp only [Token.reserved, List.mem_append, List.mem_map, Prod.mk.injEq] at hmem
  rcases hmem with (((⟨k, -, rfl, rfl⟩ | ⟨k, -, rfl, rfl⟩) | ⟨k, -, rfl, rfl⟩) |
    ⟨g, -, rfl, rfl⟩) | ⟨c, -, rfl, rfl⟩
  · exact ⟨.keyword k, rfl, rfl⟩
  · exact ⟨.typeName k, rfl, rfl⟩
  · exact ⟨.modifier k, rfl, rfl⟩
  · exact ⟨.builtin g, rfl, rfl⟩
  · exact ⟨.constant c, rfl, rfl⟩

/-- A word is spelled like some token, or it is an identifier. -/
theorem ofWord_cases (w : String) :
    (∃ s : Spelling, s.text = w ∧ Token.ofWord w = s.token) ∨ Token.ofWord w = .ident w := by
  rw [Token.ofWord]
  cases hlook : Token.reserved.lookup w with
  | some t =>
      obtain ⟨s, htext, rfl⟩ := exists_spelling hlook
      exact .inl ⟨s, htext, rfl⟩
  | none => exact .inr rfl

/-- An identifier is accepted by no rule of the highest rank, as the scanner makes an
identifier of it when it stands alone. -/
theorem rank_ne_of_ident {c : Char} {cs : List Char} (hc : Token.isWordStart c = true)
    (hcs : ∀ d ∈ cs, Token.isWordPart d = true)
    (hident : Token.ofWord (String.ofList (c :: cs)) = .ident (String.ofList (c :: cs))) {r : Rule}
    (h : c :: cs ∈ r.language) : r.rank ≠ 2 := by
  intro hrank
  have hscan := scan_of_mem hrank h
  rw [scan_word hc, Token.run_of_forall hcs, List.take_length, hident] at hscan
  exact (token_of_rank hrank _ _).1 (Prod.mk.inj hscan).1.symm

theorem explains_word {c : Char} (hc : Token.isWordStart c = true) (cs : List Char) :
    ∃ r, Explains c cs (scan c cs) r := by
  have hparts : ∀ d ∈ cs.take (run Token.isWordPart cs), Token.isWordPart d = true :=
    fun d hd => Token.of_mem_take_run hd
  rw [scan_word hc]
  rcases ofWord_cases (String.ofList (c :: cs.take (run Token.isWordPart cs))) with
    ⟨s, htext, htoken⟩ | hident
  · refine ⟨.spelled s, explains_of_rank rfl ?_ htoken⟩
    rw [mem_spelled, htext, String.toList_ofList]
  · refine ⟨.word, mem_word.2 ⟨c, _, rfl, hc, hparts⟩, hident, fun r' hr' => ?_⟩
    have hne := rank_ne_of_ident hc hparts hident hr'
    have := r'.rank_le
    change r'.rank ≤ 1
    omega

theorem explains_number {c : Char} (hc : c.isDigit = true) (cs : List Char) :
    ∃ r, Explains c cs (scan c cs) r := by
  rcases hnumber : Token.numberTail cs with ⟨real, n⟩
  have htail := Token.isNumberTail_take hnumber
  rw [scan_digit hc hnumber]
  cases real with
  | false => exact ⟨.whole, explains_of_rank rfl (mem_whole.2 ⟨hc, htail⟩) rfl⟩
  | true =>
      rcases mem_real.2 ⟨hc, htail⟩ with h | h
      · exact ⟨.pointed, explains_of_rank rfl h rfl⟩
      · exact ⟨.scaled, explains_of_rank rfl h rfl⟩

theorem explains_string {quote : Char} (hquote : quote = '"' ∨ quote = '\'') (cs : List Char) :
    ∃ r, Explains quote cs (scan quote cs) r := by
  suffices h : quote :: cs.take (scan quote cs).2 ∈ quoted quote ∧ (scan quote cs).1 =
      .string (String.ofList (unquoted (quote :: cs.take (scan quote cs).2))) by
    rcases hquote with rfl | rfl
    · exact ⟨.doubleQuoted, explains_of_rank rfl h.1 h.2⟩
    · exact ⟨.singleQuoted, explains_of_rank rfl h.1 h.2⟩
  by_cases hmem : quote ∈ cs
  · obtain ⟨body, tail, rfl, hbody⟩ := List.eq_append_cons_of_mem hmem
    have htake : (body ++ quote :: tail).take (body.length + 1) = body ++ [quote] := by
      rw [List.take_length_add_append, List.take_succ_cons, List.take_zero]
    rw [Piece.scan_quoted hquote hbody, htake, unquoted_closed]
    exact ⟨mem_quoted.2 ⟨body, hbody, .inr rfl⟩, rfl⟩
  · rw [Token.scan_quote hquote, Token.scanString_open hmem, List.take_length, unquoted_open hmem]
    exact ⟨mem_quoted.2 ⟨cs, hmem, .inl rfl⟩, rfl⟩

theorem explains_slash {cs : List Char} (h : ¬Token.Unclosed ('/' :: cs)) :
    ∃ r, Explains '/' cs (scan '/' cs) r := by
  change ∃ r, Explains '/' cs (Token.scanSlash cs) r
  unfold Token.scanSlash
  split
  · rename_i cs
    refine ⟨.lineComment, explains_of_rank rfl (mem_lineComment.2 ?_) rfl⟩
    rw [Nat.add_comm, List.take_succ_cons]
    exact ⟨_, rfl, fun c hc => by simpa using Token.of_mem_take_run hc⟩
  · rename_i cs
    cases hend : Token.commentEnd? cs with
    | some n =>
        obtain ⟨hle, htake⟩ := Token.commentEnd?_take hend
        refine ⟨.blockComment, explains_of_rank rfl (mem_blockComment.2 ?_) rfl⟩
        dsimp only
        rw [Nat.add_comm, List.take_succ_cons]
        exact ⟨_, rfl, by rw [htake, List.length_take, Nat.min_eq_left hle]⟩
    | none => exact absurd ⟨cs, rfl, Token.commentEnd?_eq_none_iff.1 hend⟩ h
  · exact ⟨.spelled (.symbol .slash), explains_of_rank rfl rfl rfl⟩

theorem text_of_symbol? {c : Char} {s : Symbol} (h : Token.symbol? c = some s) :
    s.text.toList = [c] := by
  unfold Token.symbol? at h
  split at h <;> cases h <;> rfl

/-- What is no symbol stands for a constant, or is stray. -/
theorem explains_glyph {c : Char} (hword : Token.isWordStart c = false) (hline : c ≠ '\n')
    (hscan : scan c [] = ((Token.ofGlyph? c).getD (.illegal (String.ofList [c])), 0))
    (cs : List Char) :
    ∃ r, Explains c cs ((Token.ofGlyph? c).getD (.illegal (String.ofList [c])), 0) r := by
  unfold Token.ofGlyph? at hscan ⊢
  cases hfind : MathConstant.all.find? (·.glyph = c) with
  | some name =>
      have hglyph : name.glyph = c := by simpa using List.find?_some hfind
      refine ⟨.spelled (.glyph name), explains_of_rank rfl ?_ rfl⟩
      rw [mem_spelled, Spelling.text, String.toList_ofList, hglyph]
      rfl
  | none =>
      rw [hfind] at hscan
      refine ⟨.stray, mem_stray.2 ⟨c, hline, rfl⟩, rfl, fun r' hr' => ?_⟩
      have hrank : r'.rank ≠ 2 := fun hrank =>
        (token_of_rank hrank _ _).2 (Prod.mk.inj ((scan_of_mem hrank hr').symm.trans hscan)).1
      cases r' with
      | word =>
          obtain ⟨_, _, heq, hc, -⟩ := mem_word.1 hr'
          cases heq
          rw [hword] at hc
          cases hc
      | stray => exact Nat.le_refl 0
      | _ => exact absurd rfl hrank

theorem exists_explains {c : Char} {cs : List Char} (h : ¬Token.Unclosed (c :: cs)) :
    ∃ r, Explains c cs (scan c cs) r := by
  by_cases hblank : Token.isBlank c = true
  · rw [scan_blank hblank]
    refine ⟨.blank, explains_of_rank rfl (mem_blank.2 ⟨List.cons_ne_nil _ _, ?_⟩) rfl⟩
    exact List.forall_mem_cons.2 ⟨hblank, fun d hd => Token.of_mem_take_run hd⟩
  by_cases hword : Token.isWordStart c = true
  · exact explains_word hword cs
  by_cases hdigit : c.isDigit = true
  · exact explains_number hdigit cs
  by_cases hquote : c = '"' ∨ c = '\''
  · exact explains_string hquote cs
  by_cases hslash : c = '/'
  · subst hslash
    exact explains_slash h
  cases hsymbol : Token.symbol? c with
  | some s =>
      have hscan : scan c cs =
          if c = '-' ∧ cs.head? = some '>' then (.symbol .arrow, 1) else (.symbol s, 0) := by
        simp [scan, hblank, hword, hdigit, hquote, hslash, hsymbol]
      rw [hscan]
      split
      · rename_i harrow
        obtain ⟨rfl, hhead⟩ := harrow
        obtain ⟨tail, rfl⟩ := List.head?_eq_some_iff.1 hhead
        exact ⟨.spelled (.symbol .arrow), explains_of_rank rfl rfl rfl⟩
      · refine ⟨.spelled (.symbol s), explains_of_rank rfl ?_ rfl⟩
        exact mem_spelled.2 (text_of_symbol? hsymbol).symm
  | none =>
      have hminus : c ≠ '-' := by
        rintro rfl
        cases hsymbol
      have hscan : ∀ ds, scan c ds =
          ((Token.ofGlyph? c).getD (.illegal (String.ofList [c])), 0) := by
        intro ds
        simp [scan, hblank, hword, hdigit, hquote, hslash, hsymbol, hminus]
      rw [hscan cs]
      refine explains_glyph (by simpa using hword) ?_ (hscan []) cs
      rintro rfl
      exact hblank rfl

/-! The longest text -/

theorem spelled_ne_nil (s : Spelling) : s.text.toList ≠ [] := by
  rcases spelled_cases s with ⟨htext, hreserved⟩ | ⟨symbol, rfl⟩ | ⟨name, rfl⟩
  · obtain ⟨c, cs, heq, -⟩ := mem_word.1 (mem_word_of_reserved hreserved)
    rw [htext, heq]
    exact List.cons_ne_nil c cs
  · cases symbol <;> exact List.cons_ne_nil _ _
  · rw [Spelling.text, String.toList_ofList]
    exact List.cons_ne_nil _ _

/-- No rule accepts the empty text. -/
theorem ne_nil {r : Rule} {w : List Char} (h : w ∈ r.language) : w ≠ [] := by
  have hquoted {quote : Char} (h : w ∈ quoted quote) : w ≠ [] := by
    obtain ⟨body, -, rfl | rfl⟩ := mem_quoted.1 h <;> exact List.cons_ne_nil _ _
  cases r with
  | blank => exact (mem_blank.1 h).1
  | lineComment =>
      obtain ⟨cs, rfl, -⟩ := mem_lineComment.1 h
      exact List.cons_ne_nil _ _
  | blockComment =>
      obtain ⟨cs, rfl, -⟩ := mem_blockComment.1 h
      exact List.cons_ne_nil _ _
  | spelled s => exact mem_spelled.1 h ▸ spelled_ne_nil s
  | pointed =>
      obtain ⟨ds, fraction, e, -, -, -, rfl⟩ := mem_pointed.1 h
      exact List.append_ne_nil_of_right_ne_nil _ (List.cons_ne_nil _ _)
  | scaled =>
      obtain ⟨ds, e, -, hne, -, rfl⟩ := mem_scaled.1 h
      exact List.append_ne_nil_of_right_ne_nil _ hne
  | whole => exact (mem_digits.1 h).1
  | doubleQuoted => exact hquoted h
  | singleQuoted => exact hquoted h
  | word =>
      obtain ⟨c, cs, rfl, -⟩ := mem_word.1 h
      exact List.cons_ne_nil c cs
  | stray =>
      obtain ⟨c, -, rfl⟩ := mem_stray.1 h
      exact List.cons_ne_nil c []

theorem takes_of_explains {c : Char} {cs : List Char} {r : Rule}
    (h : Explains c cs (scan c cs) r) :
    r.Takes (c :: cs.take (scan c cs).2) (cs.drop (scan c cs).2) where
  accepts := h.1
  longest := by
    intro r' w hw hfront
    rw [List.cons_append, List.take_append_drop] at hfront
    obtain ⟨d, v, rfl⟩ := List.exists_cons_of_ne_nil (ne_nil hw)
    obtain ⟨rest, heq⟩ := hfront
    rw [List.cons_append] at heq
    obtain ⟨rfl, rfl⟩ := List.cons.inj heq
    have hlength := length_le_scan hw rest
    simp only [List.length_cons, List.length_take, List.length_append]
    omega
  preferred := h.2.2

/-- The rules that take the same text agree on its token. -/
theorem Takes.token_eq {r r' : Rule} {w rest : List Char} (h : r.Takes w rest)
    (h' : r'.Takes w rest) : r.token w = r'.token w := by
  have hrank : r.rank = r'.rank := Nat.le_antisymm (h'.preferred r h.accepts) (h.preferred r' h'.accepts)
  by_cases htop : r.rank = 2
  · obtain ⟨c, cs, rfl⟩ := List.exists_cons_of_ne_nil (ne_nil h.accepts)
    have hscan := scan_of_mem htop h.accepts
    rw [scan_of_mem (hrank ▸ htop) h'.accepts] at hscan
    exact (Prod.mk.inj hscan).1.symm
  · cases r <;> cases r' <;> first | rfl | exact absurd rfl htop | cases hrank

end Rule

namespace Token

/-- A token is what the longest match makes of the front of a text. -/
structure Munched (t : Token) (front rest : List Char) : Prop where
  /-- Some rule takes the front, and all that do so agree on the token. -/
  longest : ¬Unclosed (front ++ rest) →
    (∃ r : Rule, r.Takes front rest) ∧ ∀ r : Rule, r.Takes front rest → t = r.token front
  /-- An open block comment is illegal up to the end. -/
  unclosed : Unclosed (front ++ rest) → t = illegal (String.ofList front) ∧ rest = []
  /-- A word is taken as a whole, and is an identifier only if no token is spelled like it. -/
  word : ∀ w ∈ Rule.word.language, w <+: front ++ rest →
    (∀ w' ∈ Rule.word.language, w' <+: front ++ rest → w'.length ≤ w.length) →
    front = w ∧ ((∃ s : Spelling, s.text.toList = w ∧ t = s.token) ∨
      (∀ s : Spelling, s.text.toList ≠ w) ∧ t = ident (String.ofList w))
  /-- A token with a spelling is written in all of the front. -/
  spelled : ∀ s : Spelling, t = s.token →
    ∃ s' : Spelling, s'.token = s.token ∧ front = s'.text.toList
  /-- Any other illegal token is one character long, and only there if no rule accepts more. -/
  illegal : ¬Unclosed (front ++ rest) → ∀ text, t = illegal text ↔
    (∃ c, front = [c] ∧ text = String.ofList [c]) ∧
      ∀ (r : Rule) (w : List Char), r ≠ .stray → w ∈ r.language → ¬w <+: front ++ rest
  /-- A string is what stands between its quotes, or after the first one if there is no second. -/
  string : ∀ text, t = string text → ∃ quote body, (quote = '"' ∨ quote = '\'') ∧
    quote ∉ body ∧ text = String.ofList body ∧
    (front = quote :: (body ++ [quote]) ∨ front = quote :: body ∧ rest = [])

end Token

namespace Rule

open Token (scan scan_word run)

variable {r : Rule} {front rest : List Char}

theorem Takes.spelled (h : r.Takes front rest) {s : Spelling} (ht : r.token front = s.token) :
    ∃ s' : Spelling, s'.token = s.token ∧ front = s'.text.toList := by
  cases r with
  | spelled s' => exact ⟨s', ht, mem_spelled.1 h.accepts⟩
  | _ => cases s <;> cases ht

theorem Takes.illegal_iff (h : r.Takes front rest) (text : String) :
    r.token front = .illegal text ↔ (∃ c, front = [c] ∧ text = String.ofList [c]) ∧
      ∀ (r' : Rule) (w : List Char), r' ≠ .stray → w ∈ r'.language → ¬w <+: front ++ rest := by
  constructor
  · intro ht
    obtain rfl : r = .stray := by
      cases r with
      | stray => rfl
      | spelled s => cases s <;> cases ht
      | _ => cases ht
    obtain ⟨c, hc, rfl⟩ := mem_stray.1 h.accepts
    cases ht
    refine ⟨⟨c, rfl, rfl⟩, fun r' w hr' hw hfront => ?_⟩
    have hlength := h.longest r' w hw hfront
    obtain ⟨d, w, rfl⟩ := List.exists_cons_of_ne_nil (ne_nil hw)
    obtain rfl : w = [] := by simpa using hlength
    obtain ⟨tail, heq⟩ := hfront
    cases heq
    have hrank := h.preferred r' hw
    cases r' with
    | stray => exact hr' rfl
    | _ => cases hrank
  · rintro ⟨⟨c, rfl, rfl⟩, hnone⟩
    have hstray : r = .stray := by
      by_contra hne
      exact hnone r [c] hne h.accepts (List.prefix_append _ _)
    rw [hstray]
    rfl

theorem Takes.string (h : r.Takes front rest) {text : String} (ht : r.token front = .string text) :
    ∃ quote body, (quote = '"' ∨ quote = '\'') ∧ quote ∉ body ∧ text = String.ofList body ∧
      (front = quote :: (body ++ [quote]) ∨ front = quote :: body ∧ rest = []) := by
  obtain ⟨quote, hquote, hlanguage, htext⟩ : ∃ quote, (quote = '"' ∨ quote = '\'') ∧
      r.language = quoted quote ∧ text = String.ofList (unquoted front) := by
    cases r with
    | doubleQuoted => exact ⟨'"', .inl rfl, rfl, by cases ht; rfl⟩
    | singleQuoted => exact ⟨'\'', .inr rfl, rfl, by cases ht; rfl⟩
    | spelled s => cases s <;> cases ht
    | _ => cases ht
  obtain ⟨body, hbody, rfl | rfl⟩ := mem_quoted.1 (hlanguage ▸ h.accepts)
  · rw [unquoted_open hbody] at htext
    refine ⟨quote, body, hquote, hbody, htext, .inr ⟨rfl, ?_⟩⟩
    by_contra hne
    obtain ⟨d, rest, rfl⟩ := List.exists_cons_of_ne_nil hne
    have hlonger : quote :: (body ++ [d]) ∈ r.language := by
      rw [hlanguage]
      by_cases hd : d = quote
      · exact mem_quoted.2 ⟨body, hbody, .inr (by rw [hd])⟩
      · exact mem_quoted.2 ⟨body ++ [d], by simp [hbody, Ne.symm hd], .inl rfl⟩
    exact absurd (h.longest r _ hlonger ⟨rest, by simp⟩) (by simp)
  · rw [unquoted_closed] at htext
    exact ⟨quote, body, hquote, hbody, htext, .inl rfl⟩

/-- Of a word the scanner takes all, and it looks for its spelling. -/
theorem scan_longest_word {c : Char} {cs w : List Char} (hw : w ∈ word.language)
    (hfront : w <+: c :: cs)
    (hmax : ∀ w' ∈ word.language, w' <+: c :: cs → w'.length ≤ w.length) :
    c :: cs.take (scan c cs).2 = w ∧
      ((∃ s : Spelling, s.text.toList = w ∧ (scan c cs).1 = s.token) ∨
        (∀ s : Spelling, s.text.toList ≠ w) ∧ (scan c cs).1 = .ident (String.ofList w)) := by
  obtain ⟨d, v, rfl, hd, hv⟩ := mem_word.1 hw
  obtain ⟨tail, heq⟩ := hfront
  rw [List.cons_append] at heq
  obtain ⟨rfl, rfl⟩ := List.cons.inj heq
  have hlength : run Token.isWordPart (v ++ tail) = v.length := by
    refine Nat.le_antisymm ?_ (Token.length_le_run hv tail)
    have hrun := hmax (d :: (v ++ tail).take (run Token.isWordPart (v ++ tail)))
      (mem_word.2 ⟨d, _, rfl, hd, fun c hc => Token.of_mem_take_run hc⟩)
      ((List.prefix_cons_inj d).2 (List.take_prefix _ _))
    have hle := Token.run_le Token.isWordPart (v ++ tail)
    simp only [List.length_cons, List.length_take] at hrun
    omega
  rw [scan_word hd, hlength, List.take_left]
  refine ⟨rfl, ?_⟩
  rcases ofWord_cases (String.ofList (d :: v)) with ⟨s, htext, htoken⟩ | hident
  · refine .inl ⟨s, ?_, htoken⟩
    rw [htext, String.toList_ofList]
  · refine .inr ⟨fun s hs => ?_, hident⟩
    exact rank_ne_of_ident hd hv hident (r := .spelled s) (mem_spelled.2 hs.symm) rfl

/-- The scanner cuts off the longest match. -/
theorem munched_scan (c : Char) (cs : List Char) :
    (scan c cs).1.Munched (c :: cs.take (scan c cs).2) (cs.drop (scan c cs).2) := by
  have htext : c :: cs.take (scan c cs).2 ++ cs.drop (scan c cs).2 = c :: cs := by
    rw [List.cons_append, List.take_append_drop]
  have hword := fun w (hw : w ∈ word.language) (hfront : w <+: c :: cs) =>
    scan_longest_word hw hfront
  by_cases hopen : Token.Unclosed (c :: cs)
  · obtain ⟨tail, heq, hend⟩ := id hopen
    cases heq
    have hscan : scan '/' ('*' :: tail) =
        (.illegal (String.ofList ('/' :: '*' :: tail)), ('*' :: tail).length) := by
      change Token.scanSlash ('*' :: tail) = _
      simp only [Token.scanSlash, Token.commentEnd?_eq_none_iff.2 hend, List.length_cons,
        Nat.add_comm]
    rw [hscan, List.take_length] at hword
    rw [hscan, List.take_length, List.drop_length] at htext ⊢
    constructor
    · rw [htext]
      exact fun hclosed => absurd hopen hclosed
    · exact fun _ => ⟨rfl, rfl⟩
    · rw [htext]
      exact hword
    · intro s hs
      cases s <;> cases hs
    · rw [htext]
      exact fun hclosed => absurd hopen hclosed
    · intro text ht
      cases ht
  · obtain ⟨r, hexplains⟩ := exists_explains hopen
    have htakes := takes_of_explains hexplains
    have htoken := hexplains.2.1
    constructor
    · exact fun _ => ⟨⟨r, htakes⟩, fun r' hr' => htoken.trans (htakes.token_eq hr')⟩
    · rw [htext]
      exact fun hopen' => absurd hopen' hopen
    · rw [htext]
      exact hword
    · exact fun s hs => htakes.spelled (htoken.symm.trans hs)
    · intro _ text
      rw [htoken]
      exact htakes.illegal_iff text
    · exact fun text ht => htakes.string (htoken.symm.trans ht)

end Rule

/-- A lexeme is what the scanner cuts off the source from there on. -/
theorem scan_lexFrom {start line : Nat} {cs : List Char} {before after : List Lexeme} {l : Lexeme}
    (h : lexFrom start line cs = before ++ l :: after) :
    ∃ c rest, l.token = (Token.scan c rest).1 ∧ l.chars = c :: rest.take (Token.scan c rest).2 ∧
      after.flatMap Lexeme.chars = rest.drop (Token.scan c rest).2 := by
  obtain ⟨c, rest, hrest⟩ := lexFrom_eq_append h
  rw [lexFrom_cons] at hrest
  obtain ⟨rfl, rfl⟩ := List.cons.inj hrest
  exact ⟨c, rest, rfl, rfl, chars_lexFrom _ _ _⟩

/-- Every lexeme of a source is the longest text at its place that some rule accepts, and its
token is the one on which the rules of the highest rank agree; only a block comment that is
never closed is one illegal token up to the end of the source. So a word is taken as a whole
and is an identifier unless some token is spelled like it, any other illegal token is a single
character that no other rule takes, and a string holds what stands between its quotes. -/
theorem lexeme_longest_match (source : String) (before : List Lexeme) (l : Lexeme)
    (after : List Lexeme) (h : lexemes source = before ++ l :: after) :
    source.toList =
        before.flatMap Lexeme.chars ++ (l.chars ++ after.flatMap Lexeme.chars) ∧
      l.token.Munched l.chars (after.flatMap Lexeme.chars) := by
  constructor
  · have hchars : (lexemes source).flatMap Lexeme.chars = source.toList := chars_lexFrom 0 1 _
    rw [← hchars, h, List.flatMap_append, List.flatMap_cons]
  · obtain ⟨c, rest, htoken, hchars, hafter⟩ := scan_lexFrom h
    rw [htoken, hchars, hafter]
    exact Rule.munched_scan c rest

/-- A number whose exponent lacks its digits ends before the mark. -/
theorem lexeme_longest_match_unscaled :
    lexemes "1e+" = [] ++ ⟨.int "1", ['1'], 0, 1⟩ ::
        [⟨.ident "e", ['e'], 1, 1⟩, ⟨.symbol .plus, ['+'], 2, 1⟩] ∧
      "1e+".toList = [] ++ (['1'] ++ ['e', '+']) ∧ (Token.int "1").Munched ['1'] ['e', '+'] := by
  have h : lexemes "1e+" = [] ++ ⟨.int "1", ['1'], 0, 1⟩ ::
      [⟨.ident "e", ['e'], 1, 1⟩, ⟨.symbol .plus, ['+'], 2, 1⟩] := by
    decide +kernel
  exact ⟨h, lexeme_longest_match "1e+" [] _ _ h⟩

end OpenQasm
