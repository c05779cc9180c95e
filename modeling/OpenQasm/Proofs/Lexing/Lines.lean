import Mathlib.Data.List.Basic
import OpenQasm.Proofs.Lexing.Pieces
import OpenQasm.Text.Blank

/-!
# Cutting a text line by line

No word, number or symbol goes on in the next line, so a text that ends with a line end is
cut into the same tokens whatever comes after it. Strings and block comments do go on. If
one of them is open at the end of the text, it is the last token there, and no statement
ends with it.
-/
namespace OpenQasm

namespace Token

/-- The tokens that a statement can end with. -/
def ends : Token → Bool
  | symbol .semicolon => true
  | symbol .rbrace => true
  | _ => false

def isIllegal : Token → Bool
  | illegal _ => true
  | _ => false

/-- A string without its closing quote, or a block comment without its end. -/
def isOpen (t : Token) : List Char → Bool
  | '"' :: cs => !cs.contains '"'
  | '\'' :: cs => !cs.contains '\''
  | '/' :: '*' :: _ => t.isIllegal
  | _ => false

/-! Tokens within a line -/

/-- A line ends in the first of two texts or right after it. -/
def LineEnds (cs rest : List Char) : Prop := '\n' ∈ cs ∨ ∃ after, rest = '\n' :: after

section Within

variable {cs rest : List Char}

theorem LineEnds.tail {c : Char} (h : LineEnds (c :: cs) rest) (hc : c ≠ '\n') :
    LineEnds cs rest := by
  rcases h with hmem | hrest
  · rcases List.mem_cons.1 hmem with rfl | hmem
    · exact absurd rfl hc
    · exact .inl hmem
  · exact .inr hrest

/-- A run stops where the line ends. -/
theorem run_append_of_lineEnds {p : Char → Bool} (h : LineEnds cs rest) (hp : p '\n' = false) :
    run p (cs ++ rest) = run p cs := by
  rw [run, List.takeWhile_append, run]
  split
  · rename_i hall
    have heq : cs.takeWhile p = cs := (List.takeWhile_prefix p).eq_of_length hall
    rcases h with hmem | ⟨after, rfl⟩
    · rw [← heq] at hmem
      rw [List.mem_takeWhile_imp hmem] at hp
      cases hp
    · rw [List.takeWhile_cons_of_neg (by simp [hp]), List.append_nil, heq]
  · rfl

theorem run_le (p : Char → Bool) (cs : List Char) : run p cs ≤ cs.length :=
  (List.takeWhile_prefix p).length_le

theorem LineEnds.drop_run {p : Char → Bool} (h : LineEnds cs rest) (hp : p '\n' = false) :
    LineEnds (cs.drop (run p cs)) rest := by
  rcases h with hmem | hrest
  · rw [← List.take_append_drop (run p cs) cs, List.mem_append] at hmem
    rcases hmem with htake | hdrop
    · rw [of_mem_take_run htake] at hp
      cases hp
    · exact .inl hdrop
  · exact .inr hrest

theorem exponentLength_append_of_lineEnds (h : LineEnds cs rest) :
    exponentLength (cs ++ rest) = exponentLength cs := by
  cases cs with
  | nil =>
      rcases h with hmem | ⟨after, rfl⟩
      · cases hmem
      · exact exponentLength_of_ne (by decide) after
  | cons c cs =>
      by_cases hmark : c = 'e' ∨ c = 'E'
      · have hcs : LineEnds cs rest := h.tail (by rintro rfl; exact absurd hmark (by decide))
        cases cs with
        | nil =>
            rcases hcs with hmem | ⟨after, rfl⟩
            · cases hmem
            · have hdigits : run Char.isDigit ('\n' :: after) = run Char.isDigit [] := rfl
              simp [exponentLength, hdigits]
        | cons sign cs =>
            by_cases hplus : sign = '+'
            · subst hplus
              have htail := run_append_of_lineEnds (hcs.tail (by decide)) (p := Char.isDigit) rfl
              simp [exponentLength, htail]
            by_cases hminus : sign = '-'
            · subst hminus
              have htail := run_append_of_lineEnds (hcs.tail (by decide)) (p := Char.isDigit) rfl
              simp [exponentLength, htail]
            · have htail := run_append_of_lineEnds hcs (p := Char.isDigit) rfl
              rw [List.cons_append] at htail
              simp [exponentLength, hplus, hminus, htail]
      · rw [List.cons_append, exponentLength_of_ne hmark, exponentLength_of_ne hmark]

theorem numberTail_append_of_lineEnds (h : LineEnds cs rest) :
    numberTail (cs ++ rest) = numberTail cs := by
  have hwhole := run_append_of_lineEnds h (p := Char.isDigit) rfl
  have hdrop : (cs ++ rest).drop (run Char.isDigit cs) = cs.drop (run Char.isDigit cs) ++ rest :=
    List.drop_append_of_le_length (run_le _ _)
  have hafter := h.drop_run (p := Char.isDigit) rfl
  unfold numberTail
  dsimp only
  rw [hwhole, hdrop]
  revert hafter
  generalize cs.drop (run Char.isDigit cs) = after
  intro hafter
  have hexponent := exponentLength_append_of_lineEnds hafter
  cases after with
  | nil =>
      rcases hafter with hmem | ⟨line, rfl⟩
      · cases hmem
      · simp only [List.nil_append] at hexponent ⊢
        simp [hexponent]
  | cons point after =>
      by_cases hpoint : point = '.'
      · subst hpoint
        have hfraction : LineEnds after rest := hafter.tail (by decide)
        have hrun := run_append_of_lineEnds hfraction (p := fun c => c.isDigit || c = '.') rfl
        have hdrop' : (after ++ rest).drop (run (fun c => c.isDigit || c = '.') after) =
            after.drop (run (fun c => c.isDigit || c = '.') after) ++ rest :=
          List.drop_append_of_le_length (run_le _ _)
        have hexponent' := exponentLength_append_of_lineEnds
          (hfraction.drop_run (p := fun c => c.isDigit || c = '.') rfl)
        simp only [List.cons_append, hrun, hdrop', hexponent']
      · simp only [List.cons_append] at hexponent ⊢
        simp [hpoint, hexponent]

theorem commentEnd?_append {n : Nat} (h : commentEnd? cs = some n) (rest : List Char) :
    commentEnd? (cs ++ rest) = some n ∧ n ≤ cs.length := by
  induction cs using commentEnd?.induct generalizing n with
  | case1 => cases h
  | case2 tail =>
      cases h
      exact ⟨rfl, by simp⟩
  | case3 c cs hopen ih =>
      rw [commentEnd?] at h
      · obtain ⟨m, hm, rfl⟩ := Option.map_eq_some_iff.1 h
        obtain ⟨heq, hle⟩ := ih hm
        refine ⟨?_, Nat.succ_le_succ hle⟩
        rw [List.cons_append, commentEnd?, heq, Option.map_some]
        rintro tail rfl heq'
        cases cs with
        | nil => cases hm
        | cons c' cs =>
            cases heq'
            exact hopen cs rfl rfl
      · exact hopen

theorem numberTail_le (cs : List Char) : (numberTail cs).2 ≤ cs.length := by
  obtain ⟨whole, after, rfl, hrun, -⟩ := exists_run Char.isDigit cs
  simp only [numberTail, hrun, List.drop_left, List.length_append]
  split
  · rename_i after
    obtain ⟨fraction, tail, rfl, hfraction, -⟩ := exists_run (fun c => c.isDigit || c = '.') after
    have hexponent := exponentLength_le tail
    simp only [hfraction, List.drop_left, List.length_cons, List.length_append]
    omega
  · have hexponent := exponentLength_le after
    omega

/-- A string or a comment that goes up to the end of a text. No statement ends with it. -/
structure Unfinished (c : Char) (cs : List Char) (r : Token × Nat) : Prop where
  length : r.2 = cs.length
  isOpen : r.1.isOpen (c :: cs) = true
  isTrivia : r.1.isTrivia = false
  ends : r.1.ends = false

/-- A string is closed in a text, or goes on up to its end. -/
theorem scanString_append {quote : Char} (hquote : quote = '"' ∨ quote = '\'')
    (cs rest : List Char) :
    (scanString quote (cs ++ rest) = scanString quote cs ∧ (scanString quote cs).2 ≤ cs.length) ∨
      Unfinished quote cs (scanString quote cs) := by
  by_cases hmem : quote ∈ cs
  · obtain ⟨body, tail, rfl, hfree⟩ : ∃ body tail, cs = body ++ quote :: tail ∧ quote ∉ body := by
      obtain ⟨body, tail, heq, hfree⟩ := List.eq_append_cons_of_mem hmem
      exact ⟨body, tail, heq, hfree⟩
    have hbody : ∀ after, (body ++ quote :: after).takeWhile (· ≠ quote) = body := by
      intro after
      rw [List.takeWhile_append_of_pos]
      · simp
      · intro c hc
        simpa using fun heq : c = quote => hfree (heq ▸ hc)
    left
    simp only [scanString, List.append_assoc, List.cons_append, hbody]
    simp
  · have hbody : cs.takeWhile (· ≠ quote) = cs := by
      rw [List.takeWhile_eq_self_iff]
      intro c hc
      simpa using fun heq : c = quote => hmem (heq ▸ hc)
    right
    constructor
    · simp only [scanString, hbody]
      simp
    · rcases hquote with rfl | rfl <;> simpa [isOpen] using hmem
    · rfl
    · rfl

theorem scanSlash_append (h : LineEnds cs rest) :
    (scanSlash (cs ++ rest) = scanSlash cs ∧ (scanSlash cs).2 ≤ cs.length) ∨
      Unfinished '/' cs (scanSlash cs) := by
  cases cs with
  | nil =>
      rcases h with hmem | ⟨after, rfl⟩
      · cases hmem
      · exact .inl ⟨rfl, Nat.le_refl _⟩
  | cons c cs =>
      by_cases hslash : c = '/'
      · subst hslash
        have hrun := run_append_of_lineEnds (h.tail (by decide)) (p := fun c => c ≠ '\n') (by simp)
        have hle := run_le (fun c => c ≠ '\n') cs
        left
        simp only [List.cons_append, scanSlash, hrun, List.length_cons]
        exact ⟨trivial, by omega⟩
      by_cases hstar : c = '*'
      · subst hstar
        cases hend : commentEnd? cs with
        | none =>
            right
            simp only [scanSlash, hend]
            constructor
            · simp [Nat.add_comm]
            · rfl
            · rfl
            · rfl
        | some n =>
            obtain ⟨happend, hle⟩ := commentEnd?_append hend rest
            left
            simp only [List.cons_append, scanSlash, hend, happend, List.length_cons]
            exact ⟨trivial, by omega⟩
      · left
        simp [scanSlash, hslash, hstar]

/-- A token stays as it is if a line ends after it, unless it is a string or a comment that
goes up to the end of the text. -/
theorem scan_append {c : Char} (hc : isBlank c = false) (h : LineEnds cs rest) :
    (scan c (cs ++ rest) = scan c cs ∧ (scan c cs).2 ≤ cs.length) ∨
      Unfinished c cs (scan c cs) := by
  by_cases hword : isWordStart c = true
  · have hrun := run_append_of_lineEnds h (p := isWordPart) rfl
    have htake : (cs ++ rest).take (run isWordPart cs) = cs.take (run isWordPart cs) :=
      List.take_append_of_le_length (run_le _ _)
    rw [scan_word hword, scan_word hword, hrun, htake]
    exact .inl ⟨rfl, run_le _ _⟩
  by_cases hdigit : c.isDigit = true
  · have htail := numberTail_append_of_lineEnds h
    have hle := numberTail_le cs
    rcases hnumber : numberTail cs with ⟨real, n⟩
    rw [hnumber] at htail hle
    have htake : (cs ++ rest).take n = cs.take n := List.take_append_of_le_length hle
    rw [scan_digit hdigit hnumber, scan_digit hdigit htail, htake]
    exact .inl ⟨rfl, hle⟩
  unfold scan
  simp only [hc, hword, hdigit, Bool.false_eq_true, if_false]
  split
  · rename_i hquote
    exact scanString_append (by simpa using hquote) cs rest
  split
  · rename_i hslash
    subst hslash
    exact scanSlash_append h
  have hhead : ((cs ++ rest).head? = some '>') = (cs.head? = some '>') := by
    cases cs with
    | nil =>
        rcases h with hmem | ⟨after, rfl⟩
        · cases hmem
        · simp
    | cons d cs => rfl
  simp only [hhead]
  left
  split
  · rename_i harrow
    have hlength : 1 ≤ cs.length := by
      cases cs with
      | nil => simp at harrow
      | cons d cs => simp
    exact ⟨trivial, hlength⟩
  split
  · exact ⟨trivial, Nat.zero_le _⟩
  · exact ⟨trivial, Nat.zero_le _⟩

end Within

end Token

/-- A source without illegal tokens gives rise to no complaint. -/
theorem lexErrors_eq_nil {source : String}
    (h : ∀ t ∈ tokensOf source.toList, t.isIllegal = false) : lexErrors source = [] := by
  rw [lexErrors, List.filterMap_eq_nil_iff]
  intro l hl
  cases ht : l.token with
  | illegal text =>
      have hmem : l.token ∈ tokensOf source.toList := by
        rw [← significant_tokens]
        exact List.mem_map_of_mem (List.mem_filter.2 ⟨hl, by rw [ht]; rfl⟩)
      have hlegal := h _ hmem
      rw [ht] at hlegal
      cases hlegal
  | _ => simp only [Lexeme.error?, ht]

/-- A text that is empty or ends with a line end. -/
def WholeLines (cs : List Char) : Prop := ∀ c ∈ cs.getLast?, c = '\n'

theorem WholeLines.drop {cs : List Char} (h : WholeLines cs) (n : Nat) :
    WholeLines (cs.drop n) := by
  intro c hc
  refine h c ?_
  rw [← List.take_append_drop n cs]
  exact List.mem_getLast?_append_of_mem_getLast? hc

theorem WholeLines.mem {c : Char} {cs : List Char} (h : WholeLines (c :: cs))
    (hc : Token.isBlank c = false) : '\n' ∈ cs := by
  cases cs with
  | nil =>
      obtain rfl : c = '\n' := h c rfl
      cases hc
  | cons d cs =>
      have hlast : (d :: cs).getLast (by simp) = '\n' :=
        h _ (List.getLast?_eq_some_getLast (by simp))
      rw [← hlast]
      exact List.getLast_mem _

/-- A text of whole lines that ends with a statement is cut on its own. -/
theorem tokensOf_append {cs : List Char} (hlines : WholeLines cs)
    (hends : ∀ t ∈ (tokensOf cs).getLast?, t.ends = true) (rest : List Char) :
    tokensOf (cs ++ rest) = tokensOf cs ++ tokensOf rest := by
  induction hn : cs.length using Nat.strong_induction_on generalizing cs with
  | _ n ih =>
    subst hn
    cases cs with
    | nil =>
        rw [tokensOf_nil]
        rfl
    | cons c cs =>
        by_cases hc : Token.isBlank c = true
        · rw [tokensOf_blank hc] at hends
          rw [List.cons_append, tokensOf_blank hc, tokensOf_blank hc]
          exact ih cs.length (Nat.lt_succ_self _) (hlines.drop 1) hends rfl
        rw [Bool.not_eq_true] at hc
        have hline : Token.LineEnds cs rest := .inl (hlines.mem hc)
        rcases Token.scan_append hc hline with ⟨hscan, hle⟩ | hopen
        · rw [tokensOf_cons] at hends
          rw [List.cons_append, tokensOf_cons, tokensOf_cons, hscan,
            List.drop_append_of_le_length hle, List.append_assoc]
          congr 1
          refine ih _ ?_ ((hlines.drop 1).drop _) ?_ rfl
          · simp only [List.length_drop, List.length_cons]
            omega
          · exact fun t ht => hends t (List.mem_getLast?_append_of_mem_getLast? ht)
        · rw [tokensOf_cons, hopen.length, hopen.isTrivia] at hends
          simp [tokensOf_nil, hopen.ends] at hends

/-! Lines without a token -/

namespace Text

def blankCodes : List Nat := blankRanges.flatMap fun (a, b) => List.range' a (b + 1 - a)

theorem mem_blankCodes {c : Char} (hc : isBlank c = true) : c.toNat ∈ blankCodes := by
  obtain ⟨⟨a, b⟩, hmem, hrange⟩ := List.any_eq_true.1 hc
  simp only [Bool.and_eq_true, decide_eq_true_eq] at hrange
  refine List.mem_flatMap.2 ⟨(a, b), hmem, ?_⟩
  rw [List.mem_range'_1]
  omega

/-- A blank character is a blank between tokens, or no token starts with it. -/
theorem isBlank_or_scan {c : Char} (hc : isBlank c = true) (cs : List Char) :
    Token.isBlank c = true ∨ Token.scan c cs = (.illegal (String.ofList [c]), 0) := by
  have hcodes : ∀ n ∈ blankCodes, Token.isBlank (Char.ofNat n) = false →
      Token.isWordStart (Char.ofNat n) = false ∧ (Char.ofNat n).isDigit = false ∧
        (Char.ofNat n ≠ '"' ∧ Char.ofNat n ≠ '\'') ∧ Char.ofNat n ≠ '/' ∧ Char.ofNat n ≠ '-' ∧
        Token.symbol? (Char.ofNat n) = none ∧ Token.ofGlyph? (Char.ofNat n) = none := by
    decide
  have hcode := hcodes c.toNat (mem_blankCodes hc)
  rw [Char.ofNat_toNat] at hcode
  cases hblank : Token.isBlank c with
  | true => exact .inl rfl
  | false =>
      obtain ⟨hword, hdigit, hquote, hslash, hminus, hsymbol, hglyph⟩ := hcode hblank
      right
      simp [Token.scan, hblank, hword, hdigit, hquote, hslash, hminus, hsymbol, hglyph]

/-- Blank characters before a text without illegal tokens add no tokens to it. -/
theorem tokensOf_blanks {cs : List Char} (hcs : ∀ c ∈ cs, isBlank c = true) {rest : List Char}
    (hlegal : ∀ t ∈ tokensOf (cs ++ rest), t.isIllegal = false) :
    tokensOf (cs ++ rest) = tokensOf rest := by
  induction cs with
  | nil => rfl
  | cons c cs ih =>
      obtain ⟨hc, hcs⟩ := List.forall_mem_cons.1 hcs
      rw [List.cons_append] at hlegal ⊢
      rcases isBlank_or_scan hc (cs ++ rest) with hblank | hscan
      · rw [tokensOf_blank hblank] at hlegal ⊢
        exact ih hcs hlegal
      · rw [tokensOf_cons, hscan] at hlegal
        exact absurd (hlegal _ List.mem_cons_self) (by simp [Token.isIllegal])

theorem isBlank_of_trim {s : String} (h : trim s = "") : ∀ c ∈ s.toList, isBlank c = true := by
  have hends : ((s.toList.dropWhile isBlank).reverse.dropWhile isBlank).reverse = [] := by
    have htoList := congrArg String.toList h
    rwa [trim, String.toList_ofList] at htoList
  rw [List.reverse_eq_nil_iff, List.dropWhile_eq_nil_iff] at hends
  rw [← List.dropWhile_eq_nil_iff]
  cases hfront : s.toList.dropWhile isBlank with
  | nil => rfl
  | cons c cs =>
      have hblank := hends c (by rw [hfront]; simp)
      have hhead := List.head_dropWhile_not isBlank (l := s.toList) (by rw [hfront]; simp)
      simp only [hfront, List.head_cons] at hhead
      rw [hblank] at hhead
      cases hhead

/-! Cutting into lines -/

/-- Lines that end with a line end, the last one apart. -/
def Cut : List (List Char) → Prop
  | [] => True
  | line :: lines => (lines ≠ [] → line.getLast? = some '\n') ∧ Cut lines

theorem flatten_cutLines (cs : List Char) : (cutLines cs).flatten = cs := by
  fun_induction cutLines cs with
  | case1 => rfl
  | case2 cs ih => simp [ih]
  | case3 c cs hc hnil ih => simpa [hnil] using ih
  | case4 c cs hc line lines hlines ih => simpa [hlines] using ih

theorem cut_cutLines (cs : List Char) : Cut (cutLines cs) := by
  fun_induction cutLines cs with
  | case1 => trivial
  | case2 cs ih => exact ⟨fun _ => rfl, ih⟩
  | case3 c cs hc hnil ih => exact ⟨fun h => absurd rfl h, trivial⟩
  | case4 c cs hc line lines hlines ih =>
      rw [hlines] at ih
      refine ⟨fun hne => ?_, ih.2⟩
      exact List.mem_getLast?_cons (ih.1 hne)

end Text

end OpenQasm
