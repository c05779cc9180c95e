import Mathlib.Data.List.TakeWhile
import Mathlib.Tactic.Common
import OpenQasm.Lexeme

/-!
# Tokens that read back

A text is written token after token, so a token is read back only if what
follows does not go on with it. `Opens` says that a text starts with a blank or a
symbol that no token runs into. A token is self-reading if its own text, with
such a text after it, is cut off as that token again.

Words and numbers that the scanner itself has cut off are self-reading, and so is
every reserved word and every symbol.
-/
namespace OpenQasm

/-- Blanks, and the symbols that never go on with the token before them. -/
def Token.delimiters : List Char :=
  [' ', '\t', '\r', '\n', '\x0c', '+', '-', '%', '=', '@', '(', ')', '[', ']', '\x7b', '\x7d', ';',
    ',']

/-- A text that does not go on with the token before it. -/
def Opens (cs : List Char) : Prop := ∀ c ∈ cs.head?, c ∈ Token.delimiters

theorem opens_cons {c : Char} (h : c ∈ Token.delimiters) (cs : List Char) : Opens (c :: cs) := by
  intro d hd
  cases hd
  exact h

/-- A text that does not turn a minus sign before it into an arrow. -/
def Tame (cs : List Char) : Prop := cs.head? ≠ some '>'

theorem Opens.tame {cs : List Char} (h : Opens cs) : Tame cs := by
  intro hc
  exact absurd (h '>' hc) (by decide)

namespace Token

/-! Runs of characters -/

theorem run_append_of_head {p : Char → Bool} {cs rest : List Char} (hcs : ∀ c ∈ cs, p c = true)
    (hrest : ∀ c ∈ rest.head?, p c = false) : run p (cs ++ rest) = cs.length := by
  have hend : rest.takeWhile p = [] := by
    cases rest with
    | nil => rfl
    | cons c rest => simp [hrest c rfl]
  rw [run, List.takeWhile_append_of_pos hcs, hend, List.append_nil]

theorem of_any_eq_false {p : Char → Bool} {cs : List Char} (h : cs.any p = false) {c : Char}
    (hc : c ∈ cs) : p c = false := by
  simpa using List.any_eq_false.mp h c hc

/-- A run ends where a delimiter starts, if no delimiter belongs to it. -/
theorem run_append {p : Char → Bool} (hp : delimiters.any p = false)
    {cs rest : List Char} (hcs : ∀ c ∈ cs, p c = true) (hrest : Opens rest) :
    run p (cs ++ rest) = cs.length :=
  run_append_of_head hcs fun c hc => of_any_eq_false hp (hrest c hc)

theorem take_run (p : Char → Bool) (cs : List Char) : cs.take (run p cs) = cs.takeWhile p :=
  (List.prefix_iff_eq_take.mp (List.takeWhile_prefix p)).symm

theorem of_mem_take_run {p : Char → Bool} {cs : List Char} {c : Char}
    (h : c ∈ cs.take (run p cs)) : p c = true := by
  rw [take_run] at h
  exact List.mem_takeWhile_imp h

/-- A text starts with the run it is cut at. -/
theorem exists_run (p : Char → Bool) (cs : List Char) :
    ∃ front back, cs = front ++ back ∧ run p cs = front.length ∧ ∀ c ∈ front, p c = true :=
  ⟨cs.takeWhile p, cs.dropWhile p, (List.takeWhile_append_dropWhile).symm, rfl,
    fun _ hc => List.mem_takeWhile_imp hc⟩

/-! Numbers -/

/-- The shape of an exponent, which may be missing. -/
def IsExponent (cs : List Char) : Prop :=
  cs = [] ∨ ∃ mark sign ds, (mark = 'e' ∨ mark = 'E') ∧ sign ∈ [[], ['+'], ['-']] ∧ ds ≠ [] ∧
    (∀ d ∈ ds, d.isDigit = true) ∧ cs = mark :: (sign ++ ds)

/-- After its mark, an exponent is an optional sign and digits, and counts only with a digit. -/
theorem exponentLength_eq {mark : Char} (hmark : mark = 'e' ∨ mark = 'E') (cs : List Char) :
    ∃ sign tail, sign ∈ [[], ['+'], ['-']] ∧ cs = sign ++ tail ∧
      exponentLength (mark :: cs) =
        if run Char.isDigit tail = 0 then 0 else 1 + sign.length + run Char.isDigit tail := by
  cases cs with
  | nil => exact ⟨[], [], by simp, rfl, by simp [exponentLength, hmark]⟩
  | cons c tail =>
      by_cases hplus : c = '+'
      · subst hplus
        exact ⟨['+'], tail, by simp, rfl, by simp [exponentLength, hmark]⟩
      by_cases hminus : c = '-'
      · subst hminus
        exact ⟨['-'], tail, by simp, rfl, by simp [exponentLength, hmark]⟩
      · exact ⟨[], c :: tail, by simp, rfl, by simp [exponentLength, hmark, hplus, hminus]⟩

theorem exponentLength_of_ne {mark : Char} (h : ¬(mark = 'e' ∨ mark = 'E')) (cs : List Char) :
    exponentLength (mark :: cs) = 0 := by
  simp [exponentLength, h]

theorem isExponent_take (cs : List Char) : IsExponent (cs.take (exponentLength cs)) := by
  cases cs with
  | nil => exact .inl rfl
  | cons mark cs =>
      by_cases hmark : mark = 'e' ∨ mark = 'E'
      · obtain ⟨sign, tail, hsign, rfl, hlen⟩ := exponentLength_eq hmark cs
        rw [hlen]
        split
        · exact .inl rfl
        · rename_i hrun
          refine .inr ⟨mark, sign, tail.take (run Char.isDigit tail), hmark, hsign, ?_, ?_, ?_⟩
          · intro h
            have := congrArg List.length h
            rw [take_run] at this
            exact hrun this
          · exact fun d hd => of_mem_take_run hd
          · rw [Nat.add_assoc, Nat.add_comm 1, List.take_succ_cons, List.take_length_add_append]
      · rw [exponentLength_of_ne hmark]
        exact .inl rfl

theorem exponentLength_le (cs : List Char) : exponentLength cs ≤ cs.length := by
  cases cs with
  | nil => exact Nat.le_refl 0
  | cons mark cs =>
      by_cases hmark : mark = 'e' ∨ mark = 'E'
      · obtain ⟨sign, tail, -, rfl, hlen⟩ := exponentLength_eq hmark cs
        have hrun : run Char.isDigit tail ≤ tail.length := (List.takeWhile_prefix _).length_le
        rw [hlen]
        split
        · exact Nat.zero_le _
        · simp only [List.length_cons, List.length_append]
          omega
      · rw [exponentLength_of_ne hmark]
        exact Nat.zero_le _

theorem exponentLength_opens {rest : List Char} (h : Opens rest) : exponentLength rest = 0 := by
  cases rest with
  | nil => rfl
  | cons c rest =>
      have hany : delimiters.any (fun c => c = 'e' ∨ c = 'E') = false := by decide
      exact exponentLength_of_ne (of_decide_eq_false (of_any_eq_false hany (h c rfl))) rest

/-- A mark, a sign or none, and a digit are an exponent, with the digits that follow. -/
theorem exponentLength_signed {mark : Char} (hmark : mark = 'e' ∨ mark = 'E') {sign : List Char}
    (hsign : sign ∈ [[], ['+'], ['-']]) {d : Char} (hd : d.isDigit = true) (cs : List Char) :
    exponentLength (mark :: (sign ++ d :: cs)) = 1 + sign.length + run Char.isDigit (d :: cs) := by
  have hne : d ≠ '+' ∧ d ≠ '-' := by
    constructor <;> (rintro rfl; revert hd; decide)
  have hrun : run Char.isDigit (d :: cs) ≠ 0 := by simp [run, hd]
  simp only [List.mem_cons, List.not_mem_nil, or_false] at hsign
  rcases hsign with rfl | rfl | rfl
  · simp [exponentLength, hmark, hne, hrun]
  · simp [exponentLength, hmark, hrun]
  · simp [exponentLength, hmark, hrun]

theorem exponentLength_append {cs rest : List Char} (hcs : IsExponent cs) (hrest : Opens rest) :
    exponentLength (cs ++ rest) = cs.length := by
  rcases hcs with rfl | ⟨mark, sign, ds, hmark, hsign, hne, hds, rfl⟩
  · exact exponentLength_opens hrest
  have hrun : run Char.isDigit (ds ++ rest) = ds.length := run_append (by decide) hds hrest
  obtain ⟨d, ds, rfl⟩ := List.exists_cons_of_ne_nil hne
  rw [List.cons_append, List.append_assoc, List.cons_append,
    exponentLength_signed hmark hsign (hds d List.mem_cons_self), ← List.cons_append, hrun]
  simp
  omega

/-- An exponent starts with its mark; without one, what opens after it does not go on a number. -/
theorem head_exponent_append {p : Char → Bool} (hp : delimiters.any p = false)
    (hmark : p 'e' = false ∧ p 'E' = false) {cs rest : List Char} (hcs : IsExponent cs)
    (hrest : Opens rest) : ∀ c ∈ (cs ++ rest).head?, p c = false := by
  rcases hcs with rfl | ⟨mark, sign, ds, hm, -, -, -, rfl⟩
  · exact fun c hc => of_any_eq_false hp (hrest c hc)
  · rintro c ⟨⟩
    rcases hm with rfl | rfl
    · exact hmark.1
    · exact hmark.2

/-- The shape of a number after its first digit, and whether it is a real. -/
def IsNumberTail (real : Bool) (cs : List Char) : Prop :=
  ∃ whole exponent, (∀ d ∈ whole, d.isDigit = true) ∧ IsExponent exponent ∧
    ((real = true ∧ ∃ fraction, (∀ c ∈ fraction, (c.isDigit || c = '.') = true) ∧
      cs = whole ++ '.' :: (fraction ++ exponent)) ∨
    (real = decide (exponent ≠ []) ∧ cs = whole ++ exponent))

theorem isNumberTail_take {cs : List Char} {real : Bool} {n : Nat}
    (h : numberTail cs = (real, n)) : IsNumberTail real (cs.take n) := by
  obtain ⟨whole, tail, rfl, hrun, hwhole⟩ := exists_run Char.isDigit cs
  simp only [numberTail, hrun, List.drop_left] at h
  split at h
  · rename_i tail
    obtain ⟨fraction, tail, rfl, hfraction, hchars⟩ := exists_run (fun c => c.isDigit || c = '.') tail
    simp only [hfraction, List.drop_left, Prod.mk.injEq] at h
    obtain ⟨rfl, rfl⟩ := h
    refine ⟨whole, tail.take (exponentLength tail), hwhole, isExponent_take tail, .inl ⟨rfl, ?_⟩⟩
    refine ⟨fraction, hchars, ?_⟩
    rw [show whole.length + 1 + fraction.length + exponentLength tail =
      whole.length + (fraction.length + exponentLength tail + 1) by omega]
    rw [List.take_length_add_append, List.take_succ_cons, List.take_length_add_append]
  · simp only [Prod.mk.injEq] at h
    obtain ⟨rfl, rfl⟩ := h
    refine ⟨whole, tail.take (exponentLength tail), hwhole, isExponent_take tail, .inr ⟨?_, ?_⟩⟩
    · have hlen := exponentLength_le tail
      cases hn : exponentLength tail with
      | zero => simp
      | succ k =>
          rw [hn] at hlen
          cases tail with
          | nil => simp at hlen
          | cons c tail => simp
    · rw [List.take_length_add_append]

theorem numberTail_append {real : Bool} {cs rest : List Char} (hcs : IsNumberTail real cs)
    (hrest : Opens rest) : numberTail (cs ++ rest) = (real, cs.length) := by
  obtain ⟨whole, exponent, hwhole, hexponent, hshape⟩ := hcs
  have hlen := exponentLength_append hexponent hrest
  rcases hshape with ⟨rfl, fraction, hfraction, rfl⟩ | ⟨rfl, rfl⟩
  · have hrun : run Char.isDigit (whole ++ '.' :: (fraction ++ exponent ++ rest)) = whole.length := by
      refine run_append_of_head hwhole ?_
      rintro c ⟨⟩
      decide
    have hfrac : run (fun c => c.isDigit || c = '.') (fraction ++ (exponent ++ rest)) =
        fraction.length := by
      refine run_append_of_head hfraction ?_
      exact head_exponent_append (by decide) (by decide) hexponent hrest
    simp only [numberTail, List.append_assoc, List.cons_append] at hrun hfrac hlen ⊢
    simp only [hrun, List.drop_left, hfrac, hlen, List.length_append, List.length_cons,
      Prod.mk.injEq, true_and]
    omega
  · have hrun : run Char.isDigit (whole ++ (exponent ++ rest)) = whole.length := by
      refine run_append_of_head hwhole ?_
      exact head_exponent_append (by decide) (by decide) hexponent hrest
    have hpoint : ∀ c ∈ (exponent ++ rest).head?, (c = '.' : Bool) = false :=
      head_exponent_append (by decide) (by decide) hexponent hrest
    simp only [numberTail, List.append_assoc, hrun, List.drop_left]
    split
    · rename_i tail heq
      rw [heq] at hpoint
      simpa using hpoint '.' rfl
    · rw [hlen]
      cases exponent <;> simp

def IsNumber (real : Bool) (text : String) : Prop :=
  ∃ c cs, text.toList = c :: cs ∧ c.isDigit = true ∧ IsNumberTail real cs

def IsWord (text : String) : Prop :=
  ∃ c cs, text.toList = c :: cs ∧ isWordStart c = true ∧ ∀ d ∈ cs, isWordPart d = true

/-! Cutting off a token -/

theorem isBlank_of_isDigit {c : Char} (h : c.isDigit = true) : isBlank c = false := by
  have hany : [' ', '\t', '\r', '\n', '\x0c'].any Char.isDigit = false := by decide
  rw [Bool.eq_false_iff]
  intro hb
  have := of_any_eq_false hany (c := c) (by simpa [isBlank, or_assoc] using hb)
  rw [this] at h
  cases h

theorem isBlank_of_isWordStart {c : Char} (h : isWordStart c = true) : isBlank c = false := by
  have hany : [' ', '\t', '\r', '\n', '\x0c'].any isWordStart = false := by decide
  rw [Bool.eq_false_iff]
  intro hb
  have := of_any_eq_false hany (c := c) (by simpa [isBlank, or_assoc] using hb)
  rw [this] at h
  cases h

theorem isWordStart_of_isDigit {c : Char} (h : c.isDigit = true) : isWordStart c = false := by
  have hval : 48 ≤ c.toNat ∧ c.toNat ≤ 57 := Char.isDigit_iff_toNat.mp h
  have hne : c ≠ '_' := by
    rintro rfl
    exact absurd h (by decide)
  have hupper : c.isUpper = false := by
    refine decide_eq_false fun hupper => ?_
    have : 65 ≤ c.toNat := hupper.1
    omega
  have hlower : c.isLower = false := by
    rw [Bool.eq_false_iff]
    intro hlower
    have : 97 ≤ c.toNat := of_decide_eq_true (Bool.and_eq_true_iff.mp hlower).1
    omega
  have halpha : c.isAlpha = (c.isUpper || c.isLower) := rfl
  rw [isWordStart, halpha, hupper, hlower, decide_eq_false hne]
  rfl

theorem scan_word {c : Char} (hc : isWordStart c = true) (cs : List Char) :
    scan c cs = (ofWord (String.ofList (c :: cs.take (run isWordPart cs))), run isWordPart cs) := by
  simp [scan, isBlank_of_isWordStart hc, hc]

theorem scan_digit {c : Char} (hc : c.isDigit = true) {cs : List Char} {real : Bool} {n : Nat}
    (h : numberTail cs = (real, n)) :
    scan c cs = (if real then float (String.ofList (c :: cs.take n))
      else int (String.ofList (c :: cs.take n)), n) := by
  simp [scan, isBlank_of_isDigit hc, isWordStart_of_isDigit hc, hc, h]

/-- A token whose text is cut off as that token, whatever opens after it. -/
def SelfReading (t : Token) : Prop :=
  ∃ c cs, t.text.toList = c :: cs ∧ c ≠ '>' ∧
    ∀ rest, Opens rest → scan c (cs ++ rest) = (t, cs.length)

theorem selfReading_word {w : String} (hw : IsWord w) (ht : (ofWord w).text = w) :
    (ofWord w).SelfReading := by
  obtain ⟨c, cs, hlist, hc, hcs⟩ := hw
  refine ⟨c, cs, by rw [ht, hlist], ?_, ?_⟩
  · rintro rfl
    exact absurd hc (by decide)
  · intro rest hrest
    have hrun : run isWordPart (cs ++ rest) = cs.length := run_append (by decide) hcs hrest
    rw [scan_word hc, hrun, List.take_left, ← hlist, String.ofList_toList]

theorem selfReading_number {real : Bool} {s : String} (hs : IsNumber real s) :
    (if real then float s else int s).SelfReading := by
  obtain ⟨c, cs, hlist, hc, hcs⟩ := hs
  refine ⟨c, cs, ?_, ?_, ?_⟩
  · cases real <;> exact hlist
  · rintro rfl
    exact absurd hc (by decide)
  · intro rest hrest
    rw [scan_digit hc (numberTail_append hcs hrest), List.take_left, ← hlist, String.ofList_toList]

/-- Reserved words are words, and each is written as its token is. -/
theorem reserved_spelling :
    ∀ p ∈ reserved, ofWord p.1 = p.2 ∧ p.2.text = p.1 ∧
      p.1.toList.head?.any isWordStart = true ∧ p.1.toList.all isWordPart = true := by
  decide +kernel

theorem selfReading_reserved {t : Token} (h : (t.text, t) ∈ reserved) : t.SelfReading := by
  obtain ⟨hword, -, hhead, hall⟩ := reserved_spelling _ h
  cases hlist : t.text.toList with
  | nil =>
      rw [hlist] at hhead
      cases hhead
  | cons c cs =>
      rw [hlist] at hhead hall
      have hcs : ∀ d ∈ cs, isWordPart d = true := fun d hd =>
        List.all_eq_true.mp hall d (List.mem_cons_of_mem c hd)
      have hself := selfReading_word ⟨c, cs, hlist, hhead, hcs⟩ (by rw [hword])
      rwa [hword] at hself

theorem reserved_keyword (k : Keyword) : ((keyword k).text, keyword k) ∈ reserved := by
  cases k <;> decide

theorem reserved_typeName (k : TypeKind) : ((typeName k).text, typeName k) ∈ reserved := by
  cases k <;> decide

theorem reserved_modifier (k : ModifierKind) : ((modifier k).text, modifier k) ∈ reserved := by
  cases k <;> decide

theorem reserved_builtin (g : Builtin) : ((builtin g).text, builtin g) ∈ reserved := by
  cases g <;> decide

theorem reserved_constant (c : MathConstant) : ((constant c).text, constant c) ∈ reserved := by
  cases c <;> decide

/-! Symbols -/

/-- A token that is cut off from whatever follows it, short of making an arrow. -/
def Closed (t : Token) : Prop :=
  ∃ c cs, t.text.toList = c :: cs ∧ c ≠ '>' ∧ ∀ rest, Tame rest → scan c (cs ++ rest) = (t, cs.length)

theorem closed_symbol {s : Symbol} (h : s ≠ .slash) : (symbol s).Closed := by
  cases s with
  | slash => exact absurd rfl h
  | minus =>
      refine ⟨'-', [], rfl, by decide, ?_⟩
      intro rest hrest
      have hhead : (rest.head? = some '>') = False := eq_false hrest
      have hblank : isBlank '-' = false := by decide
      have hword : isWordStart '-' = false := by decide
      simp [scan, hhead, symbol?, hblank, hword]
  | _ => exact ⟨_, _, rfl, by decide, fun _ _ => rfl⟩

theorem Closed.selfReading {t : Token} (h : t.Closed) : t.SelfReading := by
  obtain ⟨c, cs, hlist, hc, hscan⟩ := h
  exact ⟨c, cs, hlist, hc, fun rest hrest => hscan rest hrest.tame⟩

theorem selfReading_symbol (s : Symbol) : (symbol s).SelfReading := by
  by_cases h : s = .slash
  · subst h
    refine ⟨'/', [], rfl, by decide, ?_⟩
    intro rest hrest
    match rest, hrest with
    | [], _ => rfl
    | c :: rest, hrest =>
        have hne : c ≠ '/' ∧ c ≠ '*' := by
          have hany : delimiters.any (fun c => c = '/' ∨ c = '*') = false := by decide
          exact not_or.mp (of_decide_eq_false (of_any_eq_false hany (hrest c rfl)))
        have hblank : isBlank '/' = false := by decide
        have hword : isWordStart '/' = false := by decide
        simp [scan, scanSlash, hblank, hword, hne]
  · exact (closed_symbol h).selfReading

/-! What the scanner cuts off -/

/-- What is known of a token because the scanner has cut it off: identifiers are
words that are not reserved, numbers are written as numbers, and a string lacks
one of the two quotes. -/
def Genuine : Token → Prop
  | ident name => IsWord name ∧ ofWord name = ident name
  | int text => IsNumber false text
  | float text => IsNumber true text
  | string text => '"' ∉ text.toList ∨ '\'' ∉ text.toList
  | _ => True

theorem genuine_reserved : ∀ p ∈ reserved, p.2.Genuine := by
  simp [reserved, Keyword.all, TypeKind.all, ModifierKind.all, Builtin.all, MathConstant.all, Genuine]

theorem genuine_ofWord {w : String} (hw : IsWord w) : (ofWord w).Genuine := by
  cases hlook : reserved.lookup w with
  | none =>
      have hident : ofWord w = ident w := by rw [ofWord, hlook, Option.getD_none]
      rw [hident]
      exact ⟨hw, hident⟩
  | some t =>
      obtain ⟨l₁, l₂, hsplit, -⟩ := List.lookup_eq_some_iff.mp hlook
      have hmem : (w, t) ∈ reserved := by simp [hsplit]
      rw [ofWord, hlook, Option.getD_some]
      exact genuine_reserved _ hmem

theorem genuine_scanString (quote : Char) (hquote : quote = '"' ∨ quote = '\'') (cs : List Char) :
    (scanString quote cs).1.Genuine := by
  have hbody : quote ∉ cs.takeWhile (· ≠ quote) := by
    intro hmem
    simpa using List.mem_takeWhile_imp hmem
  simp only [scanString, Genuine, String.toList_ofList]
  rcases hquote with rfl | rfl
  · exact .inl hbody
  · exact .inr hbody

theorem genuine_scanSlash (cs : List Char) : (scanSlash cs).1.Genuine := by
  unfold scanSlash
  split
  · trivial
  · split <;> trivial
  · trivial

theorem genuine_glyph (c : Char) (text : String) : ((ofGlyph? c).getD (illegal text)).Genuine := by
  unfold ofGlyph?
  cases MathConstant.all.find? (·.glyph = c) <;> trivial

/-- Whatever the text, the scanner cuts off a genuine token. -/
theorem genuine_scan (c : Char) (cs : List Char) : (scan c cs).1.Genuine := by
  unfold scan
  split
  · trivial
  split
  · rename_i hstart
    exact genuine_ofWord ⟨c, _, String.toList_ofList, hstart, fun d hd => of_mem_take_run hd⟩
  split
  · rename_i hdigit
    have htail : IsNumberTail (numberTail cs).1 (cs.take (numberTail cs).2) :=
      isNumberTail_take rfl
    have hnumber : IsNumber (numberTail cs).1 (String.ofList (c :: cs.take (numberTail cs).2)) :=
      ⟨c, _, String.toList_ofList, hdigit, htail⟩
    cases hreal : (numberTail cs).1 with
    | true => simpa [hreal, Genuine] using hnumber
    | false => simpa [hreal, Genuine] using hnumber
  split
  · rename_i hquote
    exact genuine_scanString c (by simpa using hquote) cs
  split
  · exact genuine_scanSlash cs
  split
  · trivial
  split
  · trivial
  · exact genuine_glyph c _

end Token

theorem lexFrom_cons (start line : Nat) (c : Char) (cs : List Char) :
    lexFrom start line (c :: cs) =
      ⟨(Token.scan c cs).1, c :: cs.take (Token.scan c cs).2, start, line⟩ ::
        lexFrom (start + utf8Length (c :: cs.take (Token.scan c cs).2))
          (line + newlines (c :: cs.take (Token.scan c cs).2)) (cs.drop (Token.scan c cs).2) := by
  rw [lexFrom]

/-- Every token of a text is genuine. -/
theorem genuine_lexFrom (start line : Nat) (cs : List Char) :
    ∀ l ∈ lexFrom start line cs, l.token.Genuine := by
  induction start, line, cs using lexFrom.induct with
  | case1 start line =>
      intro l hl
      rw [lexFrom] at hl
      cases hl
  | case2 start line c cs token n hscan chars ih =>
      intro l hl
      rw [lexFrom_cons, hscan] at hl
      rcases List.mem_cons.mp hl with rfl | hl
      · have := Token.genuine_scan c cs
        rwa [hscan] at this
      · exact ih l hl

theorem genuine_significant (source : String) :
    ∀ l ∈ significant source, l.token.Genuine := by
  intro l hl
  exact genuine_lexFrom 0 1 _ l ((List.mem_filter.mp hl).1)

end OpenQasm
