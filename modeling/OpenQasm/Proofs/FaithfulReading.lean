import Mathlib.Tactic.ByContra
import Mathlib.Tactic.SplitIfs
import OpenQasm.Source

/-!
# Faithful reading

A source is decoded line by line, and yet as if it were decoded at once. A line end is a byte of
its own and never one of the bytes of another character, so no cut between two lines goes through
a character: bytes are valid UTF-8 exactly if each of their lines is. So a source without a
complaint is read to the last byte, and otherwise the complaint is about the first line that is
not valid, and all before it is read.
-/
namespace OpenQasm

def utf8Bytes (cs : List Char) : List UInt8 := cs.flatMap String.utf8EncodeChar

/-- Bytes that encode characters. Truncated and overlong sequences and surrogates encode none. -/
def IsUtf8 (bytes : List UInt8) : Prop := ∃ cs : List Char, bytes = utf8Bytes cs

def textBytes (text : String) : List UInt8 := text.toUTF8.data.toList

/-- Bytes as a reader takes them line by line: each line goes up to and including the next line
end, or to the end of the bytes if there is none. -/
inductive CutIntoLines : List UInt8 → List (List UInt8) → Prop
  | nil : CutIntoLines [] []
  | last {line : List UInt8} (hne : line ≠ []) (hline : lineEnd ∉ line) : CutIntoLines line [line]
  | cons {line rest : List UInt8} {lines : List (List UInt8)} (hline : lineEnd ∉ line)
      (hrest : CutIntoLines rest lines) :
      CutIntoLines (line ++ lineEnd :: rest) ((line ++ [lineEnd]) :: lines)

/-! Lines -/

theorem CutIntoLines.flatten_eq {bytes : List UInt8} {lines : List (List UInt8)}
    (h : CutIntoLines bytes lines) : lines.flatten = bytes := by
  induction h with
  | nil => rfl
  | last _ _ => simp
  | cons _ _ ih => simp [ih]

/-- A byte in front belongs to the first line, unless it is a line end. -/
theorem CutIntoLines.before {bytes : List UInt8} {lines : List (List UInt8)}
    (h : CutIntoLines bytes lines) {b : UInt8} (hb : b ≠ lineEnd) :
    CutIntoLines (b :: bytes) ((b :: lines.headD []) :: lines.tail) := by
  have hfront : ∀ line : List UInt8, lineEnd ∉ line → lineEnd ∉ b :: line := by
    intro line hline hmem
    rcases List.mem_cons.1 hmem with heq | hmem
    · exact hb heq.symm
    · exact hline hmem
  cases h with
  | nil => exact .last (List.cons_ne_nil b []) (hfront [] List.not_mem_nil)
  | last _ hline => exact .last (List.cons_ne_nil b _) (hfront _ hline)
  | cons hline hrest => exact .cons (hfront _ hline) hrest

theorem splitLines_lineEnd (bytes : List UInt8) :
    splitLines (lineEnd :: bytes) = [lineEnd] :: splitLines bytes := by
  rw [splitLines, if_pos rfl]

theorem splitLines_of_ne {b : UInt8} (hb : b ≠ lineEnd) (bytes : List UInt8) :
    splitLines (b :: bytes) = (b :: (splitLines bytes).headD []) :: (splitLines bytes).tail := by
  rw [splitLines, if_neg hb]
  cases splitLines bytes with
  | nil => rfl
  | cons line lines => rfl

theorem cutIntoLines_splitLines (bytes : List UInt8) : CutIntoLines bytes (splitLines bytes) := by
  induction bytes with
  | nil => exact .nil
  | cons b bytes ih =>
      by_cases hb : b = lineEnd
      · rw [hb, splitLines_lineEnd]
        exact .cons List.not_mem_nil ih
      · rw [splitLines_of_ne hb]
        exact ih.before hb

/-- Bytes without a line end go to the line that begins with them. -/
theorem splitLines_append {front : List UInt8} (hne : front ≠ []) (hfront : lineEnd ∉ front)
    (bytes : List UInt8) :
    splitLines (front ++ bytes) =
      (front ++ (splitLines bytes).headD []) :: (splitLines bytes).tail := by
  induction front with
  | nil => exact absurd rfl hne
  | cons b front ih =>
      have hb : b ≠ lineEnd := fun h => hfront (h ▸ List.mem_cons_self)
      rw [List.cons_append, splitLines_of_ne hb]
      by_cases hempty : front = []
      · rw [hempty]
        rfl
      · rw [ih hempty fun h => hfront (List.mem_cons_of_mem b h)]
        rfl

/-! Valid bytes -/

theorem isUtf8_nil : IsUtf8 [] := ⟨[], rfl⟩

theorem IsUtf8.append {xs ys : List UInt8} (hx : IsUtf8 xs) (hy : IsUtf8 ys) :
    IsUtf8 (xs ++ ys) := by
  obtain ⟨cs, rfl⟩ := hx
  obtain ⟨ds, rfl⟩ := hy
  exact ⟨cs ++ ds, by simp only [utf8Bytes, List.flatMap_append]⟩

theorem isUtf8_flatten {lines : List (List UInt8)} (h : ∀ line ∈ lines, IsUtf8 line) :
    IsUtf8 lines.flatten := by
  induction lines with
  | nil => exact isUtf8_nil
  | cons line lines ih =>
      obtain ⟨hline, hlines⟩ := List.forall_mem_cons.1 h
      exact hline.append (ih hlines)

theorem isUtf8_utf8EncodeChar (c : Char) : IsUtf8 (String.utf8EncodeChar c) :=
  ⟨[c], by rw [utf8Bytes, List.flatMap_singleton]⟩

/-- A byte of a character other than the line end is another byte: the only one of an ASCII
character is the character itself, and those of a longer sequence are from 128 upwards. -/
theorem lineEnd_notMem_utf8EncodeChar {c : Char} (hc : c ≠ '\n') :
    lineEnd ∉ String.utf8EncodeChar c := by
  intro hmem
  have hvalue : c.val.toNat ≠ 10 := by
    intro h
    exact hc (Char.ext (UInt32.toNat_inj.1 h))
  have hbyte : ∀ n : Nat, lineEnd = UInt8.ofNat n → n % 256 = 10 := by
    intro n h
    have := congrArg UInt8.toNat h
    rw [UInt8.toNat_ofNat'] at this
    exact this.symm
  unfold String.utf8EncodeChar at hmem
  dsimp only at hmem
  split_ifs at hmem with hone htwo hthree
  all_goals simp only [List.mem_cons, List.not_mem_nil, or_false] at hmem
  · have := hbyte _ hmem
    omega
  · rcases hmem with h | h <;> exact absurd (hbyte _ h) (by omega)
  · rcases hmem with h | h | h <;> exact absurd (hbyte _ h) (by omega)
  · rcases hmem with h | h | h | h <;> exact absurd (hbyte _ h) (by omega)

theorem isUtf8_of_mem_splitLines {bytes : List UInt8} (h : IsUtf8 bytes) :
    ∀ line ∈ splitLines bytes, IsUtf8 line := by
  obtain ⟨cs, rfl⟩ := h
  induction cs with
  | nil => simp [utf8Bytes, splitLines]
  | cons c cs ih =>
      rw [utf8Bytes, List.flatMap_cons, ← utf8Bytes]
      have hchar := isUtf8_utf8EncodeChar c
      by_cases hc : c = '\n'
      · have hbytes : String.utf8EncodeChar c = [lineEnd] := by
          rw [hc]
          decide
        rw [hbytes] at hchar ⊢
        rw [List.singleton_append, splitLines_lineEnd]
        exact List.forall_mem_cons.2 ⟨hchar, ih⟩
      · rw [splitLines_append String.utf8EncodeChar_ne_nil (lineEnd_notMem_utf8EncodeChar hc)]
        cases hlines : splitLines (utf8Bytes cs) with
        | nil => simpa using hchar
        | cons line lines =>
            rw [hlines] at ih
            obtain ⟨hline, hothers⟩ := List.forall_mem_cons.1 ih
            exact List.forall_mem_cons.2 ⟨hchar.append hline, hothers⟩

/-- Bytes are valid exactly if each of their lines is. -/
theorem isUtf8_iff_splitLines {bytes : List UInt8} :
    IsUtf8 bytes ↔ ∀ line ∈ splitLines bytes, IsUtf8 line := by
  constructor
  · exact isUtf8_of_mem_splitLines
  · intro h
    have hflatten := isUtf8_flatten h
    rwa [(cutIntoLines_splitLines bytes).flatten_eq] at hflatten

/-! Decoding -/

theorem isUtf8_iff {bytes : List UInt8} : IsUtf8 bytes ↔ ByteArray.IsValidUTF8 ⟨bytes.toArray⟩ := by
  have hbytes : (⟨bytes.toArray⟩ : ByteArray) = bytes.toByteArray :=
    ByteArray.ext List.data_toByteArray.symm
  rw [hbytes]
  constructor
  · rintro ⟨cs, rfl⟩
    exact .intro cs rfl
  · rintro ⟨cs, hcs⟩
    exact ⟨cs, List.toByteArray_inj.1 hcs⟩

theorem exists_decodeLine? {line : List UInt8} (h : IsUtf8 line) :
    ∃ text, decodeLine? line = some text ∧ textBytes text = line := by
  have hvalid := isUtf8_iff.1 h
  refine ⟨String.fromUTF8 _ hvalid, ?_, rfl⟩
  rw [decodeLine?, String.fromUTF8?, dif_pos hvalid]

theorem decodeLine?_eq_none {line : List UInt8} (h : ¬IsUtf8 line) : decodeLine? line = none := by
  rw [decodeLine?, String.fromUTF8?, dif_neg fun hvalid => h (isUtf8_iff.2 hvalid)]

theorem textBytes_append (s t : String) : textBytes (s ++ t) = textBytes s ++ textBytes t := by
  simp [textBytes]

/-- Valid lines are read and leave the rest to be read. -/
theorem decodeLines_append {before : List (List UInt8)} (h : ∀ line ∈ before, IsUtf8 line)
    (rest : List (List UInt8)) :
    textBytes (decodeLines (before ++ rest)).1 =
        before.flatten ++ textBytes (decodeLines rest).1 ∧
      (decodeLines (before ++ rest)).2 = (decodeLines rest).2 := by
  induction before with
  | nil => exact ⟨rfl, rfl⟩
  | cons line before ih =>
      obtain ⟨hline, hbefore⟩ := List.forall_mem_cons.1 h
      obtain ⟨text, htext, hbytes⟩ := exists_decodeLine? hline
      obtain ⟨hread, herrors⟩ := ih hbefore
      simp only [List.cons_append, decodeLines, htext]
      exact ⟨by rw [textBytes_append, hbytes, hread, List.flatten_cons, List.append_assoc], herrors⟩

theorem decodeLines_invalid {bad : List UInt8} (h : ¬IsUtf8 bad) (after : List (List UInt8)) :
    decodeLines (bad :: after) = ("", [.unreadable .invalidText]) := by
  rw [decodeLines, decodeLine?_eq_none h]

/-- The first line that is not valid. -/
theorem exists_first_invalid {lines : List (List UInt8)} (h : ¬∀ line ∈ lines, IsUtf8 line) :
    ∃ before bad after, lines = before ++ bad :: after ∧ (∀ line ∈ before, IsUtf8 line) ∧
      ¬IsUtf8 bad := by
  induction lines with
  | nil => exact absurd (fun _ hline => absurd hline List.not_mem_nil) h
  | cons line lines ih =>
      by_cases hline : IsUtf8 line
      · rw [List.forall_mem_cons] at h
        obtain ⟨before, bad, after, rfl, hbefore, hbad⟩ := ih fun hlines => h ⟨hline, hlines⟩
        exact ⟨line :: before, bad, after, rfl, List.forall_mem_cons.2 ⟨hline, hbefore⟩, hbad⟩
      · exact ⟨[], line, lines, rfl, fun _ hmem => absurd hmem List.not_mem_nil, hline⟩

/-- There is no complaint exactly if all bytes together are valid UTF-8, and then they are the
bytes of the text that was read. Otherwise there is one complaint, and what was read are the
lines before the first one that is not valid. -/
theorem reading_is_faithful (bytes : List UInt8) :
    ((readSource bytes).2 = [] ↔ IsUtf8 bytes) ∧
    (IsUtf8 bytes → textBytes (readSource bytes).1 = bytes) ∧
    (¬IsUtf8 bytes → ∃ before bad after, CutIntoLines bytes (before ++ bad :: after) ∧
      (∀ line ∈ before, IsUtf8 line) ∧ ¬IsUtf8 bad ∧
      textBytes (readSource bytes).1 = before.flatten ∧
      (readSource bytes).2 = [.unreadable .invalidText]) := by
  have hcut := cutIntoLines_splitLines bytes
  have hvalid (h : IsUtf8 bytes) :
      textBytes (readSource bytes).1 = bytes ∧ (readSource bytes).2 = [] := by
    have hread := decodeLines_append (isUtf8_iff_splitLines.1 h) []
    rw [List.append_nil, hcut.flatten_eq] at hread
    exact ⟨hread.1.trans (List.append_nil bytes), hread.2⟩
  have hinvalid (h : ¬IsUtf8 bytes) : ∃ before bad after,
      CutIntoLines bytes (before ++ bad :: after) ∧ (∀ line ∈ before, IsUtf8 line) ∧
      ¬IsUtf8 bad ∧ textBytes (readSource bytes).1 = before.flatten ∧
      (readSource bytes).2 = [.unreadable .invalidText] := by
    rw [isUtf8_iff_splitLines] at h
    obtain ⟨before, bad, after, hlines, hbefore, hbad⟩ := exists_first_invalid h
    rw [hlines] at hcut
    have hread := decodeLines_append hbefore (bad :: after)
    rw [← hlines, decodeLines_invalid hbad] at hread
    exact ⟨before, bad, after, hcut, hbefore, hbad, hread.1.trans (List.append_nil _), hread.2⟩
  refine ⟨⟨fun herrors => ?_, fun h => (hvalid h).2⟩, fun h => (hvalid h).1, hinvalid⟩
  by_contra h
  obtain ⟨before, bad, after, -, -, -, -, herror⟩ := hinvalid h
  rw [herrors] at herror
  cases herror

def truncatedSource : List UInt8 := [0x61, 0x0A, 0xC3, 0x0A, 0x62]

theorem reading_is_faithful_truncated :
    ¬IsUtf8 truncatedSource ∧ textBytes (readSource truncatedSource).1 = [0x61, 0x0A] ∧
      (readSource truncatedSource).2 = [.unreadable .invalidText] := by
  have hinvalid : ¬IsUtf8 truncatedSource := by
    rw [isUtf8_iff]
    decide +kernel
  obtain ⟨before, bad, after, -, -, -, -, herror⟩ :=
    (reading_is_faithful truncatedSource).2.2 hinvalid
  exact ⟨hinvalid, by decide +kernel, herror⟩

end OpenQasm
