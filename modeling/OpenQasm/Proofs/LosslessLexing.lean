import OpenQasm.Proofs.Lexing.Places

/-!
# Nothing of a source is lost

The lexemes of a source, blanks and comments included, lie side by side: the first one
starts at byte zero, each further one where the one before it stops, and the last one stops
where the source does. The bytes between the start and the stop of a lexeme encode its
characters, and its line is one more than the number of line ends before it.

A reader goes through a source one lexeme at a time, and writes down a complaint about every
illegal one that it meets. It comes across the same lexemes and complaints whether it stops
at each of them or passes over blanks and comments.
-/
namespace OpenQasm

/-! Bytes and characters -/

theorem utf8Length_cons (c : Char) (cs : List Char) :
    utf8Length (c :: cs) = c.utf8Size + utf8Length cs := rfl

theorem utf8Length_append (cs ds : List Char) :
    utf8Length (cs ++ ds) = utf8Length cs + utf8Length ds := by
  induction cs with
  | nil => exact (Nat.zero_add _).symm
  | cons c cs ih => rw [List.cons_append, utf8Length_cons, utf8Length_cons, ih, Nat.add_assoc]

theorem size_utf8Encode (cs : List Char) : cs.utf8Encode.size = utf8Length cs := by
  induction cs with
  | nil => rfl
  | cons c cs ih =>
      rw [List.utf8Encode_cons, ByteArray.size_append, ih, utf8Length_cons]
      congr 1
      simp [List.utf8Encode_singleton]

theorem utf8Length_toList (s : String) : utf8Length s.toList = s.utf8ByteSize := by
  rw [← size_utf8Encode, String.utf8Encode_toList, String.size_toByteArray]

/-- The bytes that come after those of a text and before those of another one. -/
theorem extract_toByteArray {s : String} {before chars after : List Char}
    (h : s.toList = before ++ (chars ++ after)) :
    s.toByteArray.extract (utf8Length before) (utf8Length before + utf8Length chars) =
      (String.ofList chars).toByteArray := by
  have hbytes : s.toByteArray = before.utf8Encode ++ (chars.utf8Encode ++ after.utf8Encode) := by
    rw [← String.utf8Encode_toList, h, List.utf8Encode_append, List.utf8Encode_append]
  have hbefore := ByteArray.extract_append_size_add (a := before.utf8Encode)
    (b := chars.utf8Encode ++ after.utf8Encode) (i := 0) (j := chars.utf8Encode.size)
  rw [hbytes, ← size_utf8Encode before, ← size_utf8Encode chars, String.toByteArray_ofList]
  exact hbefore.trans (ByteArray.extract_append_eq_left rfl)

/-! Illegal tokens -/

namespace Token

theorem isIllegal_ofWord (word : String) : (ofWord word).isIllegal = false := by
  have hreserved : ∀ r ∈ reserved, r.2.isIllegal = false := by decide
  cases hlook : reserved.lookup word with
  | none =>
      rw [ofWord, hlook, Option.getD_none]
      rfl
  | some t =>
      obtain ⟨before, after, hsplit, -⟩ := List.lookup_eq_some_iff.1 hlook
      have hmem : (word, t) ∈ reserved := by simp [hsplit]
      rw [ofWord, hlook, Option.getD_some]
      exact hreserved _ hmem

/-- If a token is illegal, it holds all the characters that it was read from. -/
def Holds (c : Char) (cs : List Char) (read : Token × Nat) : Prop :=
  read.1.isIllegal = true → read.1 = illegal (String.ofList (c :: cs.take read.2))

theorem holds_of_isIllegal {c : Char} {cs : List Char} {read : Token × Nat}
    (h : read.1.isIllegal = false) : Holds c cs read := by
  intro htrue
  rw [h] at htrue
  cases htrue

theorem holds_scanSlash (cs : List Char) : Holds '/' cs (scanSlash cs) := by
  unfold scanSlash
  split
  · exact holds_of_isIllegal rfl
  · split
    · exact holds_of_isIllegal rfl
    · intro _
      rw [Nat.add_comm, List.take_succ_cons, List.take_length]
  · exact holds_of_isIllegal rfl

theorem holds_glyph (c : Char) (cs : List Char) :
    Holds c cs ((ofGlyph? c).getD (illegal (String.ofList [c])), 0) := by
  unfold ofGlyph?
  cases MathConstant.all.find? (·.glyph = c) with
  | none => exact fun _ => rfl
  | some name => exact holds_of_isIllegal rfl

theorem holds_scan (c : Char) (cs : List Char) : Holds c cs (scan c cs) := by
  unfold scan
  split
  · exact holds_of_isIllegal rfl
  split
  · exact holds_of_isIllegal (isIllegal_ofWord _)
  split
  · cases hreal : (numberTail cs).1 with
    | true => exact holds_of_isIllegal (by simp [hreal, isIllegal])
    | false => exact holds_of_isIllegal (by simp [hreal, isIllegal])
  split
  · exact holds_of_isIllegal rfl
  split
  · rename_i hslash
    rw [hslash]
    exact holds_scanSlash cs
  split
  · exact holds_of_isIllegal rfl
  split
  · exact holds_of_isIllegal rfl
  · exact holds_glyph c cs

end Token

/-- The complaint about an illegal lexeme: its line and all of its text. -/
def Lexeme.complaint (l : Lexeme) : LexError := .illegal l.line (String.ofList l.chars)

/-- There is one complaint for each illegal lexeme, in the same order. -/
theorem errors_lexFrom (start line : Nat) (cs : List Char) :
    (lexFrom start line cs).filterMap Lexeme.error? =
      ((lexFrom start line cs).filter (·.token.isIllegal)).map Lexeme.complaint := by
  induction start, line, cs using lexFrom.induct with
  | case1 start line => rw [lexFrom]; rfl
  | case2 start line c cs token n hscan chars ih =>
      have hholds := Token.holds_scan c cs
      rw [hscan] at hholds
      rw [lexFrom_cons, hscan, List.filterMap_cons, List.filter_cons]
      cases hillegal : token.isIllegal with
      | false =>
          have hnone : Lexeme.error? ⟨token, c :: cs.take n, start, line⟩ = none := by
            cases token with
            | illegal text => cases hillegal
            | _ => rfl
          rw [hnone]
          simpa [hillegal] using ih
      | true =>
          obtain rfl : token = .illegal (String.ofList (c :: cs.take n)) := hholds hillegal
          exact congrArg (_ :: ·) ih

/-! Places -/

theorem chars_lexFrom (start line : Nat) (cs : List Char) :
    (lexFrom start line cs).flatMap Lexeme.chars = cs := by
  induction start, line, cs using lexFrom.induct with
  | case1 start line => rw [lexFrom]; rfl
  | case2 start line c cs token n hscan chars ih =>
      rw [lexFrom_cons, hscan, List.flatMap_cons, ih, List.cons_append, List.take_append_drop]

/-- Lexemes that lie side by side from one offset to another, none of them empty. -/
inductive Tiles : Nat → List Lexeme → Nat → Prop
  | nil (i : Nat) : Tiles i [] i
  | cons {l : Lexeme} {ls : List Lexeme} {j : Nat} :
      l.start < l.stop → Tiles l.stop ls j → Tiles l.start (l :: ls) j

theorem tiles_lexFrom (start line : Nat) (cs : List Char) :
    Tiles start (lexFrom start line cs) (start + utf8Length cs) := by
  induction start, line, cs using lexFrom.induct with
  | case1 start line =>
      rw [lexFrom]
      exact .nil start
  | case2 start line c cs token n hscan chars ih =>
      have hstop : start + utf8Length (c :: cs) =
          start + utf8Length (c :: cs.take n) + utf8Length (cs.drop n) := by
        rw [Nat.add_assoc, ← utf8Length_append, List.cons_append, List.take_append_drop]
      have hnonempty : start < start + utf8Length (c :: cs.take n) := by
        have hsize := c.utf8Size_pos
        rw [utf8Length_cons]
        omega
      rw [lexFrom_cons, hscan, hstop]
      exact Tiles.cons (l := ⟨token, c :: cs.take n, start, line⟩) hnonempty ih

/-- From a lexeme on, reading goes on as if the text started there. -/
theorem lexFrom_eq_append {start line : Nat} {cs : List Char} {before after : List Lexeme}
    {l : Lexeme} (h : lexFrom start line cs = before ++ l :: after) :
    ∃ c rest, lexFrom (start + utf8Length (before.flatMap Lexeme.chars))
      (line + newlines (before.flatMap Lexeme.chars)) (c :: rest) = l :: after := by
  induction before generalizing start line cs with
  | nil =>
      cases cs with
      | nil =>
          rw [lexFrom] at h
          cases h
      | cons c cs => exact ⟨c, cs, h⟩
  | cons b before ih =>
      cases cs with
      | nil =>
          rw [lexFrom] at h
          cases h
      | cons c cs =>
          rw [lexFrom_cons, List.cons_append] at h
          obtain ⟨rfl, hrest⟩ := List.cons.inj h
          rw [List.flatMap_cons, utf8Length_append, newlines_append, ← Nat.add_assoc,
            ← Nat.add_assoc]
          exact ih hrest

/-- A lexeme stands where the texts of the lexemes before it end. -/
theorem place_lexFrom {start line : Nat} {cs : List Char} {before after : List Lexeme}
    {l : Lexeme} (h : lexFrom start line cs = before ++ l :: after) :
    l.start = start + utf8Length (before.flatMap Lexeme.chars) ∧
      l.line = line + newlines (before.flatMap Lexeme.chars) := by
  obtain ⟨c, rest, hrest⟩ := lexFrom_eq_append h
  rw [lexFrom_cons] at hrest
  obtain ⟨rfl, -⟩ := List.cons.inj hrest
  exact ⟨rfl, rfl⟩

/-! Reading one lexeme at a time -/

/-- Somewhere in a source: what is left of it, the place, and the complaints so far. -/
structure Reader where
  rest : List Char
  start : Nat
  line : Nat
  errors : List LexError

namespace Reader

def ofSource (source : String) : Reader := ⟨source.toList, 0, 1, []⟩

def scan (r : Reader) : Option Lexeme × Reader :=
  match r.rest with
  | [] => (none, r)
  | c :: cs =>
      let (token, n) := Token.scan c cs
      let l : Lexeme := ⟨token, c :: cs.take n, r.start, r.line⟩
      (some l, ⟨cs.drop n, l.stop, r.line + newlines l.chars, r.errors ++ l.error?.toList⟩)

theorem length_rest_scan {r r' : Reader} {l : Lexeme} (h : r.scan = (some l, r')) :
    r'.rest.length < r.rest.length := by
  obtain ⟨cs, start, line, errors⟩ := r
  cases cs with
  | nil => cases h
  | cons c cs =>
      cases h
      rw [List.length_drop, List.length_cons]
      omega

/-- Read a lexeme that carries meaning, and pass over blanks and comments before it. -/
def next (r : Reader) : Option Lexeme × Reader :=
  match _h : r.scan with
  | (none, r') => (none, r')
  | (some l, r') => if l.token.isTrivia then r'.next else (some l, r')
termination_by r.rest.length
decreasing_by exact length_rest_scan _h

/-- Reading until nothing is left yields lexemes, and ends with a reader. -/
inductive Yields (read : Reader → Option Lexeme × Reader) : Reader → List Lexeme → Reader → Prop
  | done {r r' : Reader} : read r = (none, r') → Yields read r [] r'
  | more {r r₁ r' : Reader} {l : Lexeme} {ls : List Lexeme} :
      read r = (some l, r₁) → Yields read r₁ ls r' → Yields read r (l :: ls) r'

theorem next_of_trivia {r r' : Reader} {l : Lexeme} (h : r.scan = (some l, r'))
    (hl : l.token.isTrivia = true) : r.next = r'.next := by
  rw [next, h]
  exact if_pos hl

theorem next_of_significant {r r' : Reader} {l : Lexeme} (h : r.scan = (some l, r'))
    (hl : l.token.isTrivia = false) : r.next = (some l, r') := by
  rw [next, h]
  exact if_neg (by rw [hl]; exact Bool.false_ne_true)

/-- Readers that read the same go on in the same way. -/
theorem Yields.of_eq {read : Reader → Option Lexeme × Reader} {r r₁ r' : Reader}
    {ls : List Lexeme} (h : Yields read r₁ ls r') (heq : read r = read r₁) :
    Yields read r ls r' := by
  cases h with
  | done hdone => exact .done (heq.trans hdone)
  | more hmore hrest => exact .more (heq.trans hmore) hrest

/-- Passing over blanks and comments leaves out these lexemes and nothing else. -/
theorem Yields.next {r r' : Reader} {ls : List Lexeme} (h : Yields scan r ls r') :
    Yields next r (ls.filter (!·.token.isTrivia)) r' := by
  induction h with
  | @done r r' hread =>
      refine .done ?_
      rw [Reader.next, hread]
  | @more r r₁ r' l ls hread _ ih =>
      cases hl : l.token.isTrivia with
      | false =>
          rw [List.filter_cons_of_pos (by simp [hl])]
          exact .more (next_of_significant hread hl) ih
      | true =>
          rw [List.filter_cons_of_neg (by simp [hl])]
          exact ih.of_eq (next_of_trivia hread hl)

/-- Reading yields the lexemes of the text, and the complaints about them. -/
theorem yields_scan (cs : List Char) (start line : Nat) (errors : List LexError) :
    ∃ r, Yields scan ⟨cs, start, line, errors⟩ (lexFrom start line cs) r ∧
      r.errors = errors ++ (lexFrom start line cs).filterMap Lexeme.error? := by
  induction start, line, cs using lexFrom.induct generalizing errors with
  | case1 start line =>
      rw [lexFrom]
      exact ⟨_, .done rfl, (List.append_nil errors).symm⟩
  | case2 start line c cs token n hscan chars ih =>
      obtain ⟨r, hread, herrors⟩ :=
        ih (errors ++ (Lexeme.error? ⟨token, c :: cs.take n, start, line⟩).toList)
      rw [lexFrom_cons, hscan]
      refine ⟨r, .more ?_ hread, ?_⟩
      · simp only [scan, hscan]
        rfl
      · rw [herrors, List.append_assoc, List.filterMap_cons]
        cases Lexeme.error? ⟨token, c :: cs.take n, start, line⟩ with
        | none => rfl
        | some e => rfl

end Reader

/-- A source is cut without loss. Its lexemes lie side by side from the first byte to the last,
and none is empty; the bytes of each are the text it was read from, and its line is one more than
the number of line ends before it. Reading lexeme by lexeme yields all of them, or with blanks and
comments passed over just the others; either way there is one complaint for each illegal lexeme,
with its line and its text, in order. -/
theorem lexing_lossless (source : String) :
    Tiles 0 (lexemes source) source.utf8ByteSize ∧
      (lexemes source).flatMap Lexeme.chars = source.toList ∧
      (∀ before l after, lexemes source = before ++ l :: after →
        source.toByteArray.extract l.start l.stop = (String.ofList l.chars).toByteArray ∧
        l.start = utf8Length (before.flatMap Lexeme.chars) ∧
        l.line = 1 + newlines (before.flatMap Lexeme.chars)) ∧
      significant source = (lexemes source).filter (!·.token.isTrivia) ∧
      lexErrors source = ((lexemes source).filter (·.token.isIllegal)).map Lexeme.complaint ∧
      (∃ r, Reader.Yields Reader.scan (.ofSource source) (lexemes source) r ∧
        r.errors = lexErrors source) ∧
      (∃ r, Reader.Yields Reader.next (.ofSource source) (significant source) r ∧
        r.errors = lexErrors source) := by
  have hchars : (lexemes source).flatMap Lexeme.chars = source.toList := chars_lexFrom 0 1 _
  obtain ⟨r, hread, herrors⟩ := Reader.yields_scan source.toList 0 1 []
  refine ⟨?_, hchars, ?_, rfl, errors_lexFrom 0 1 _, ⟨r, hread, herrors⟩, ⟨r, hread.next, herrors⟩⟩
  · have htiles := tiles_lexFrom 0 1 source.toList
    rwa [Nat.zero_add, utf8Length_toList] at htiles
  · intro before l after hsplit
    obtain ⟨hstart, hline⟩ := place_lexFrom hsplit
    rw [Nat.zero_add] at hstart
    rw [hsplit, List.flatMap_append, List.flatMap_cons] at hchars
    refine ⟨?_, hstart, hline⟩
    rw [Lexeme.stop, hstart]
    exact extract_toByteArray hchars.symm

end OpenQasm
