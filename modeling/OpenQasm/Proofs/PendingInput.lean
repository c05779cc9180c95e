import OpenQasm.Proofs.DeclaredTypes
import OpenQasm.Proofs.MaximalMunch
import OpenQasm.Proofs.Sessions

/-!
# What a session waits for

What is pending is never complete, and it is made of the lines that were given since nothing
was pending the last time. A line that is blank is dropped when nothing is pending, but a line
of comments is kept: it is no statement, and yet from then on no line is a command until a
statement is complete. If no such lines are given, whatever is pending is the start of a
statement, and a command is obeyed wherever no statement was started.
-/
namespace OpenQasm

/-! Texts without meaning -/

/-- A text that holds a comment and nothing that carries meaning. -/
def OnlyComments (text : String) : Prop :=
  (∃ l ∈ lexemes text, l.token = .comment) ∧ significant text = []

instance (text : String) : Decidable (OnlyComments text) :=
  inferInstanceAs (Decidable ((∃ l ∈ lexemes text, l.token = .comment) ∧ significant text = []))

namespace Text

/-- What is blank between tokens is blank in a line. -/
theorem isBlank_of_token {c : Char} (h : Token.isBlank c = true) : isBlank c = true := by
  simp only [Token.isBlank, Bool.or_eq_true, decide_eq_true_eq] at h
  rcases h with (((rfl | rfl) | rfl) | rfl) | rfl <;> decide

theorem trim_of_isBlank {s : String} (h : ∀ c ∈ s.toList, isBlank c = true) : trim s = "" := by
  have hfront : s.toList.dropWhile isBlank = [] := List.dropWhile_eq_nil_iff.2 h
  rw [trim, hfront]
  rfl

/-- A line that is not blank holds a character that is not. -/
theorem exists_visible {s : String} (h : trim s ≠ "") : ∃ c ∈ s.toList, isBlank c = false := by
  by_contra hnone
  push Not at hnone
  refine h (trim_of_isBlank fun c hc => ?_)
  simpa using hnone c hc

end Text

/-- A blank lexeme is made of blanks. -/
theorem isBlank_of_blank {source : String} {l : Lexeme} (hl : l ∈ lexemes source)
    (htoken : l.token = .blank) : ∀ c ∈ l.chars, Token.isBlank c = true := by
  obtain ⟨before, after, hsplit⟩ := List.append_of_mem hl
  obtain ⟨c, rest, hread, hchars, -⟩ := scan_lexFrom hsplit
  have hmunched := Rule.munched_scan c rest
  rw [← hread, ← hchars, htoken] at hmunched
  have hclosed : ¬Token.Unclosed (l.chars ++ rest.drop (Token.scan c rest).2) := by
    intro hopen
    cases (hmunched.unclosed hopen).1
  obtain ⟨⟨r, htakes⟩, hrule⟩ := hmunched.longest hclosed
  have heq := hrule r htakes
  cases r with
  | blank => exact (Rule.mem_blank.1 htakes.accepts).2
  | spelled s => cases s <;> cases heq
  | _ => cases heq

/-- If nothing in a text carries meaning, all that can be seen of it is comments. -/
theorem onlyComments_of_significant {text : String} (h : significant text = []) {c : Char}
    (hc : c ∈ text.toList) (hvisible : Text.isBlank c = false) : OnlyComments text := by
  have hchars : (lexemes text).flatMap Lexeme.chars = text.toList := chars_lexFrom 0 1 _
  rw [← hchars] at hc
  obtain ⟨l, hl, hc⟩ := List.mem_flatMap.1 hc
  have htrivia : l.token.isTrivia = true := by
    simpa using List.filter_eq_nil_iff.1 h l hl
  refine ⟨⟨l, hl, ?_⟩, h⟩
  cases htoken : l.token with
  | comment => rfl
  | blank =>
      have hblank := Text.isBlank_of_token (isBlank_of_blank hl htoken c hc)
      rw [hvisible] at hblank
      cases hblank
  | _ =>
      rw [htoken] at htrivia
      cases htrivia

namespace Session

variable {R : Type} [Scalar R]

/-! One line -/

/-- What a command does to a session that was started with `config`: `print` shows all registers,
`clear` starts over, and the others leave. -/
def obey (config : Config) (word : String) (s : Session R) : String × Option (Session R) :=
  if word = "print" then (s.interpreter.snapshot.text, some s)
  else if word = "clear" then ("", some (start config))
  else ("", none)

/-- A line is dropped or obeyed while nothing is pending, and otherwise it is added. -/
theorem line_cases (text : String) (s : Session R) :
    (s.pending = "" ∧ Text.trim text = "" ∧ s.line text = ("", some s)) ∨
      (s.pending = "" ∧ Text.trim text ∈ commands ∧
        s.line text = s.obey s.interpreter.config (Text.trim text)) ∨
      ((s.pending = "" → Text.trim text ≠ "" ∧ Text.trim text ∉ commands) ∧
        s.line text = ((s.gather text).1, some (s.gather text).2)) := by
  unfold line obey
  by_cases hfresh : s.pending = ""
  · rw [if_pos (String.isEmpty_iff.2 hfresh)]
    dsimp only
    by_cases hblank : Text.trim text = ""
    · rw [if_pos hblank]
      exact .inl ⟨hfresh, hblank, rfl⟩
    rw [if_neg hblank]
    right
    by_cases hleave : Text.trim text = "quit" ∨ Text.trim text = "exit"
    · rw [if_pos hleave]
      left
      rcases hleave with hword | hword
      · rw [hword]
        exact ⟨hfresh, by decide, rfl⟩
      · rw [hword]
        exact ⟨hfresh, by decide, rfl⟩
    rw [if_neg hleave]
    by_cases hprint : Text.trim text = "print"
    · rw [if_pos hprint, if_pos hprint, hprint]
      exact .inl ⟨hfresh, by decide, rfl⟩
    rw [if_neg hprint, if_neg hprint]
    by_cases hclear : Text.trim text = "clear"
    · rw [if_pos hclear, if_pos hclear, hclear]
      exact .inl ⟨hfresh, by decide, rfl⟩
    rw [if_neg hclear]
    refine .inr ⟨fun _ => ⟨hblank, ?_⟩, rfl⟩
    simp only [commands, List.mem_cons, List.not_mem_nil, or_false, not_or]
    exact ⟨hprint, hclear, not_or.1 hleave⟩
  · have hpending : ¬s.pending.isEmpty = true := fun h => hfresh (String.isEmpty_iff.1 h)
    rw [if_neg hpending]
    exact .inr (.inr ⟨fun h => absurd h hfresh, rfl⟩)

/-- With something pending no line is a command. -/
theorem line_of_pending {s : Session R} (h : s.pending ≠ "") (text : String) :
    s.line text = ((s.gather text).1, some (s.gather text).2) := by
  rcases line_cases text s with ⟨hfresh, -, -⟩ | ⟨hfresh, -, -⟩ | ⟨-, hline⟩
  · exact absurd hfresh h
  · exact absurd hfresh h
  · exact hline

theorem line_of_command {s : Session R} (h : s.pending = "") {text : String}
    (htext : Text.trim text ∈ commands) :
    s.line text = s.obey s.interpreter.config (Text.trim text) := by
  rcases line_cases text s with ⟨-, hblank, -⟩ | ⟨-, -, hline⟩ | ⟨hother, -⟩
  · rw [hblank] at htext
    exact absurd htext (by decide)
  · exact hline
  · exact absurd htext (hother h).2

theorem config_runEach (cs : List Stmt) (i : Interpreter R (Simulator R)) :
    (runEach cs i).2.config = i.config := by
  induction cs generalizing i with
  | nil => rfl
  | cons c cs ih =>
      have hvalue : (i.value c).2.config = i.config := by
        rw [← Interpreter.config_stmt i c, Interpreter.value]
        split <;> rename_i hstmt <;> rw [hstmt]
      rw [runEach]
      rcases hresult : i.value c with ⟨result, j⟩
      rw [hresult] at hvalue
      dsimp only
      split
      · exact hvalue
      · rw [ih]
        exact hvalue
      · rw [ih]
        exact hvalue

theorem config_runSource (source : String) (i : Interpreter R (Simulator R)) :
    (runSource source i).2.config = i.config := by
  unfold runSource
  split
  · exact config_runEach _ i
  · rfl

/-- An added line is run with what was pending, or it is pending with it. -/
theorem gather_cases (text : String) (s : Session R) :
    (s.gather text).2.interpreter.config = s.interpreter.config ∧
      ((s.gather text).2.pending = "" ∨
        isComplete (s.pending ++ text) = false ∧ (s.gather text).2.pending = s.pending ++ text) := by
  unfold gather
  dsimp only
  by_cases hcomplete : isComplete (s.pending ++ text) = true
  · rw [if_pos hcomplete]
    exact ⟨config_runSource _ _, .inl rfl⟩
  · rw [if_neg hcomplete]
    exact ⟨rfl, .inr ⟨Bool.eq_false_iff.2 hcomplete, rfl⟩⟩

/-! All lines -/

/-- A session that was started with `config`. Nothing is pending, or what is pending can be seen
and cannot be run. -/
structure Waits (config : Config) (s : Session R) : Prop where
  config : s.interpreter.config = config
  unfinished : isComplete s.pending = false
  visible : s.pending = "" ∨ ∃ c ∈ s.pending.toList, Text.isBlank c = false

theorem waits_start (config : Config) : (start config : Session R).Waits config where
  config := rfl
  unfinished := isComplete_empty
  visible := .inl rfl

namespace Waits

variable {config : Config} {s t : Session R}

theorem gather (h : s.Waits config) {text : String}
    (htext : s.pending = "" → Text.trim text ≠ "") : (s.gather text).2.Waits config := by
  obtain ⟨hconfig, hpending⟩ := gather_cases text s
  rw [h.config] at hconfig
  rcases hpending with hnone | ⟨hunfinished, hpending⟩
  · exact ⟨hconfig, hnone ▸ isComplete_empty, .inl hnone⟩
  · refine ⟨hconfig, hpending ▸ hunfinished, .inr ?_⟩
    rw [hpending, String.toList_append]
    rcases h.visible with hfresh | ⟨c, hc, hvisible⟩
    · obtain ⟨c, hc, hvisible⟩ := Text.exists_visible (htext hfresh)
      exact ⟨c, List.mem_append_right _ hc, hvisible⟩
    · exact ⟨c, List.mem_append_left _ hc, hvisible⟩

theorem line (h : s.Waits config) {text : String} (ht : (s.line text).2 = some t) :
    t.Waits config := by
  rcases line_cases text s with ⟨-, -, hline⟩ | ⟨-, -, hline⟩ | ⟨hother, hline⟩
  · rw [hline] at ht
    cases ht
    exact h
  · rw [hline, h.config, obey] at ht
    split_ifs at ht
    · cases ht
      exact h
    · cases ht
      exact waits_start config
  · rw [hline] at ht
    cases ht
    exact h.gather fun hfresh => (hother hfresh).1

theorem after (h : s.Waits config) (lines : List String) : (s.after lines).Waits config := by
  induction lines generalizing s with
  | nil => exact h
  | cons text rest ih =>
      rw [Session.after]
      cases hline : (s.line text).2 with
      | none => exact h
      | some t => exact ih (h.line hline)

end Waits

/-- The next session has nothing pending, or the line more than the one before. -/
theorem pending_line {s t : Session R} {text : String} (ht : (s.line text).2 = some t) :
    t.pending = "" ∨ t.pending = s.pending ++ text := by
  rcases line_cases text s with ⟨hfresh, -, hline⟩ | ⟨hfresh, -, hline⟩ | ⟨-, hline⟩
  · rw [hline] at ht
    cases ht
    exact .inl hfresh
  · rw [hline, obey] at ht
    split_ifs at ht
    · cases ht
      exact .inl hfresh
    · cases ht
      exact .inl rfl
  · rw [hline] at ht
    cases ht
    exact (gather_cases text s).2.imp_right And.right

/-- A session is over only if nothing is pending. -/
theorem pending_of_over {s : Session R} {text : String} (h : (s.line text).2 = none) :
    s.pending = "" := by
  by_contra hpending
  rw [line_of_pending hpending] at h
  cases h

/-- What is pending are the lines since nothing was pending the last time, or since the start. -/
theorem pending_after (lines : List String) (s : Session R) :
    (s.after lines).pending = "" ∨ ∃ before run, lines = before ++ run ∧
      (before = [] ∨ (s.after before).pending = "") ∧
        (s.after lines).pending = (s.after before).pending ++ String.join run := by
  induction lines generalizing s with
  | nil => exact .inr ⟨[], [], rfl, .inl rfl, by simp⟩
  | cons text rest ih =>
      cases hline : (s.line text).2 with
      | none =>
          left
          rw [after, hline]
          exact pending_of_over hline
      | some t =>
          have hafter : ∀ ls, s.after (text :: ls) = t.after ls := by
            intro ls
            rw [after, hline]
          rw [hafter]
          rcases ih t with hnone | ⟨before, run, hrest, hbefore, hpending⟩
          · exact .inl hnone
          right
          by_cases hfresh : (t.after before).pending = ""
          · exact ⟨text :: before, run, by rw [hrest, List.cons_append],
              .inr (by rw [hafter, hfresh]), by rw [hafter, hpending]⟩
          · obtain rfl : before = [] := hbefore.resolve_right hfresh
            have htext : t.pending = s.pending ++ text := (pending_line hline).resolve_left hfresh
            refine ⟨[], text :: run, by rw [hrest]; rfl, .inl rfl, ?_⟩
            rw [hpending, String.join_cons, ← String.append_assoc]
            exact congrArg (· ++ String.join run) htext

/-- From some prompt on at which nothing was pending, the lines hold comments only. -/
def EndsInComments (s : Session R) (lines : List String) : Prop :=
  ∃ before run, lines = before ++ run ∧ (s.after before).pending = "" ∧
    OnlyComments (String.join run)

/-- Comments that are pending are the lines since nothing was pending the last time. -/
theorem endsInComments_of_pending {config : Config} {lines : List String}
    (h : OnlyComments ((start config : Session R).after lines).pending) :
    (start config : Session R).EndsInComments lines := by
  rcases pending_after lines (start config : Session R) with
    hnone | ⟨before, run, hlines, hbefore, hpending⟩
  · rw [hnone] at h
    exact ⟨lines, [], by rw [List.append_nil], hnone, h⟩
  · have hfresh : ((start config : Session R).after before).pending = "" := by
      rcases hbefore with rfl | hfresh
      · rfl
      · exact hfresh
    rw [hpending, hfresh, String.empty_append] at h
    exact ⟨before, run, hlines, hfresh, h⟩

/-- At every prompt what is pending is not complete, and if anything is pending, it has a token
that carries meaning or is made of comments. A command is obeyed exactly if nothing is pending.
So unless the lines from some such prompt on are comments only, whatever is pending has a token
that carries meaning, and a command that comes where there is none is obeyed. -/
theorem pending_is_unfinished (config : Config) (lines : List String) :
    let s : Session R := (start config).after lines
    isComplete s.pending = false ∧
      (s.pending = "" ∨ significant s.pending ≠ [] ∨ OnlyComments s.pending) ∧
      (∀ text, Text.trim text ∈ commands →
        (s.pending = "" → s.line text = s.obey config (Text.trim text)) ∧
        (s.pending ≠ "" → s.line text = ((s.gather text).1, some (s.gather text).2))) ∧
      (¬(start config : Session R).EndsInComments lines →
        (s.pending = "" ∨ significant s.pending ≠ []) ∧
          ∀ text, Text.trim text ∈ commands → significant s.pending = [] →
            s.line text = s.obey config (Text.trim text)) := by
  intro s
  have hwaits : s.Waits config := (waits_start config).after lines
  have hkinds : s.pending = "" ∨ significant s.pending ≠ [] ∨ OnlyComments s.pending := by
    rcases hwaits.visible with hnone | ⟨c, hc, hvisible⟩
    · exact .inl hnone
    · by_cases hmeaning : significant s.pending = []
      · exact .inr (.inr (onlyComments_of_significant hmeaning hc hvisible))
      · exact .inr (.inl hmeaning)
  have hobeyed : ∀ text, Text.trim text ∈ commands → s.pending = "" →
      s.line text = s.obey config (Text.trim text) := by
    intro text htext hfresh
    rw [line_of_command hfresh htext, hwaits.config]
  refine ⟨hwaits.unfinished, hkinds, fun text htext => ⟨hobeyed text htext, ?_⟩, fun hlines => ?_⟩
  · exact fun hpending => line_of_pending hpending text
  have hstarted : s.pending = "" ∨ significant s.pending ≠ [] := by
    rcases hkinds with hnone | hmeaning | hcomments
    · exact .inl hnone
    · exact .inr hmeaning
    · exact absurd (endsInComments_of_pending hcomments) hlines
  refine ⟨hstarted, fun text htext hmeaning => hobeyed text htext ?_⟩
  exact hstarted.resolve_right fun h => h hmeaning

def flipLines : List String := ["gate flip a \x7b // note\n", "x a; \x7d\n"]

theorem pending_is_unfinished_flip :
    let s : Session Float := (start {}).after flipLines
    ¬(start {} : Session Float).EndsInComments (flipLines.take 1) ∧
      significant ((start {} : Session Float).after (flipLines.take 1)).pending ≠ [] ∧
      s.pending = "" ∧ s.line " quit\n" = ("", none) := by
  have hfresh : ((start {} : Session Float).after flipLines).pending = "" := by decide +kernel
  have hopen : ((start {} : Session Float).after (flipLines.take 1)).pending ≠ "" := by
    decide +kernel
  have hlines : ¬(start {} : Session Float).EndsInComments (flipLines.take 1) := by
    rintro ⟨before, run, hsplit, -, hcomments⟩
    cases before with
    | nil =>
        rw [List.nil_append] at hsplit
        rw [← hsplit] at hcomments
        exact absurd hcomments (by decide +kernel)
    | cons line before =>
        obtain ⟨-, hrest⟩ := List.cons.inj hsplit
        obtain ⟨-, rfl⟩ := List.append_eq_nil_iff.1 hrest.symm
        exact absurd hcomments (by decide +kernel)
  obtain ⟨-, -, -, hstarted⟩ := pending_is_unfinished (R := Float) {} (flipLines.take 1)
  obtain ⟨-, -, hcommands, -⟩ := pending_is_unfinished (R := Float) {} flipLines
  refine ⟨hlines, (hstarted hlines).1.resolve_left hopen, hfresh, ?_⟩
  exact (hcommands " quit\n" (by decide +kernel)).1 hfresh

/-- After a line with nothing but a comment no statement is started, and still `quit` does not
end the session. -/
theorem comment_hides_command :
    let s : Session Float := (start {}).after ["// note\n"]
    s.pending ≠ "" ∧ significant s.pending = [] ∧ (s.line "quit\n").2.isSome = true := by
  decide +kernel

end Session

end OpenQasm
