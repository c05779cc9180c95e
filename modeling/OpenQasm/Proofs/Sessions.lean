import OpenQasm.Proofs.Sessions.Chunks
import OpenQasm.Proofs.Sessions.Output

/-!
# Sessions run programs

A program that is typed into a session line by line is run as if it were run at once. The
session cuts the text wherever it can be run, that is, between statements; each piece is read
as the statements that stand there, and running them in pieces is running them in a row. So
the session shows no error and the same snapshots, and ends with the same scope, quantum state
and place in the sequence of draws. This is so for every text without syntax errors, however
its statements are spread over lines, as long as no line is a command to the session and the
program neither fails nor returns at its top level.
-/
namespace OpenQasm

open OpenQasm.Parser

/-! What a session shows -/

/-- One of the things that a session shows. -/
inductive Shown (R : Type) where
  | prompt (text : String)
  | snapshot (s : Snapshot R)
  | value (v : Value R)
  | error (message : String)

namespace Shown

variable {R : Type}

def text [Scalar R] : Shown R → String
  | prompt s => s
  | snapshot s => s.text
  | value v => v.text ++ "\n"
  | error message => "Error: " ++ message ++ "\n"

def isError : Shown R → Bool
  | error _ => true
  | _ => false

def snapshot? : Shown R → Option (Snapshot R)
  | snapshot s => some s
  | _ => none

def join [Scalar R] (shown : List (Shown R)) : String := String.join (shown.map text)

variable [Scalar R]

@[simp] theorem join_nil : join ([] : List (Shown R)) = "" := rfl

@[simp] theorem join_cons (e : Shown R) (shown : List (Shown R)) :
    join (e :: shown) = e.text ++ join shown := by
  simp [join]

@[simp] theorem join_append (shown shown' : List (Shown R)) :
    join (shown ++ shown') = join shown ++ join shown' := by
  simp [join]

end Shown

namespace Session

variable {R : Type} [Scalar R]

def shownEach : List Stmt → Interpreter R (Simulator R) → List (Shown R)
  | [], _ => []
  | c :: cs, i =>
      let (result, j) := i.value c
      let (output, k) := j.takeOutput
      output.map .snapshot ++ match result with
        | .error e => [.error e.message]
        | .ok .none => shownEach cs k
        | .ok v => .value v :: shownEach cs k

/-- What is shown while a text is run. -/
def shownSource (source : String) (i : Interpreter R (Simulator R)) : List (Shown R) :=
  match Program.recover source with
  | (p, []) => shownEach p.statements i
  | (_, errors) => errors.map fun e => .error e.message

def shownGathered (line : String) (s : Session R) : List (Shown R) :=
  let source := s.pending ++ line
  if isComplete source then shownSource source s.interpreter else []

def shownLine (text : String) (s : Session R) : List (Shown R) :=
  if s.pending.isEmpty then
    let word := Text.trim text
    if word = "" then []
    else if word = "quit" ∨ word = "exit" then []
    else if word = "print" then [.snapshot s.interpreter.snapshot]
    else if word = "clear" then []
    else s.shownGathered text
  else s.shownGathered text

/-- All that a session shows when it is given lines. -/
def shown : List String → Session R → List (Shown R)
  | [], s => [.prompt s.prompt, .prompt "\n"]
  | text :: rest, s =>
      .prompt s.prompt :: (s.shownLine text ++ match (s.line text).2 with
        | none => []
        | some t => shown rest t)

def after : List String → Session R → Session R
  | [], s => s
  | text :: rest, s =>
      match (s.line text).2 with
      | none => s
      | some t => after rest t

theorem runEach_eq_join (cs : List Stmt) (i : Interpreter R (Simulator R)) :
    (runEach cs i).1 = Shown.join (shownEach cs i) := by
  have hsnapshots : ∀ output : List (Snapshot R),
      String.join (output.map Snapshot.text) = Shown.join (output.map .snapshot) := by
    intro output
    rw [Shown.join, List.map_map]
    rfl
  induction cs generalizing i with
  | nil => rfl
  | cons c cs ih =>
      rw [runEach, shownEach]
      rcases i.value c with ⟨result, j⟩
      dsimp only
      rw [Shown.join_append, hsnapshots]
      cases result with
      | error e => simp [Shown.text, String.append_assoc]
      | ok v =>
          cases v with
          | none => simp [ih]
          | const c => simp [ih, Shown.text, String.append_assoc]
          | bits bs => simp [ih, Shown.text, String.append_assoc]

theorem runSource_eq_join (source : String) (i : Interpreter R (Simulator R)) :
    (runSource source i).1 = Shown.join (shownSource source i) := by
  unfold runSource shownSource
  rcases Program.recover source with ⟨p, errors⟩
  cases errors with
  | nil => exact runEach_eq_join p.statements i
  | cons e errors =>
      dsimp only
      rw [Shown.join, List.map_map]
      rfl

theorem gather_eq_join (line : String) (s : Session R) :
    (s.gather line).1 = Shown.join (s.shownGathered line) := by
  unfold gather shownGathered
  dsimp only
  split
  · exact runSource_eq_join _ _
  · rfl

theorem line_eq_join (text : String) (s : Session R) :
    (s.line text).1 = Shown.join (s.shownLine text) := by
  unfold line shownLine
  by_cases hfresh : s.pending.isEmpty = true
  · rw [if_pos hfresh, if_pos hfresh]
    dsimp only
    split_ifs
    · rfl
    · rfl
    · simp [Shown.text]
    · rfl
    · exact gather_eq_join text s
  · rw [if_neg hfresh, if_neg hfresh]
    exact gather_eq_join text s

/-- The output of a session is what it shows. -/
theorem run_eq_join (lines : List String) (s : Session R) :
    s.run lines = Shown.join (s.shown lines) := by
  induction lines generalizing s with
  | nil => simp [run, shown, Shown.text]
  | cons text rest ih =>
      rw [run, shown, Shown.join_cons, Shown.join_append, ← line_eq_join]
      rcases s.line text with ⟨shown, next⟩
      cases next with
      | none => simp [Shown.text]
      | some t => simp [Shown.text, ih, String.append_assoc]

end Session

/-! Statements in pieces -/

namespace Interpreter

section Runs

variable {R B : Type} [Scalar R] [Backend R B]

def returns : List Stmt → Interpreter R B → Bool
  | [], _ => false
  | c :: cs, i =>
      match i.stmt c with
      | (.ok (.next _), j) => returns cs j
      | (.ok (.returned _), _) => true
      | (.error _, _) => false

/-- Statements run one after the other, from the first interpreter to the second. -/
def Runs : List Stmt → Interpreter R B → Interpreter R B → Prop
  | [], i, j => j = i
  | c :: cs, i, j => ∃ v k, i.stmt c = (.ok (.next v), k) ∧ Runs cs k j

theorem runs_of_stmts {cs : List Stmt} {i j : Interpreter R B} (h : i.stmts cs = (.ok (), j))
    (hreturns : i.returns cs = false) : Runs cs i j := by
  induction cs generalizing i with
  | nil =>
      cases h
      rfl
  | cons c cs ih =>
      rw [stmts] at h
      rw [returns] at hreturns
      rcases hstmt : i.stmt c with ⟨result, k⟩
      rw [hstmt] at h hreturns
      cases result with
      | error e => cases h
      | ok flow =>
          cases flow with
          | returned v => cases hreturns
          | next v => exact ⟨v, k, hstmt, ih h hreturns⟩

theorem runs_append {cs ds : List Stmt} {i j : Interpreter R B} :
    Runs (cs ++ ds) i j ↔ ∃ k, Runs cs i k ∧ Runs ds k j := by
  induction cs generalizing i with
  | nil => simp [Runs]
  | cons c cs ih =>
      constructor
      · rintro ⟨v, k, hstmt, hrest⟩
        obtain ⟨k', hcs, hds⟩ := ih.1 hrest
        exact ⟨k', ⟨v, k, hstmt, hcs⟩, hds⟩
      · rintro ⟨k', ⟨v, k, hstmt, hcs⟩, hds⟩
        exact ⟨v, k, hstmt, ih.2 ⟨k', hcs, hds⟩⟩

end Runs

end Interpreter

section Sessions

variable {R : Type} [Scalar R]

/-- No error is shown, and all the snapshots of a run from `i` to `j`. -/
structure Reports (shown : List (Shown R)) (i j : Interpreter R (Simulator R)) : Prop where
  errors : ∀ e ∈ shown, e.isError = false
  snapshots : j.takeOutput.1 = i.takeOutput.1 ++ shown.filterMap Shown.snapshot?

namespace Reports

variable {i j k : Interpreter R (Simulator R)}

omit [Scalar R] in
theorem nil (i : Interpreter R (Simulator R)) : Reports [] i i :=
  ⟨by simp, by simp⟩

omit [Scalar R] in
theorem append {shown shown' : List (Shown R)} (h : Reports shown i j) (h' : Reports shown' j k) :
    Reports (shown ++ shown') i k where
  errors := List.forall_mem_append.2 ⟨h.errors, h'.errors⟩
  snapshots := by rw [h'.snapshots, h.snapshots, List.filterMap_append, List.append_assoc]

omit [Scalar R] in
theorem prompt {shown : List (Shown R)} (h : Reports shown i j) (text : String) :
    Reports (.prompt text :: shown) i j where
  errors := List.forall_mem_cons.2 ⟨rfl, h.errors⟩
  snapshots := h.snapshots

omit [Scalar R] in
theorem value {shown : List (Shown R)} (h : Reports shown i j) (v : Value R) :
    Reports (.value v :: shown) i j where
  errors := List.forall_mem_cons.2 ⟨rfl, h.errors⟩
  snapshots := h.snapshots

/-- Statements run in a session, where output is taken after each of them. -/
theorem runEach {cs : List Stmt} (h : Interpreter.Runs cs i j) :
    Reports (Session.shownEach cs i.takeOutput.2) i j ∧
      (Session.runEach cs i.takeOutput.2).2 = j.takeOutput.2 := by
  induction cs generalizing i with
  | nil =>
      obtain rfl : j = i := h
      exact ⟨.nil j, rfl⟩
  | cons c cs ih =>
      obtain ⟨v, k, hstmt, hrest⟩ := h
      obtain ⟨hresult, hstate, houtput⟩ := i.stmt_takeOutput c
      obtain ⟨hothers, hend⟩ := ih hrest
      rw [hstmt] at hresult hstate houtput
      rcases hquiet : i.takeOutput.2.stmt c with ⟨result, k'⟩
      rw [hquiet] at hresult hstate houtput
      dsimp only at hresult hstate houtput
      have hvalue : i.takeOutput.2.value c = (.ok v, k') := by
        rw [Interpreter.value, hquiet, ← hresult]
      have hprinted : Reports (k'.takeOutput.1.map .snapshot) i k := by
        refine ⟨by simp [Shown.isError], ?_⟩
        rw [houtput, List.filterMap_map]
        simp [Function.comp_def, Shown.snapshot?]
      rw [Session.shownEach, Session.runEach, hvalue]
      dsimp only
      rw [← hstate]
      cases v with
      | none => exact ⟨hprinted.append hothers, hend⟩
      | const c => exact ⟨hprinted.append (hothers.value _), hend⟩
      | bits bs => exact ⟨hprinted.append (hothers.value _), hend⟩

end Reports

/-! Lines -/

namespace Session

def commands : List String := ["print", "clear", "quit", "exit"]

/-- A session that was given a part of a program: what is pending and the lines to come are the
statements that run from `i` to `j`. -/
structure Awaits (s : Session R) (lines : List (List Char)) (i j : Interpreter R (Simulator R)) :
    Prop where
  interpreter : s.interpreter = i.takeOutput.2
  pending : isComplete s.pending = false
  rest : ∃ us cs, tokensOf (s.pending.toList ++ lines.flatten) = us.flatten ∧
    Sentences true us cs ∧ Interpreter.Runs cs i j

theorem isComplete_empty : isComplete "" = false := by
  rw [Bool.eq_false_iff]
  intro h
  obtain ⟨-, t, ht, -⟩ := (isComplete_iff "").1 h
  have hnil : tokensOf "".toList = [] := tokensOf_nil
  rw [hnil] at ht
  cases ht

/-- What can be run is cut on its own, at the end of a line and at the end of the text. -/
theorem tokensOf_of_isComplete {source : String} (h : isComplete source = true)
    {lines : List (List Char)} (hlast : lines ≠ [] → source.toList.getLast? = some '\n') :
    tokensOf (source.toList ++ lines.flatten) = tokensOf source.toList ++ tokensOf lines.flatten := by
  cases lines with
  | nil => rw [List.flatten_nil, tokensOf_nil, List.append_nil, List.append_nil]
  | cons line lines =>
      have hwhole : WholeLines source.toList := by
        intro c hc
        rw [hlast (List.cons_ne_nil line lines)] at hc
        exact (Option.mem_some_iff.1 hc).symm
      refine tokensOf_append hwhole (fun t ht => ?_) _
      obtain ⟨-, t', ht', hends⟩ := (isComplete_iff source).1 h
      rw [Option.mem_unique ht ht']
      exact hends

namespace Awaits

variable {s : Session R} {text : List Char} {lines : List (List Char)}
  {i j : Interpreter R (Simulator R)}

/-- At the end of the lines nothing is left to run. -/
theorem eq_of_nil (h : s.Awaits [] i j) : j = i := by
  obtain ⟨us, cs, htokens, hsentences, hruns⟩ := h.rest
  rw [List.flatten_nil, List.append_nil] at htokens
  cases us with
  | nil =>
      cases hsentences.each
      exact hruns
  | cons u us =>
      have hcomplete := complete_flatten (span_of_mem hsentences.each) (List.cons_ne_nil u us)
      rw [← htokens, ← isComplete_iff, h.pending] at hcomplete
      cases hcomplete

/-- A blank line before a statement. -/
theorem blank (h : s.Awaits (text :: lines) i j) (hfresh : s.pending = "")
    (hblank : Text.trim (String.ofList text) = "") : s.Awaits lines i j := by
  obtain ⟨us, cs, htokens, hsentences, hruns⟩ := h.rest
  rw [hfresh, String.toList_empty, List.nil_append, List.flatten_cons] at htokens
  have hline : ∀ c ∈ text, Text.isBlank c = true := by
    simpa using Text.isBlank_of_trim hblank
  have hlegal : ∀ t ∈ tokensOf (text ++ lines.flatten), t.isIllegal = false := by
    intro t ht
    rw [htokens] at ht
    obtain ⟨u, hu, ht⟩ := List.mem_flatten.1 ht
    exact (span_of_mem hsentences.each u hu).isIllegal t ht
  refine ⟨h.interpreter, h.pending, us, cs, ?_, hsentences, hruns⟩
  rw [hfresh, String.toList_empty, List.nil_append, ← Text.tokensOf_blanks hline hlegal, htokens]

/-- A line that is added to what is pending. If that can be run, it is a part of the program. -/
theorem gather (h : s.Awaits (text :: lines) i j) (hcut : Text.Cut (text :: lines)) :
    ∃ k, Reports (s.shownGathered (String.ofList text)) i k ∧
      (s.gather (String.ofList text)).2.Awaits lines k j := by
  obtain ⟨us, cs, htokens, hsentences, hruns⟩ := h.rest
  have hsource : (s.pending ++ String.ofList text).toList = s.pending.toList ++ text := by
    rw [String.toList_append, String.toList_ofList]
  rw [List.flatten_cons, ← List.append_assoc, ← hsource] at htokens
  unfold shownGathered Session.gather
  dsimp only
  by_cases hcomplete : isComplete (s.pending ++ String.ofList text) = true
  · rw [if_pos hcomplete, if_pos hcomplete]
    have hlast : lines ≠ [] → (s.pending ++ String.ofList text).toList.getLast? = some '\n' := by
      intro hne
      rw [hsource]
      exact List.mem_getLast?_append_of_mem_getLast? (hcut.1 hne)
    -- only an open string or comment goes on in the next line, and no statement ends with one
    rw [tokensOf_of_isComplete hcomplete hlast] at htokens
    obtain ⟨cs₁, us₂, cs₂, rfl, hrecover, hrest, hothers⟩ := hsentences.chunk htokens hcomplete
    obtain ⟨k, hfirst, hsecond⟩ := Interpreter.runs_append.1 hruns
    obtain ⟨hreports, hend⟩ := Reports.runEach hfirst
    rw [shownSource, runSource, hrecover, h.interpreter]
    exact ⟨k, hreports, hend, isComplete_empty, us₂, cs₂, hrest, hothers, hsecond⟩
  · rw [if_neg hcomplete, if_neg hcomplete]
    exact ⟨i, .nil i, h.interpreter, Bool.eq_false_iff.2 hcomplete, us, cs, htokens, hsentences,
      hruns⟩

/-- A line that is no command. -/
theorem line (h : s.Awaits (text :: lines) i j) (hcut : Text.Cut (text :: lines))
    (hword : Text.trim (String.ofList text) ∉ commands) :
    ∃ t k, (s.line (String.ofList text)).2 = some t ∧
      Reports (s.shownLine (String.ofList text)) i k ∧ t.Awaits lines k j := by
  obtain ⟨k, hreports, hgathered⟩ := h.gather hcut
  unfold Session.line shownLine
  by_cases hfresh : s.pending.isEmpty = true
  · rw [if_pos hfresh, if_pos hfresh]
    by_cases hblank : Text.trim (String.ofList text) = ""
    · dsimp only
      rw [if_pos hblank, if_pos hblank]
      exact ⟨s, i, rfl, .nil i, h.blank (String.isEmpty_iff.1 hfresh) hblank⟩
    · simp only [commands, List.mem_cons, List.not_mem_nil, or_false, not_or] at hword
      obtain ⟨hprint, hclear, hquit, hexit⟩ := hword
      simp only [hblank, hprint, hclear, hquit, hexit, or_self, if_false]
      exact ⟨_, k, rfl, hreports, hgathered⟩
  · rw [if_neg hfresh, if_neg hfresh]
    exact ⟨_, k, rfl, hreports, hgathered⟩

theorem shown (h : s.Awaits lines i j) (hcut : Text.Cut lines)
    (hwords : ∀ line ∈ lines, Text.trim (String.ofList line) ∉ commands) :
    Reports (s.shown (lines.map String.ofList)) i j ∧
      (s.after (lines.map String.ofList)).interpreter = j.takeOutput.2 := by
  induction lines generalizing s i with
  | nil =>
      obtain rfl := h.eq_of_nil
      exact ⟨((Reports.nil j).prompt _).prompt _, h.interpreter⟩
  | cons line lines ih =>
      obtain ⟨hword, hwords⟩ := List.forall_mem_cons.1 hwords
      obtain ⟨t, k, hline, hreports, ht⟩ := h.line hcut hword
      obtain ⟨hothers, hend⟩ := ih ht hcut.2 hwords
      rw [List.map_cons, Session.shown, Session.after, hline]
      exact ⟨(hreports.append hothers).prompt _, hend⟩

end Awaits

/-- Take a text without syntax errors that runs on a fresh interpreter without an error and without
a `return` at its top level. Given to a session line by line, with no line a command, it shows no
error and exactly the snapshots of that run, in order. The session ends with the interpreter of
that run, apart from the snapshots, which it has shown: with the same scope, the same quantum state
and at the same draw. -/
theorem runs_program {config : Config} {source : String} {p : Program}
    {final : Interpreter R (Simulator R)} (hparse : Program.parse source = .ok p)
    (hrun : (Interpreter.simulate config).program p = (.ok (), final))
    (hreturns : (Interpreter.simulate (R := R) config).returns p.statements = false)
    (hwords : ∀ line ∈ Text.lines source, Text.trim line ∉ commands) :
    let s : Session R := start config
    let shown := s.shown (Text.lines source)
    s.run (Text.lines source) = Shown.join shown ∧ (∀ e ∈ shown, e.isError = false) ∧
      shown.filterMap Shown.snapshot? = final.takeOutput.1 ∧
      (s.after (Text.lines source)).interpreter = final.takeOutput.2 := by
  intro s shown
  obtain ⟨us, htokens, hsentences⟩ := exists_sentences hparse
  have hruns : Interpreter.Runs p.statements (Interpreter.simulate config) final :=
    Interpreter.runs_of_stmts hrun hreturns
  have hstart : s.Awaits (Text.cutLines source.toList) (Interpreter.simulate config) final := by
    refine ⟨rfl, isComplete_empty, us, p.statements, ?_, hsentences, hruns⟩
    rw [Text.flatten_cutLines]
    exact htokens
  obtain ⟨hreports, hend⟩ := hstart.shown (Text.cut_cutLines source.toList)
    fun line hline => hwords _ (List.mem_map_of_mem hline)
  exact ⟨run_eq_join _ s, hreports.errors, hreports.snapshots.symm, hend⟩

def spreadSource : String :=
  "gate flip a \x7b\nx a;\n\x7d\n\nqubit q; bit c; flip\nq; print q; // \x7b\nc = measure\nq; print;"

def spread : Program := (Program.recover spreadSource).1

def afterSpread : Interpreter Float (Simulator Float) :=
  ((Interpreter.simulate {}).program spread).2

/-- Reading and running this program. All is evaluated together, so the text is read once. -/
theorem evaluate_spread :
    (Program.recover spreadSource).2 = [] ∧
      ((Interpreter.simulate (R := Float) {}).program spread).1.isOk = true ∧
      (Interpreter.simulate (R := Float) {}).returns spread.statements = false ∧
      afterSpread.takeOutput.1.length = 2 ∧
      afterSpread.takeOutput.2.machine.backend.position = 1 := by
  decide +kernel

theorem runs_spread :
    let s : Session Float := start {}
    let shown := s.shown (Text.lines spreadSource)
    Program.parse spreadSource = .ok spread ∧ (∀ e ∈ shown, e.isError = false) ∧
      (shown.filterMap Shown.snapshot?).length = 2 ∧
      (s.after (Text.lines spreadSource)).interpreter.machine.backend.position = 1 := by
  intro s shown
  obtain ⟨herrors, hok, hreturns, hlength, hposition⟩ := evaluate_spread
  have hparse : Program.parse spreadSource = .ok spread := by
    have hrecover : Program.recover spreadSource = (spread, []) := Prod.ext rfl herrors
    rw [Program.parse, hrecover]
  have hrun : (Interpreter.simulate {}).program spread = (.ok (), afterSpread) := by
    refine Prod.ext ?_ rfl
    cases hresult : ((Interpreter.simulate (R := Float) {}).program spread).1 with
    | ok _ => rfl
    | error e =>
        rw [hresult] at hok
        cases hok
  obtain ⟨-, hshown, hsnapshots, hend⟩ :=
    runs_program hparse hrun hreturns (by decide +kernel)
  refine ⟨hparse, hshown, ?_, ?_⟩
  · rw [hsnapshots]
    exact hlength
  · rw [hend]
    exact hposition

end Session

end Sessions

end OpenQasm
