import OpenQasm.Eval.Interpreter
import OpenQasm.Parser.Program
import OpenQasm.Text.Blank

/-!
# Interactive sessions

Lines are gathered until their braces balance and they end a statement; then what
was gathered is run. On a fresh line, a word by itself is a command to the session:
`print` shows all registers, `clear` starts over, `quit` and `exit` leave. A session
is a function from lines to output, and the terminal is only attached to it.
-/
namespace OpenQasm

/-- A session waiting for a line. -/
structure Session (R : Type) where
  interpreter : Interpreter R (Simulator R)
  /-- The start of a statement that is still unfinished. -/
  pending : String

namespace Session

variable {R : Type} [Scalar R]

def start (config : Config) : Session R := ⟨.simulate config, ""⟩

/-- What is shown before a line is read. -/
def prompt (s : Session R) : String := if s.pending.isEmpty then "qasmi> " else "   ... "

/-- Open braces without the closed ones. -/
def openBraces (ls : List Lexeme) : Int :=
  ls.foldl (fun depth l =>
    if l.token = .symbol .lbrace then depth + 1
    else if l.token = .symbol .rbrace then depth - 1
    else depth) 0

/-- Whether a text can be run: no brace is open, and it ends a statement or a block.
Braces in comments and strings do not count. -/
def isComplete (source : String) : Bool :=
  let ls := significant source
  let closes := match ls.getLast? with
    | some l => l.token = .symbol .semicolon || l.token = .symbol .rbrace
    | none => false
  openBraces ls ≤ 0 && closes

/-- Run statements, showing what they print and the values they have, up to the first
error. -/
def runEach : List Stmt → Interpreter R (Simulator R) → String × Interpreter R (Simulator R)
  | [], i => ("", i)
  | s :: ss, i =>
      let (result, j) := i.value s
      let (output, k) := j.takeOutput
      let shown := String.join (output.map Snapshot.text)
      match result with
      | .error e => (shown ++ "Error: " ++ e.message ++ "\n", k)
      | .ok .none =>
          let (rest, final) := runEach ss k
          (shown ++ rest, final)
      | .ok v =>
          let (rest, final) := runEach ss k
          (shown ++ v.text ++ "\n" ++ rest, final)

def runSource (source : String) (i : Interpreter R (Simulator R)) :
    String × Interpreter R (Simulator R) :=
  match Program.recover source with
  | (p, []) => runEach p.statements i
  | (_, errors) => (String.join (errors.map fun e => "Error: " ++ e.message ++ "\n"), i)

/-- Add a line to what is pending, and run it if it is complete. -/
def gather (line : String) (s : Session R) : String × Session R :=
  let source := s.pending ++ line
  if isComplete source then
    let (shown, i) := runSource source s.interpreter
    (shown, ⟨i, ""⟩)
  else ("", { s with pending := source })

/-- Take a line. The session is over when none is returned. -/
def line (text : String) (s : Session R) : String × Option (Session R) :=
  let more (r : String × Session R) : String × Option (Session R) := (r.1, some r.2)
  if s.pending.isEmpty then
    let word := Text.trim text
    if word = "" then ("", some s)
    else if word = "quit" ∨ word = "exit" then ("", none)
    else if word = "print" then (s.interpreter.snapshot.text, some s)
    else if word = "clear" then ("", some (start s.interpreter.config))
    else more (s.gather text)
  else more (s.gather text)

/-- All output of a session that is given lines, prompts included. -/
def run : List String → Session R → String
  | [], s => s.prompt ++ "\n"
  | text :: rest, s =>
      match s.line text with
      | (shown, none) => s.prompt ++ shown
      | (shown, some t) => s.prompt ++ shown ++ run rest t

end Session

end OpenQasm
