import OpenQasm.Folder
import OpenQasm.Session
import OpenQasm.Source
import OpenQasm.Syntax.Tree

/-!
# The command line

Commands as functions: arguments are read into a `Command`, and a command is given
what paths lead to and the standard input, and answers with an exit code and what
it writes. Only the outermost program touches the system.
-/
namespace OpenQasm

/-- What the command line asks for. -/
inductive Command where
  | lex (file : String)
  | parse (file : String) (json : Bool)
  | run (file : String) (config : Config) (json : Bool)
  | repl (config : Config)
  | version
  /-- Only the name and the number of the version. -/
  | versionNumber

/-- What a command ends with. -/
structure Outcome where
  code : Nat
  stdout : String
  stderr : String
  deriving DecidableEq, Repr

namespace Outcome

def success (stdout : String) : Outcome := ⟨0, stdout, ""⟩

/-- Failure with an error message, after some output and complaints. -/
def failure (stdout complaints message : String) : Outcome :=
  ⟨1, stdout, complaints ++ "Error: " ++ message ++ "\n"⟩

end Outcome

namespace Command

/-- Options and files found on a command line. -/
structure Arguments where
  files : List String := []
  json : Bool := false
  config : Config := {}

def setOption (name text : String) (a : Arguments) : Option Arguments := do
  let n ← Decimal.readNat? (Nat.pow 2 64) text
  match name with
  | "--seed" => return { a with config := { a.config with seed := UInt64.ofNat n } }
  | "--max-depth" => return { a with config := { a.config with maxDepth := n } }
  | "--max-qubits" => return { a with config := { a.config with maxQubits := n } }
  | "--max-unroll" => return { a with config := { a.config with maxUnroll := n } }
  | _ => none

def takesNumber (name : String) : Bool :=
  name ∈ ["--seed", "--max-depth", "--max-qubits", "--max-unroll"]

/-- An option and its number, written in one word with an equals sign. -/
def splitOption (word : String) : Option (String × String) :=
  let cs := word.toList
  let name := cs.takeWhile (· ≠ '=')
  match cs.drop name.length with
  | '=' :: value => some (String.ofList name, String.ofList value)
  | _ => none

/-- Whether a word asks for more log output, which has no effect here. -/
def isVerbosity (word : String) : Bool :=
  word = "--verbose" || match word.toList with
    | '-' :: 'v' :: cs => cs.all (· = 'v')
    | _ => false

/-- Whether a word is an option. A dash alone is a file. -/
def isOption (word : String) : Bool := word.toList.head? = some '-' && word ≠ "-"

/-- Read options and files. Two dashes end the options: every word after them is a
file. -/
def readArguments : List String → Arguments → Option Arguments
  | [], a => some a
  | word :: words, a =>
      if word = "--" then some { a with files := a.files ++ words }
      else if isVerbosity word then readArguments words a
      else if word = "--json" then readArguments words { a with json := true }
      else if takesNumber word then
        match words with
        | [] => none
        | value :: rest => (setOption word value a).bind (readArguments rest)
      else if isOption word then
        match splitOption word with
        | some (name, value) => (setOption name value a).bind (readArguments words)
        | none => none
      else readArguments words { a with files := a.files ++ [word] }

/-- Read a command line. An empty word names no file. -/
def ofWords : List String → Option Command
  | [] => none
  | word :: words =>
      if isVerbosity word then ofWords words
      else if word = "--version" ∨ word = "-V" then some versionNumber
      else do
        let a ← readArguments words {}
        if "" ∈ a.files then none
        else match word, a.files with
          | "lex", [file] => return lex file
          | "parse", [file] => return parse file a.json
          | "run", [file] => return run file a.config a.json
          | "repl", [] => return repl a.config
          | "version", [] => return version
          | _, _ => none

/-- The text of a file, or why it cannot be had. -/
def readFile (find : String → Entry) (file : String) : Except String String :=
  let unreadable (e : LexError) :=
    Except.error (": ".intercalate (s!"Failed to read file: {file}" :: e.chain))
  match find file with
  | .missing => .error s!"File not found: {file}"
  | .locked => .error s!"Failed to open file: {file}: Permission denied (os error 13)"
  | .folder => unreadable (.unreadable .isFolder)
  | .file bytes =>
      match readSource bytes with
      | (text, []) => .ok text
      | (_, e :: _) => unreadable e

def loadProgram (find : String → Entry) (file : String) : Except String Program := do
  match Program.parse (← readFile find file) with
  | .ok p => return p
  | .error errors =>
      throw ("Parse failed with " ++ toString errors.length ++ " error(s):\n" ++
        ParseError.messages errors)

def listTokens (source : String) : Outcome :=
  let listing := String.join ((significant source).map fun l =>
    l.token.label ++ " " ++ l.token.text ++ "\n") ++ "EOF\n"
  match lexErrors source with
  | [] => .success listing
  | errors =>
      .failure listing (String.join (errors.map fun e => "✗ " ++ e.message ++ "\n"))
        (toString errors.length ++ " lexer error(s)")

/-- A snapshot with the sizes of its qubit registers before it. -/
def snapshotText (s : Snapshot Float) : String :=
  let sizes := s.qubits.map fun v => v.name ++ "[" ++ toString v.qubits.length ++ "]"
  (if sizes.isEmpty then "" else "qubits: " ++ " ".intercalate sizes ++ "\n") ++ s.text

/-- Run a program and show its snapshots and its final state. -/
def runProgram (p : Program) (config : Config) (json : Bool) : Outcome :=
  let (result, i) := (Interpreter.simulate config).program p
  let (output, final) := i.takeOutput
  let shown := if json then "" else String.join (output.map snapshotText)
  match result with
  | .error e => .failure shown "" (": ".intercalate ("Evaluation failed" :: e.chain))
  | .ok () =>
      if json then
        .success ((Json.object [("output", .array (output.map Snapshot.toJson)),
          ("final_state", final.snapshot.toJson)]).pretty ++ "\n")
      else .success (shown ++ "→ Final state\n" ++ snapshotText final.snapshot)

def versionText : String :=
  "qasmi v1.9.5 - OpenQASM 3 subset interpreter\n\nComponents:\n" ++
  "  qasmi-qasm3        Lexer, parser and syntax tree\n" ++
  "  qasmi-eval         Environment and evaluator\n" ++
  "  qasmi-hal          Backend abstraction and gate matrices\n" ++
  "  qasmi-adapter-sim  Statevector simulator\n" ++
  "  qasmi-cli          Command-line interface\n\n" ++
  "Repository: https://github.com/hiq-lab/qasmi\n" ++
  "License:    Apache-2.0\n"

/-- The answer to a command line that cannot be read. -/
def usage : Outcome := ⟨2, "", "Usage: qasmi [OPTIONS] <COMMAND>\n"⟩

def execute (find : String → Entry) (stdin : String) : Command → Outcome
  | lex file =>
      match readFile find file with
      | .ok source => listTokens source
      | .error message => .failure "" "" message
  | parse file json =>
      match loadProgram find file with
      | .ok p => .success (if json then p.toJson.pretty ++ "\n" else p.text)
      | .error message => .failure "" "" message
  | run file config json =>
      match loadProgram find file with
      | .ok p => runProgram p config json
      | .error message => .failure "" "" message
  | repl config => .success ((Session.start config : Session Float).run (Text.lines stdin))
  | version => .success versionText
  | versionNumber => .success "qasmi 1.9.5\n"

def executeWords (find : String → Entry) (stdin : String) (words : List String) : Outcome :=
  match ofWords words with
  | some c => c.execute find stdin
  | none => usage

end Command

end OpenQasm
