import OpenQasm.Command

/-!
# The program

Attaches the command line to the system: files, standard input and output.
-/
namespace OpenQasm

/-- The number by which the system says that a path leads to a folder. -/
def folderCode : UInt32 := 21

def find (path : String) : IO Entry := do
  try
    return .file (← IO.FS.readBinFile path).toList
  catch
    | .inappropriateType _ code _ => return if code = folderCode then .folder else .missing
    | .permissionDenied .. => return .locked
    | _ => return .missing

/-- Feed a session with lines until it is over. -/
partial def interact (session : Session Float) : IO Unit := do
  let output ← IO.getStdout
  output.putStr session.prompt
  output.flush
  let text ← (← IO.getStdin).getLine
  if text.isEmpty then output.putStr "\n"
  else
    match session.line text with
    | (shown, none) => output.putStr shown
    | (shown, some next) =>
        output.putStr shown
        interact next

end OpenQasm

def main (words : List String) : IO UInt32 := do
  match OpenQasm.Command.ofWords words with
  | some (.repl config) =>
      OpenQasm.interact (.start config)
      return 0
  | _ =>
      let found ← words.mapM fun w => do return (w, ← OpenQasm.find w)
      let outcome :=
        OpenQasm.Command.executeWords (fun w => (found.lookup w).getD .missing) "" words
      IO.print outcome.stdout
      IO.eprint outcome.stderr
      return UInt32.ofNat outcome.code
