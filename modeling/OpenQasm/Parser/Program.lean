import OpenQasm.Parser.Stmt

/-!
# Parsing programs

`Program.recover` always returns a program, with the syntax errors found on the
way; `Program.parse` returns it only if there were none. Illegal characters count
where the grammar meets them.
-/
namespace OpenQasm

/-- The statements that can be made out in a source, and its syntax errors. -/
def Program.recover (source : String) : Program × List ParseError :=
  let r := Parser.statements false true (significant source)
  (⟨r.statements⟩, r.errors)

/-- The program a source holds, or all its syntax errors. -/
def Program.parse (source : String) : Except (List ParseError) Program :=
  match Program.recover source with
  | (p, []) => .ok p
  | (_, errors) => .error errors

/-- Syntax errors, one a line. -/
def ParseError.messages (errors : List ParseError) : String :=
  "\n".intercalate (errors.map ParseError.message)

end OpenQasm
