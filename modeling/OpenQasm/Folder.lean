/-!
# Folders and paths

What a path leads to when it is followed from a folder. A slash sets the steps of a
path apart: an empty step and a dot stay where they are, two dots go to the folder
around, and a name leads to a file, after which no step may follow. So a file's
name with a slash behind it leads nowhere.
-/
namespace OpenQasm

/-- What a path leads to. -/
inductive Entry where
  | missing
  /-- A file that may not be opened. -/
  | locked
  | folder
  | file (bytes : List UInt8)
  deriving DecidableEq, Repr

/-- A folder of files. It holds no other folder, and nothing is known of the files
in the folders around it. -/
structure Folder where
  files : List (String × List UInt8)
  deriving DecidableEq, Repr

namespace Folder

def get (folder : Folder) (name : String) : Entry :=
  match folder.files.lookup name with
  | some bytes => .file bytes
  | none => .missing

/-- The steps of a path, empty ones included. -/
def steps : List Char → List (List Char)
  | [] => [[]]
  | c :: cs =>
      if c = '/' then [] :: steps cs
      else match steps cs with
        | [] => [[c]]
        | step :: rest => (c :: step) :: rest

/-- Follow steps from the folder itself, if `inside`, or from one around it. -/
def follow (folder : Folder) (inside : Bool) : List (List Char) → Entry
  | [] => .folder
  | step :: rest =>
      if step = [] ∨ step = ['.'] then folder.follow inside rest
      else if step = ['.', '.'] then folder.follow false rest
      else if inside ∧ rest = [] then folder.get (String.ofList step)
      else .missing

/-- What a path leads to. One that starts with a slash starts outside the folder,
and the empty path leads nowhere. -/
def find (folder : Folder) (path : String) : Entry :=
  match path.toList with
  | [] => .missing
  | c :: cs => folder.follow (c ≠ '/') (steps (c :: cs))

end Folder

end OpenQasm
