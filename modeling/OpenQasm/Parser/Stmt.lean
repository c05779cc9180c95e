import OpenQasm.Parser.Expr
import OpenQasm.Syntax.Stmt

/-!
# Parsing statements

The first token of a statement decides what it is. Parsing does not stop at an
error: the error is noted, lexemes are skipped up to the next place where a
statement can end or a declaration can begin, and parsing goes on from there, in
blocks as at the top level. So one pass reports every independent error and still
returns the statements around the broken ones.
-/
namespace OpenQasm.Parser

/-- A type, after its name: an optional size in brackets. -/
def typeSize (kind : TypeKind) (ts : List Lexeme) : Reply ParseError ts TypeSpec :=
  if startsWith .lbracket ts then
    (expect .lbracket ts).andThen fun _ rest _ =>
      (expression rest).andThen fun e rest' _ =>
        (expect .rbracket rest').map fun _ => ⟨kind, some e⟩
  else .pure ⟨kind, none⟩

/-- A type. -/
def typeSpec : (ts : List Lexeme) → Reply ParseError ts TypeSpec
  | [] => reject "type" []
  | l :: r =>
      match l.token with
      | .typeName kind => (typeSize kind r).next
      | _ => reject "type" (l :: r)

def typedName (ts : List Lexeme) : Reply ParseError ts TypedName :=
  (typeSpec ts).andThen fun type rest _ => (identifier rest).map fun name => ⟨type, name⟩

/-- Further typed names, each after a comma. -/
def typedNameTail : (ts : List Lexeme) → Reply ParseError ts (List TypedName)
  | [] => .pure []
  | l :: r =>
      if l.token = .symbol .comma then
        ((typedName r).andThen fun d rest _ => (typedNameTail rest).map (d :: ·)).next
      else .pure []
termination_by ts => ts.length

/-- Typed names up to a closing parenthesis, possibly none. -/
def signature (ts : List Lexeme) : Reply ParseError ts (List TypedName) :=
  if startsWith .rparen ts then (expect .rparen ts).map fun _ => []
  else (typedName ts).andThen fun d rest _ =>
    (typedNameTail rest).andThen fun ds rest' _ =>
      (expect .rparen rest').map fun _ => d :: ds

/-- Names in parentheses, or nothing without an opening one. -/
def optionalNames (ts : List Lexeme) : Reply ParseError ts (List String) :=
  if startsWith .lparen ts then
    (expect .lparen ts).andThen fun _ rest _ =>
      if startsWith .rparen rest then (expect .rparen rest).map fun _ => []
      else (identifiers rest).andThen fun names rest' _ =>
        (expect .rparen rest').map fun _ => names
  else .pure []

/-- A modifier, after its word: an optional argument, which `pow` requires, and `@`. -/
def modifierTail (kind : ModifierKind) (ts : List Lexeme) : Reply ParseError ts Modifier :=
  if startsWith .lparen ts then
    (expect .lparen ts).andThen fun _ rest _ =>
      (expression rest).andThen fun e rest' _ =>
        (expect .rparen rest').andThen fun _ rest'' _ =>
          (expect .atSign rest'').map fun _ => .mk kind (some e)
  else if kind = .pow then reject "'(' after pow" ts
  else (expect .atSign ts).map fun _ => .mk kind none

/-- Any number of modifiers. -/
def modifiers : (ts : List Lexeme) → Reply ParseError ts (List Modifier)
  | [] => .pure []
  | l :: r =>
      match l.token with
      | .modifier kind =>
          ((modifierTail kind r).andThen fun m rest _ => (modifiers rest).map (m :: ·)).next
      | _ => .pure []
termination_by ts => ts.length

/-- The end of a statement that starts with a value: an optional target, then `;`. -/
def finishValue (e : Expr) (ts : List Lexeme) : Reply ParseError ts Stmt :=
  if startsWith .arrow ts then
    (expect .arrow ts).andThen fun _ rest _ =>
      (register rest).andThen fun target rest' _ =>
        (expect .semicolon rest').map fun _ => .arrow e target
  else (expect .semicolon ts).map fun _ => .expr e

/-- A built-in gate, after its word. -/
def applyTail (ms : List Modifier) (gate : Builtin) (ts : List Lexeme) :
    Reply ParseError ts Stmt :=
  (optionalArguments ts).andThen fun params rest _ =>
    (registers rest).andThen fun qargs rest' _ =>
      (expect .semicolon rest').map fun _ => .apply gate ms params qargs

/-- A call, after its name. -/
def callTail (ms : List Modifier) (name : String) (ts : List Lexeme) :
    Reply ParseError ts Stmt :=
  (optionalArguments ts).andThen fun params rest _ =>
    (optionalRegisters rest).andThen fun qargs rest' _ =>
      finishValue (.call name ms params qargs) rest'

/-- A gate application, after its modifiers. -/
def gateStatement (ms : List Modifier) : (ts : List Lexeme) → Reply ParseError ts Stmt
  | [] => reject "gate name" []
  | l :: r =>
      match l.token with
      | .builtin gate => (applyTail ms gate r).next
      | .ident name => (callTail ms name r).next
      | _ => reject "identifier" (l :: r)

def versionTail : (ts : List Lexeme) → Reply ParseError ts Stmt
  | [] => reject "version number" []
  | l :: r =>
      match l.token with
      | .float v => ((expect .semicolon r).map fun _ => .version v).next
      | .int v => ((expect .semicolon r).map fun _ => .version v).next
      | t => .fail (.invalidVersion l.line t.text) (l :: r) (Nat.le_refl _)

def includeTail : (ts : List Lexeme) → Reply ParseError ts Stmt
  | [] => reject "string literal" []
  | l :: r =>
      match l.token with
      | .string path => ((expect .semicolon r).map fun _ => .includes path).next
      | _ => reject "string literal" (l :: r)

def optionalType : (ts : List Lexeme) → Reply ParseError ts (Option TypeSpec)
  | [] => .pure none
  | l :: r =>
      match l.token with
      | .typeName kind => ((typeSize kind r).map some).next
      | _ => .pure none

def constTail (ts : List Lexeme) : Reply ParseError ts Stmt :=
  (optionalType ts).andThen fun type rest _ =>
    (identifier rest).andThen fun name rest' _ =>
      (expect .assign rest').andThen fun _ rest'' _ =>
        (expression rest'').andThen fun e rest''' _ =>
          (expect .semicolon rest''').map fun _ => .const type name e

/-- A register or variable declaration, after the word of its type. -/
def declareTail (kind : TypeKind) (ts : List Lexeme) : Reply ParseError ts Stmt :=
  (typeSize kind ts).andThen fun type rest _ =>
    (identifier rest).andThen fun name rest' _ =>
      (expect .semicolon rest').map fun _ => .declare ⟨type, name⟩

def returnTail (ts : List Lexeme) : Reply ParseError ts Stmt :=
  if startsWith .semicolon ts then (expect .semicolon ts).map fun _ => .returns none
  else (value ts).andThen fun e rest _ =>
    (expect .semicolon rest).map fun _ => .returns (some e)

def resetTail (ts : List Lexeme) : Reply ParseError ts Stmt :=
  (registers ts).andThen fun qargs rest _ =>
    (expect .semicolon rest).map fun _ => .reset qargs

def printTail (ts : List Lexeme) : Reply ParseError ts Stmt :=
  if startsWith .semicolon ts then (expect .semicolon ts).map fun _ => .print []
  else (registers ts).andThen fun args rest _ =>
    (expect .semicolon rest).map fun _ => .print args

def measureTail (ts : List Lexeme) : Reply ParseError ts Stmt :=
  (optionalRegisters ts).andThen fun qargs rest _ => finishValue (.measure qargs) rest

/-- An assignment, after the name of its target. -/
def assignTail (name : String) (ts : List Lexeme) : Reply ParseError ts Stmt :=
  (position name ts).andThen fun target rest _ =>
    (expect .assign rest).andThen fun _ rest' _ =>
      (value rest').andThen fun e rest'' _ =>
        (expect .semicolon rest'').map fun _ => .assign target e

def gateHeader (ts : List Lexeme) :
    Reply ParseError ts (String × List String × List String) :=
  (identifier ts).andThen fun name rest _ =>
    (optionalNames rest).andThen fun params rest' _ =>
      (identifiers rest').map fun qargs => (name, params, qargs)

/-- Untyped qubit arguments after a signature, possibly none. -/
def optionalIdentifiers : (ts : List Lexeme) → Reply ParseError ts (List String)
  | [] => .pure []
  | l :: r =>
      match l.token with
      | .ident _ => identifiers (l :: r)
      | _ => .pure []

/-- The result type after an arrow, or nothing without one. -/
def optionalResult (ts : List Lexeme) : Reply ParseError ts (Option TypeSpec) :=
  if startsWith .arrow ts then
    (expect .arrow ts).andThen fun _ rest _ => (typeSpec rest).map some
  else .pure none

def subroutineHeader (ts : List Lexeme) :
    Reply ParseError ts (String × List TypedName × List String × Option TypeSpec) :=
  (identifier ts).andThen fun name rest _ =>
    (expect .lparen rest).andThen fun _ rest' _ =>
      (signature rest').andThen fun params rest'' _ =>
        (optionalIdentifiers rest'').andThen fun qargs rest''' _ =>
          (optionalResult rest''').map fun result => (name, params, qargs, result)

/-- Whether a declaration or the end of a block starts here, so that skipping stops. -/
def isBoundary (l : Lexeme) : Bool :=
  match l.token with
  | .symbol .rbrace => true
  | .keyword .openqasm => true
  | .keyword .includes => true
  | .keyword .const => true
  | .keyword .gate => true
  | .keyword .defn => true
  | .typeName .qubit => true
  | .typeName .bit => true
  | _ => false

/-- Skip past the next `;`, or up to a boundary. -/
def skip : List Lexeme → List Lexeme
  | [] => []
  | l :: r =>
      if l.token = .symbol .semicolon then r
      else if isBoundary l then l :: r
      else skip r

theorem skip_length_le (ts : List Lexeme) : (skip ts).length ≤ ts.length := by
  induction ts with
  | nil => exact Nat.le_refl _
  | cons l r ih =>
      rw [skip]
      split
      · exact Nat.le_succ _
      · split
        · exact Nat.le_refl _
        · exact Nat.le_succ_of_le ih

/-- Where to go on when no statement starts at `l`: it is dropped, and a `;` or `}`
is all that is dropped. -/
def skipFrom (l : Lexeme) (r : List Lexeme) : List Lexeme :=
  if l.token = .symbol .semicolon || l.token = .symbol .rbrace then r else skip r

theorem skipFrom_length_le (l : Lexeme) (r : List Lexeme) :
    (skipFrom l r).length ≤ r.length := by
  unfold skipFrom
  split
  · exact Nat.le_refl _
  · exact skip_length_le r

/-- Statements, the errors among them, and the lexemes left. -/
structure Recovered (ts : List Lexeme) where
  statements : List Stmt
  errors : List ParseError
  rest : List Lexeme
  le : rest.length ≤ ts.length

/-- A reply whose value comes with the errors noted on the way. -/
abbrev Noted (ts : List Lexeme) (α : Type) :=
  Reply (List ParseError) ts (α × List ParseError)

/-- A reply on the way to which nothing was noted. -/
def Reply.noted {ts : List Lexeme} {α : Type} (r : Reply ParseError ts α) : Noted ts α :=
  (r.map fun a => (a, [])).mapError fun e => [e]

def isVersion : Stmt → Bool
  | .version _ => true
  | _ => false

mutual

/-- The rest of a statement that starts with the token of `l`, or `none` if no
statement does. -/
def statement (l : Lexeme) (ts : List Lexeme) : Option (Noted ts Stmt) :=
  match l.token with
  | .keyword .openqasm => some (versionTail ts).noted
  | .keyword .includes => some (includeTail ts).noted
  | .keyword .const => some (constTail ts).noted
  | .keyword .gate =>
      some (((gateHeader ts).mapError fun e => [e]).andThen fun (name, params, qargs) rest _ =>
        (body rest).map fun (stmts, errors) => (.gate name params qargs stmts, errors))
  | .keyword .defn =>
      some (((subroutineHeader ts).mapError fun e => [e]).andThen
        fun (name, params, qargs, result) rest _ =>
          (body rest).map fun (stmts, errors) =>
            (.subroutine name params qargs result stmts, errors))
  | .keyword .returns => some (returnTail ts).noted
  | .keyword .reset => some (resetTail ts).noted
  | .keyword .print => some (printTail ts).noted
  | .keyword .measure => some (measureTail ts).noted
  | .symbol .lbrace =>
      some ((block ts).map fun (stmts, errors) => (.block stmts, errors))
  | .typeName kind => some (declareTail kind ts).noted
  | .modifier kind =>
      some (((modifierTail kind ts).andThen fun m rest _ =>
        (modifiers rest).andThen fun ms rest' _ => gateStatement (m :: ms) rest').noted)
  | .builtin gate => some (applyTail [] gate ts).noted
  | .ident name =>
      if startsWith .assign ts || startsWith .lbracket ts then some (assignTail name ts).noted
      else some (callTail [] name ts).noted
  | _ => none
termination_by 4 * ts.length + 3

def body : (ts : List Lexeme) → Noted ts (List Stmt)
  | [] => (reject "'\x7b'" []).noted
  | l :: r =>
      if l.token = .symbol .lbrace then (block r).next
      else (reject "'\x7b'" (l :: r)).noted
termination_by ts => 4 * ts.length

/-- The statements after an opening brace, and the closing one. -/
def block (ts : List Lexeme) : Noted ts (List Stmt) :=
  let inner := statements true false ts
  ((expect .rbrace inner.rest).map fun _ => (inner.statements, inner.errors)).mapError
    (fun e => inner.errors ++ [e]) |>.later inner.le
termination_by 4 * ts.length + 2

/-- Statements up to the end, or in a block up to its closing brace. A version
declaration is accepted only where `opening` allows it. -/
def statements (inBlock opening : Bool) : (ts : List Lexeme) → Recovered ts
  | [] => ⟨[], [], [], Nat.le_refl _⟩
  | l :: r =>
      if inBlock && l.token = .symbol .rbrace then ⟨[], [], l :: r, Nat.le_refl _⟩
      else
        match statement l r with
        | none =>
            let next := statements inBlock opening (skipFrom l r)
            ⟨next.statements, unexpected "statement" (l :: r) :: next.errors, next.rest,
              Nat.le_trans next.le (Nat.le_succ_of_le (skipFrom_length_le l r))⟩
        | some (.fail errors rest h) =>
            let next := statements inBlock opening (skip rest)
            ⟨next.statements, errors ++ next.errors, next.rest,
              Nat.le_trans next.le (Nat.le_succ_of_le (Nat.le_trans (skip_length_le rest) h))⟩
        | some (.done (stmt, errors) rest h) =>
            if isVersion stmt && !opening then
              let next := statements inBlock opening rest
              ⟨next.statements, errors ++ .misplacedVersion l.line :: next.errors, next.rest,
                Nat.le_trans next.le (Nat.le_succ_of_le h)⟩
            else
              let next := statements inBlock false rest
              ⟨stmt :: next.statements, errors ++ next.errors, next.rest,
                Nat.le_trans next.le (Nat.le_succ_of_le h)⟩
termination_by ts => 4 * ts.length + 1
decreasing_by
  all_goals simp only [List.length_cons] at *
  · omega
  · have := skipFrom_length_le l r; omega
  · have := skip_length_le rest; omega
  · omega
  · omega

end

end OpenQasm.Parser
