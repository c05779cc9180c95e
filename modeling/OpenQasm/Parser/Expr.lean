import OpenQasm.Parser.Reply
import OpenQasm.Syntax.Expr

/-!
# Parsing expressions

Binary operators are read by climbing: after an operand, an operator is taken
only if it binds at least as tightly as asked for, and its right operand only
takes operators that bind tighter. A name followed by `(` or by another name is a
call, and the call takes every register after it that a comma joins on.

Every function here calls itself, through the others, only with fewer lexemes
ahead or with the same number and a lower rank.
-/
namespace OpenQasm.Parser

def binaryOp? (l : Lexeme) : Option BinaryOp :=
  match l.token with
  | .symbol s => s.binaryOp?
  | _ => none

def unaryOp? (l : Lexeme) : Option UnaryOp :=
  match l.token with
  | .symbol s => s.unaryOp?
  | _ => none

mutual

/-- An expression whose operators all bind at least as tightly as `minimum`. -/
def binary (minimum : Nat) (ts : List Lexeme) : Reply ParseError ts Expr :=
  (unary ts).andThen fun left rest _ => operators minimum left rest
termination_by 4 * ts.length + 2

/-- The operators and operands after `left`. -/
def operators (minimum : Nat) (left : Expr) : (ts : List Lexeme) → Reply ParseError ts Expr
  | [] => .pure left
  | l :: r =>
      match binaryOp? l with
      | none => .pure left
      | some op =>
          if op.precedence < minimum then .pure left
          else ((binary (op.precedence + 1) r).andThen fun right rest _ =>
            operators minimum (.binary op left right) rest).next
termination_by ts => 4 * ts.length

/-- An operand with any number of signs before it. -/
def unary : (ts : List Lexeme) → Reply ParseError ts Expr
  | [] => primary []
  | l :: r =>
      match unaryOp? l with
      | some op => ((unary r).map (.unary op)).next
      | none => primary (l :: r)
termination_by ts => 4 * ts.length + 1

/-- A literal, a constant, a register, a call, or an expression in parentheses. -/
def primary : (ts : List Lexeme) → Reply ParseError ts Expr
  | [] => reject "expression" []
  | l :: r =>
      match l.token with
      | .int text => .done (.lit ⟨.int, text⟩) r (Nat.le_succ _)
      | .float text => .done (.lit ⟨.float, text⟩) r (Nat.le_succ _)
      | .string text => .done (.lit ⟨.string, text⟩) r (Nat.le_succ _)
      | .constant c => .done (.ident c.text) r (Nat.le_succ _)
      | .ident name =>
          if startsWith .lparen r then
            ((arguments r).andThen fun params rest _ =>
              (callRegisters rest).map fun qargs => .call name [] params qargs).next
          else
            match r with
            | [] => .done (.ident name) [] (Nat.zero_le _)
            | l' :: r' =>
                match l'.token with
                | .ident _ =>
                    ((registers (l' :: r')).map fun qargs => .call name [] [] qargs).next
                | _ => (position name (l' :: r')).next
      | .symbol .lparen =>
          ((binary 0 r).andThen fun e rest _ =>
            (expect .rparen rest).map fun _ => .paren e).next
      | _ => reject "expression" (l :: r)
termination_by ts => 4 * ts.length

/-- Expressions in parentheses, possibly none. -/
def arguments : (ts : List Lexeme) → Reply ParseError ts (List Expr)
  | [] => reject "'('" []
  | l :: r =>
      if l.token = .symbol .lparen then
        if startsWith .rparen r then ((expect .rparen r).map fun _ => []).next
        else ((binary 0 r).andThen fun e rest _ =>
          (argumentTail rest).andThen fun es rest' _ =>
            (expect .rparen rest').map fun _ => e :: es).next
      else reject "'('" (l :: r)
termination_by ts => 4 * ts.length

/-- Further expressions, each after a comma. -/
def argumentTail : (ts : List Lexeme) → Reply ParseError ts (List Expr)
  | [] => .pure []
  | l :: r =>
      if l.token = .symbol .comma then
        ((binary 0 r).andThen fun e rest _ => (argumentTail rest).map (e :: ·)).next
      else .pure []
termination_by ts => 4 * ts.length

/-- What follows a register name: an index in brackets or nothing. -/
def position (name : String) : (ts : List Lexeme) → Reply ParseError ts Expr
  | [] => .pure (.ident name)
  | l :: r =>
      if l.token = .symbol .lbracket then
        ((binary 0 r).andThen fun i rest _ =>
          (expect .rbracket rest).map fun _ => .index name i).next
      else .pure (.ident name)
termination_by ts => 4 * ts.length

def register (ts : List Lexeme) : Reply ParseError ts Expr :=
  (identifier ts).andThen fun name rest _ => position name rest
termination_by 4 * ts.length + 1

/-- Further registers, each after a comma. -/
def registerTail : (ts : List Lexeme) → Reply ParseError ts (List Expr)
  | [] => .pure []
  | l :: r =>
      if l.token = .symbol .comma then
        ((register r).andThen fun e rest _ => (registerTail rest).map (e :: ·)).next
      else .pure []
termination_by ts => 4 * ts.length

def registers (ts : List Lexeme) : Reply ParseError ts (List Expr) :=
  (register ts).andThen fun e rest _ => (registerTail rest).map (e :: ·)
termination_by 4 * ts.length + 2

/-- The registers after the parentheses of a call, possibly none. -/
def callRegisters : (ts : List Lexeme) → Reply ParseError ts (List Expr)
  | [] => .pure []
  | l :: r =>
      match l.token with
      | .ident _ => registers (l :: r)
      | _ => .pure []
termination_by ts => 4 * ts.length + 3

end

def expression (ts : List Lexeme) : Reply ParseError ts Expr := binary 0 ts

/-- Where an optional list of registers may be left out. -/
def endsRegisters : List Lexeme → Bool
  | [] => true
  | l :: _ =>
      match l.token with
      | .symbol .semicolon => true
      | .symbol .arrow => true
      | .symbol .rbrace => true
      | _ => false

/-- Registers, or nothing where they may be left out. -/
def optionalRegisters (ts : List Lexeme) : Reply ParseError ts (List Expr) :=
  if endsRegisters ts then .pure [] else registers ts

/-- Arguments in parentheses, or nothing without an opening one. -/
def optionalArguments (ts : List Lexeme) : Reply ParseError ts (List Expr) :=
  if startsWith .lparen ts then arguments ts else .pure []

/-- The value side of an assignment or a return: a measurement or an expression. -/
def value : (ts : List Lexeme) → Reply ParseError ts Expr
  | [] => expression []
  | l :: r =>
      if l.token = .keyword .measure then ((optionalRegisters r).map .measure).next
      else expression (l :: r)

end OpenQasm.Parser
