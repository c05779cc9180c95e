import OpenQasm.Syntax.Stmt
import OpenQasm.Token

/-!
# Canonical text

A tree is first laid out as a list of pieces, tokens and the gaps between them,
and the pieces are then written one after the other. A statement stands on one
line and a program has one statement a line. An operand gets parentheses exactly
where the shape of the tree would otherwise be lost: on the left of an operator
that binds tighter, on the right of one that binds at least as tightly, and
always after a sign.
-/
namespace OpenQasm

/-- A piece of canonical text. -/
inductive Piece where
  | word (t : Token)
  /-- A string literal. There are no escapes, so a text with a double quote is
  written between single ones. -/
  | quoted (text : String)
  | gap
  deriving DecidableEq, Repr

def Piece.text : Piece → String
  | word t => t.text
  | quoted s => if s.toList.contains '"' then "'" ++ s ++ "'" else "\"" ++ s ++ "\""
  | gap => " "

/-- The text of pieces in a row. -/
def Piece.join (ps : List Piece) : String := String.join (ps.map Piece.text)

namespace Layout

def sym (s : Symbol) : Piece := .word (.symbol s)

/-- A name, which may be a reserved word. -/
def named (n : String) : Piece := .word (Token.ofWord n)

/-- A number: an integer if it has digits only. -/
def number (text : String) : Piece :=
  .word (if text.toList.all Char.isDigit then .int text else .float text)

def literal (l : Literal) : Piece :=
  match l.kind with
  | .int => .word (.int l.text)
  | .float => .word (.float l.text)
  | .string => .quoted l.text

/-- Pieces between round brackets, if they are wanted. -/
def parens (wanted : Bool) (ps : List Piece) : List Piece :=
  if wanted then sym .lparen :: ps ++ [sym .rparen] else ps

def names : List String → List Piece
  | [] => []
  | n :: ns => named n :: ns.flatMap fun m => [sym .comma, .gap, named m]

end Layout

open Layout

/-- Signs bind tighter than every binary operator. -/
def UnaryOp.precedence : Nat := 3

/-- Whether an expression is a binary one that binds less tightly than `p`. -/
def Expr.looser (p : Nat) : Expr → Bool
  | binary op _ _ => op.precedence < p
  | _ => false

mutual

def Expr.layout : Expr → List Piece
  | .ident n => [named n]
  | .index n i => named n :: sym .lbracket :: (i.layout ++ [sym .rbracket])
  | .lit l => [literal l]
  | .binary op l r =>
      parens (l.looser op.precedence) l.layout ++
        .gap :: sym op.symbol :: .gap :: parens (r.looser (op.precedence + 1)) r.layout
  | .unary op e => sym op.symbol :: parens (e.looser UnaryOp.precedence) e.layout
  | .call n ms ps qs =>
      Modifier.layoutAll ms ++ named n ::
        (parens (!ps.isEmpty || qs.isEmpty) (Expr.layoutList ps) ++ Expr.layoutSuffix qs)
  | .measure qs => .word (.keyword .measure) :: Expr.layoutSuffix qs
  | .paren e => parens true e.layout

def Expr.layoutList : List Expr → List Piece
  | [] => []
  | e :: es => e.layout ++ Expr.layoutTail es

/-- Expressions, each after a comma. -/
def Expr.layoutTail : List Expr → List Piece
  | [] => []
  | e :: es => sym .comma :: .gap :: (e.layout ++ Expr.layoutTail es)

/-- Expressions separated by commas, with a gap before them if there are any. -/
def Expr.layoutSuffix : List Expr → List Piece
  | [] => []
  | e :: es => .gap :: (e.layout ++ Expr.layoutTail es)

def Modifier.layout : Modifier → List Piece
  | .mk kind none => [.word (.modifier kind)]
  | .mk kind (some e) => .word (.modifier kind) :: parens true e.layout

/-- Modifiers, each with an `@` after it. -/
def Modifier.layoutAll : List Modifier → List Piece
  | [] => []
  | m :: ms => m.layout ++ .gap :: sym .atSign :: .gap :: Modifier.layoutAll ms

end

def Expr.text (e : Expr) : String := Piece.join e.layout

def Modifier.text (m : Modifier) : String := Piece.join m.layout

def TypeSpec.layout (t : TypeSpec) : List Piece :=
  .word (.typeName t.kind) :: match t.size with
    | none => []
    | some e => sym .lbracket :: (e.layout ++ [sym .rbracket])

def TypedName.layout (d : TypedName) : List Piece := d.type.layout ++ [.gap, named d.name]

def TypedName.layoutList : List TypedName → List Piece
  | [] => []
  | d :: ds => d.layout ++ ds.flatMap fun e => sym .comma :: .gap :: e.layout

mutual

/-- The pieces of a statement. -/
def Stmt.layout : Stmt → List Piece
  | .version v => [.word (.keyword .openqasm), .gap, number v, sym .semicolon]
  | .includes path => [.word (.keyword .includes), .gap, .quoted path, sym .semicolon]
  | .declare d => d.layout ++ [sym .semicolon]
  | .const type n e =>
      .word (.keyword .const) :: .gap ::
        ((match type with
          | none => []
          | some t => t.layout ++ [.gap]) ++
        named n :: .gap :: sym .assign :: .gap :: (e.layout ++ [sym .semicolon]))
  | .gate n ps qs body =>
      .word (.keyword .gate) :: .gap :: named n ::
        ((if ps.isEmpty then [] else parens true (names ps)) ++
          .gap :: (names qs ++ .gap :: sym .lbrace :: Stmt.layoutBody body))
  | .subroutine n ps qs result body =>
      .word (.keyword .defn) :: .gap :: named n ::
        (parens true (TypedName.layoutList ps) ++
          ((if qs.isEmpty then [] else .gap :: names qs) ++
          ((match result with
            | none => []
            | some t => .gap :: sym .arrow :: .gap :: t.layout) ++
          .gap :: sym .lbrace :: Stmt.layoutBody body)))
  | .returns none => [.word (.keyword .returns), sym .semicolon]
  | .returns (some e) => .word (.keyword .returns) :: .gap :: (e.layout ++ [sym .semicolon])
  | .arrow e target =>
      e.layout ++ .gap :: sym .arrow :: .gap :: (target.layout ++ [sym .semicolon])
  | .assign target e =>
      target.layout ++ .gap :: sym .assign :: .gap :: (e.layout ++ [sym .semicolon])
  | .reset qs => .word (.keyword .reset) :: (Expr.layoutSuffix qs ++ [sym .semicolon])
  | .print es => .word (.keyword .print) :: (Expr.layoutSuffix es ++ [sym .semicolon])
  | .apply g ms ps qs =>
      Modifier.layoutAll ms ++ .word (.builtin g) ::
        ((if ps.isEmpty then [] else parens true (Expr.layoutList ps)) ++
          (Expr.layoutSuffix qs ++ [sym .semicolon]))
  | .expr e => e.layout ++ [sym .semicolon]
  | .block body => sym .lbrace :: Stmt.layoutBody body

/-- The statements of a body, each after a gap, and the closing brace. -/
def Stmt.layoutBody : List Stmt → List Piece
  | [] => [.gap, sym .rbrace]
  | s :: ss => .gap :: (s.layout ++ Stmt.layoutBody ss)

end

def Stmt.text (s : Stmt) : String := Piece.join s.layout

def Program.text (p : Program) : String :=
  String.join (p.statements.map fun s => s.text ++ "\n")

end OpenQasm
