import OpenQasm.Syntax.Vocabulary

/-!
# Tokens

The pieces a source text is cut into, with the name and the text each is listed
under. Blanks and comments are tokens too, so that nothing of the source is
lost; they are skipped before parsing. A character that no rule accepts becomes
an `illegal` token, never a failure.
-/
namespace OpenQasm

/-- One piece of source text. Literals and identifiers keep their text; string
literals keep it without the quotes. -/
inductive Token where
  | blank
  | comment
  | keyword (word : Keyword)
  | typeName (kind : TypeKind)
  | modifier (kind : ModifierKind)
  | builtin (gate : Builtin)
  | constant (name : MathConstant)
  | float (text : String)
  | int (text : String)
  | string (text : String)
  | ident (name : String)
  | symbol (s : Symbol)
  | illegal (text : String)
  deriving DecidableEq, Repr

namespace Token

/-- Blanks and comments carry no meaning. -/
def isTrivia : Token → Bool
  | blank => true
  | comment => true
  | _ => false

/-- The canonical text of a token. -/
def text : Token → String
  | blank => " "
  | comment => "//"
  | keyword word => word.text
  | typeName kind => kind.text
  | modifier kind => kind.text
  | builtin gate => gate.text
  | constant name => name.text
  | float s => s
  | int s => s
  | string s => "\"" ++ s ++ "\""
  | ident name => name
  | symbol s => s.text
  | illegal s => s

/-- The kind of a token in capitals, as token listings show it. -/
def label : Token → String
  | blank => "WS"
  | comment => "COMMENT"
  | keyword .openqasm => "OPENQASM"
  | keyword .includes => "INCLUDE"
  | keyword .const => "CONST"
  | keyword .gate => "GATE"
  | keyword .defn => "DEF"
  | keyword .returns => "RETURN"
  | keyword .measure => "MEASURE"
  | keyword .reset => "RESET"
  | keyword .print => "PRINT"
  | typeName .qubit => "QUBIT"
  | typeName .bit => "BIT"
  | typeName .int => "INT_TYPE"
  | typeName .uint => "UINT_TYPE"
  | typeName .float => "FLOAT_TYPE"
  | typeName .angle => "ANGLE_TYPE"
  | modifier .ctrl => "CTRL"
  | modifier .negctrl => "NEGCTRL"
  | modifier .inv => "INV"
  | modifier .pow => "POW"
  | builtin gate => gate.text
  | constant .pi => "PI"
  | constant .tau => "TAU"
  | constant .euler => "EULER"
  | float _ => "FLOAT"
  | int _ => "INT"
  | string _ => "STRING"
  | ident _ => "IDENT"
  | symbol .plus => "PLUS"
  | symbol .minus => "MINUS"
  | symbol .star => "STAR"
  | symbol .slash => "SLASH"
  | symbol .percent => "PERCENT"
  | symbol .assign => "ASSIGN"
  | symbol .arrow => "ARROW"
  | symbol .atSign => "AT"
  | symbol .lparen => "LPAREN"
  | symbol .rparen => "RPAREN"
  | symbol .lbracket => "LBRACKET"
  | symbol .rbracket => "RBRACKET"
  | symbol .lbrace => "LBRACE"
  | symbol .rbrace => "RBRACE"
  | symbol .semicolon => "SEMICOLON"
  | symbol .comma => "COMMA"
  | illegal _ => "ILLEGAL"

/-- The words that are not identifiers, with the tokens they stand for. -/
def reserved : List (String × Token) :=
  Keyword.all.map (fun k => (k.text, keyword k)) ++
  TypeKind.all.map (fun k => (k.text, typeName k)) ++
  ModifierKind.all.map (fun k => (k.text, modifier k)) ++
  Builtin.all.map (fun k => (k.text, builtin k)) ++
  MathConstant.all.map (fun k => (k.text, constant k))

/-- A whole word: a reserved word only if all of it is one. -/
def ofWord (word : String) : Token := (reserved.lookup word).getD (ident word)

end Token

end OpenQasm
