import OpenQasm.Json
import OpenQasm.Syntax.Stmt

/-!
# Syntax trees as structured output

Every node becomes an object tagged with the name of its kind.
-/
namespace OpenQasm

def TypeKind.tag : TypeKind → String
  | qubit => "Qubit"
  | bit => "Bit"
  | int => "Int"
  | uint => "Uint"
  | float => "Float"
  | angle => "Angle"

def ModifierKind.tag : ModifierKind → String
  | ctrl => "Ctrl"
  | negctrl => "NegCtrl"
  | inv => "Inv"
  | pow => "Pow"

def Builtin.tag : Builtin → String
  | u => "U"
  | x => "X"
  | y => "Y"
  | z => "Z"
  | h => "H"
  | s => "S"
  | t => "T"
  | qft => "Qft"
  | iqft => "Iqft"
  | cmodexp2 => "CModExp2"

def BinaryOp.tag : BinaryOp → String
  | add => "Add"
  | sub => "Sub"
  | mul => "Mul"
  | div => "Div"
  | mod => "Mod"

def UnaryOp.tag : UnaryOp → String
  | neg => "Neg"
  | pos => "Pos"

def LiteralKind.tag : LiteralKind → String
  | int => "Int"
  | float => "Float"
  | string => "Str"

mutual

def Expr.toJson : Expr → Json
  | .ident name => .tagged "Ident" (.string name)
  | .index name i => .tagged "Index" (.object [("name", .string name), ("index", i.toJson)])
  | .lit l =>
      .tagged "Lit" (.object [("kind", .string l.kind.tag), ("value", .string l.text)])
  | .binary op l r =>
      .tagged "Binary"
        (.object [("op", .string op.tag), ("left", l.toJson), ("right", r.toJson)])
  | .unary op e => .tagged "Unary" (.object [("op", .string op.tag), ("operand", e.toJson)])
  | .call name ms ps qs =>
      .tagged "Call" (.object
        [("name", .string name), ("modifiers", .array (Modifier.toJsonList ms)),
          ("params", .array (Expr.toJsonList ps)), ("qargs", .array (Expr.toJsonList qs))])
  | .measure qs => .tagged "Measure" (.object [("qargs", .array (Expr.toJsonList qs))])
  | .paren e => .tagged "Paren" e.toJson

def Expr.toJsonList : List Expr → List Json
  | [] => []
  | e :: es => e.toJson :: Expr.toJsonList es

def Modifier.toJson : Modifier → Json
  | .mk kind none => .object [("kind", .string kind.tag), ("arg", .null)]
  | .mk kind (some e) => .object [("kind", .string kind.tag), ("arg", e.toJson)]

def Modifier.toJsonList : List Modifier → List Json
  | [] => []
  | m :: ms => m.toJson :: Modifier.toJsonList ms

end

def TypeSpec.toJson (t : TypeSpec) : Json :=
  .object [("kind", .string t.kind.tag), ("size", .ofOption Expr.toJson t.size)]

def TypedName.toJson (d : TypedName) : Json :=
  .object [("ty", d.type.toJson), ("name", .string d.name)]

def Json.declaration (tag : String) (content : Json) : Json :=
  .tagged "Decl" (.tagged tag content)

mutual

/-- A statement as structured output. -/
def Stmt.toJson : Stmt → Json
  | .version v => .declaration "Version" (.string v)
  | .includes path => .tagged "Include" (.string path)
  | .declare d => .declaration "Gen" d.toJson
  | .const type name value =>
      .declaration "Const" (.object
        [("ty", .ofOption TypeSpec.toJson type), ("name", .string name),
          ("value", value.toJson)])
  | .gate name ps qs body =>
      .declaration "Gate" (.object
        [("name", .string name), ("params", .array (ps.map .string)),
          ("qargs", .array (qs.map .string)),
          ("body", .tagged "stmts" (.array (Stmt.toJsonList body)))])
  | .subroutine name ps qs result body =>
      .declaration "Subroutine" (.object
        [("name", .string name), ("params", .array (ps.map TypedName.toJson)),
          ("qargs", .array (qs.map .string)), ("ret", .ofOption TypeSpec.toJson result),
          ("body", .tagged "stmts" (.array (Stmt.toJsonList body)))])
  | .returns value => .tagged "Return" (.ofOption Expr.toJson value)
  | .arrow value target =>
      .tagged "Arrow" (.object [("left", value.toJson), ("right", target.toJson)])
  | .assign target value =>
      .tagged "Assign" (.object [("left", target.toJson), ("right", value.toJson)])
  | .reset qs => .tagged "Reset" (.array (qs.map Expr.toJson))
  | .print es => .tagged "Print" (.array (es.map Expr.toJson))
  | .apply g ms ps qs =>
      .tagged "Apply" (.object
        [("kind", .string g.tag), ("modifiers", .array (ms.map Modifier.toJson)),
          ("params", .array (ps.map Expr.toJson)), ("qargs", .array (qs.map Expr.toJson))])
  | .expr e => .tagged "Expr" e.toJson
  | .block body => .tagged "Block" (.tagged "stmts" (.array (Stmt.toJsonList body)))

def Stmt.toJsonList : List Stmt → List Json
  | [] => []
  | s :: ss => s.toJson :: Stmt.toJsonList ss

end

def Program.toJson (p : Program) : Json :=
  .tagged "statements" (.array (p.statements.map Stmt.toJson))

end OpenQasm
