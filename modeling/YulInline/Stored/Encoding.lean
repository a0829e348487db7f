import YulInline.Ast.Basic
import YulInline.Json.Basic

/-!
# The stored form of a module

How a tree is written as a JSON value. Every node is an object whose members come in a fixed order
and are all present, also an empty type tag and a missing value. A node that can be of several kinds
says which one in its first member, `kind`.
-/

namespace YulInline

/-- The name of a kind of literal. -/
def LiteralKind.name : LiteralKind → String
  | .number => "Number"
  | .boolean => "Boolean"
  | .string => "String"

namespace Json

/-- A node of a named kind. -/
def ofKind (kind : String) (members : List (String × Json)) : Json :=
  .obj (("kind", .str kind) :: members)

/-- A reference to a name. -/
def ofName (name : String) : Json :=
  .obj [("name", .str name)]

end Json

/-- A declared variable as JSON. -/
def TypedName.toJson (var : TypedName) : Json :=
  .obj [("name", .str var.name), ("type_name", .str var.type)]

/-- The members of a literal. -/
def Literal.members (literal : Literal) : List (String × Json) :=
  [("literal_kind", .str literal.kind.name), ("value", .str literal.value),
    ("type_name", .str literal.type)]

/-- The literal of a case as JSON, or `null` for the default case. -/
def Literal.toJson : Option Literal → Json
  | none => .null
  | some literal => .obj literal.members

mutual

/-- An expression as JSON. -/
def Expr.toJson : Expr → Json
  | .literal value => .ofKind ExprKind.literal.name value.members
  | .ident name => .ofKind ExprKind.ident.name [("name", .str name)]
  | .instr op args =>
    .ofKind ExprKind.instr.name
      [("instruction", .str op), ("arguments", .arr (Expr.toJsons args))]
  | .call callee args =>
    .ofKind ExprKind.call.name
      [("function_name", .ofName callee), ("arguments", .arr (Expr.toJsons args))]

/-- The expressions of a list as JSON. -/
def Expr.toJsons : List Expr → List Json
  | [] => []
  | arg :: args => arg.toJson :: Expr.toJsons args

end

/-- An initial value as JSON, or `null` if it is missing. -/
def Expr.toJsonOrNull : Option Expr → Json
  | none => .null
  | some value => value.toJson

mutual

/-- A statement as JSON. -/
def Stmt.toJson : Stmt → Json
  | .expr value => .ofKind StmtKind.expression.name [("expression", value.toJson)]
  | .assign targets value =>
    .ofKind StmtKind.assignment.name
      [("variable_names", .arr (targets.map .ofName)), ("value", value.toJson)]
  | .declare vars value =>
    .ofKind StmtKind.declaration.name
      [("variables", .arr (vars.map TypedName.toJson)), ("value", Expr.toJsonOrNull value)]
  | .define ⟨name, params, returns, body⟩ =>
    .ofKind StmtKind.definition.name
      [("name", .str name), ("parameters", .arr (params.map TypedName.toJson)),
        ("return_variables", .arr (returns.map TypedName.toJson)),
        ("body", .obj [("statements", .arr (Stmt.toJsons body))])]
  | .branch condition body =>
    .ofKind StmtKind.branch.name
      [("condition", condition.toJson), ("body", .obj [("statements", .arr (Stmt.toJsons body))])]
  | .switch scrutinee cases =>
    .ofKind StmtKind.switch.name
      [("expression", scrutinee.toJson), ("cases", .arr (Case.toJsons cases))]
  | .loop init condition step body =>
    .ofKind StmtKind.loop.name
      [("pre", .obj [("statements", .arr (Stmt.toJsons init))]), ("condition", condition.toJson),
        ("post", .obj [("statements", .arr (Stmt.toJsons step))]),
        ("body", .obj [("statements", .arr (Stmt.toJsons body))])]
  | .block body => .ofKind StmtKind.block.name [("statements", .arr (Stmt.toJsons body))]

/-- The cases of a `switch` as JSON. -/
def Case.toJsons : List Case → List Json
  | [] => []
  | ⟨value, body⟩ :: cases =>
    .obj
        [("value", Literal.toJson value),
          ("body", .obj [("statements", .arr (Stmt.toJsons body))])] ::
      Case.toJsons cases

/-- The statements of a block as JSON. -/
def Stmt.toJsons : List Stmt → List Json
  | [] => []
  | stmt :: stmts => stmt.toJson :: Stmt.toJsons stmts

end

/-- A block as JSON. -/
def Block.toJson (block : Block) : Json :=
  .obj [("statements", .arr (Stmt.toJsons block))]

end YulInline
