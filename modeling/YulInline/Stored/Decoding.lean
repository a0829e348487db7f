import YulInline.Json.Reader
import YulInline.Json.Writer
import YulInline.Stored.Encoding
import YulInline.Stored.Record

/-!
# Reading the stored form

A tree from its JSON value. Nodes are records (`Json.record?`). The kind of a node may be given by
its position in the list of kinds, except that the statements directly in the root block have to
name theirs. A type tag that is left out is empty, and an initial value or case value that is left
out is missing.

A module is stored as the indented JSON of its root block, with a line feed at the end. Reading
accepts every JSON text that decodes to a module and is nested to depth 127 at most. Members of the
root object other than its statements are skipped.
-/

namespace YulInline

open Json (Field KindForm record? kindAndRecord? kind?)

/-- The field of a type tag. -/
def Json.Field.typeTag : Field :=
  .optional "type_name" (.str "")

/-- The kinds of literal. -/
def LiteralKind.all : List LiteralKind :=
  [.number, .boolean, .string]

/-- The kinds of expression, in the order that an index refers to. -/
def ExprKind.all : List ExprKind :=
  [.literal, .ident, .instr, .call]

/-- The kinds of statement, in the order that an index refers to. -/
def StmtKind.all : List StmtKind :=
  [.expression, .assignment, .declaration, .definition, .branch, .switch, .loop, .block]

/-- The kind of a literal: its name, or an object with that name as only key and no content. -/
def LiteralKind.ofJson? : Json → Option LiteralKind
  | .obj [(key, .null)] => kind? .name LiteralKind.name LiteralKind.all (.str key)
  | .obj [(key, .obj [])] => kind? .name LiteralKind.name LiteralKind.all (.str key)
  | value => kind? .name LiteralKind.name LiteralKind.all value

/-- A literal. -/
def Literal.ofJson? (json : Json) : Option Literal := do
  match ← record? [.required "literal_kind", .required "value", .typeTag] json with
  | [kind, value, type] => return ⟨← LiteralKind.ofJson? kind, ← value.str?, ← type.str?⟩
  | _ => none

/-- The literal of a case; `null` stands for the default case. -/
def Literal.ofJsonOrNull? : Json → Option (Option Literal)
  | .null => some none
  | json => (Literal.ofJson? json).map some

/-- A declared variable. -/
def TypedName.ofJson? (json : Json) : Option TypedName := do
  match ← record? [.required "name", .typeTag] json with
  | [name, type] => return ⟨← name.str?, ← type.str?⟩
  | _ => none

/-- A list of declared variables. -/
def TypedName.listOfJson? (json : Json) : Option (List TypedName) := do
  (← json.items?).mapM TypedName.ofJson?

/-- A reference to a name. -/
def Json.name? (json : Json) : Option String := do
  match ← record? [.required "name"] json with
  | [name] => name.str?
  | _ => none

/-- An expression that is nested to depth `fuel` at most. -/
def Expr.ofJsonWith? : Nat → Json → Option Expr
  | 0, _ => none
  | fuel + 1, json => do
    let (kind, content) ← kindAndRecord? json
    match ← kind? .nameOrIndex ExprKind.name ExprKind.all kind with
    | .literal => return .literal (← Literal.ofJson? content)
    | .ident => return .ident (← content.name?)
    | .instr =>
      match ← record? [.required "instruction", .required "arguments"] content with
      | [op, args] =>
        return .instr (← op.str?) (← (← args.items?).mapM (Expr.ofJsonWith? fuel))
      | _ => none
    | .call =>
      match ← record? [.required "function_name", .required "arguments"] content with
      | [callee, args] =>
        return .call (← callee.name?) (← (← args.items?).mapM (Expr.ofJsonWith? fuel))
      | _ => none

/-- An expression. -/
def Expr.ofJson? (json : Json) : Option Expr :=
  Expr.ofJsonWith? json.depth json

/-- An initial value; `null` stands for a missing one. -/
def Expr.ofJsonOrNull? : Json → Option (Option Expr)
  | .null => some none
  | json => (Expr.ofJson? json).map some

/-- A block whose statements are read by `stmt?`. -/
def Block.ofJsonWith? (stmt? : Json → Option Stmt) (json : Json) : Option Block := do
  match ← record? [.required "statements"] json with
  | [stmts] => (← stmts.items?).mapM stmt?
  | _ => none

/-- A case whose statements are read by `stmt?`. -/
def Case.ofJsonWith? (stmt? : Json → Option Stmt) (json : Json) : Option Case := do
  match ← record? [.nullable "value", .required "body"] json with
  | [value, body] => return ⟨← Literal.ofJsonOrNull? value, ← Block.ofJsonWith? stmt? body⟩
  | _ => none

/-- The definition of a function whose statements are read by `stmt?`. -/
def FunctionDef.ofJsonWith? (stmt? : Json → Option Stmt) (json : Json) : Option FunctionDef := do
  match ← record? [.required "name", .required "parameters", .required "return_variables",
      .required "body"] json with
  | [name, params, returns, body] =>
    return ⟨← name.str?, ← TypedName.listOfJson? params, ← TypedName.listOfJson? returns,
      ← Block.ofJsonWith? stmt? body⟩
  | _ => none

/-- A statement that is nested to depth `fuel` at most and gives its kind in the form `form`. -/
def Stmt.ofJsonWith? : Nat → KindForm → Json → Option Stmt
  | 0, _, _ => none
  | fuel + 1, form, json => do
    let nested := Stmt.ofJsonWith? fuel .nameOrIndex
    let (kind, content) ← kindAndRecord? json
    match ← kind? form StmtKind.name StmtKind.all kind with
    | .expression =>
      match ← record? [.required "expression"] content with
      | [value] => return .expr (← Expr.ofJson? value)
      | _ => none
    | .assignment =>
      match ← record? [.required "variable_names", .required "value"] content with
      | [targets, value] =>
        return .assign (← (← targets.items?).mapM Json.name?) (← Expr.ofJson? value)
      | _ => none
    | .declaration =>
      match ← record? [.required "variables", .nullable "value"] content with
      | [vars, value] =>
        return .declare (← TypedName.listOfJson? vars) (← Expr.ofJsonOrNull? value)
      | _ => none
    | .definition => return .define (← FunctionDef.ofJsonWith? nested content)
    | .branch =>
      match ← record? [.required "condition", .required "body"] content with
      | [condition, body] =>
        return .branch (← Expr.ofJson? condition) (← Block.ofJsonWith? nested body)
      | _ => none
    | .switch =>
      match ← record? [.required "expression", .required "cases"] content with
      | [scrutinee, cases] =>
        return .switch (← Expr.ofJson? scrutinee)
          (← (← cases.items?).mapM (Case.ofJsonWith? nested))
      | _ => none
    | .loop =>
      match ← record? [.required "pre", .required "condition", .required "post", .required "body"]
          content with
      | [init, condition, step, body] =>
        return .loop (← Block.ofJsonWith? nested init) (← Expr.ofJson? condition)
          (← Block.ofJsonWith? nested step) (← Block.ofJsonWith? nested body)
      | _ => none
    | .block => return .block (← Block.ofJsonWith? nested content)

/-- A statement on its own. -/
def Stmt.ofJson? (json : Json) : Option Stmt :=
  Stmt.ofJsonWith? json.depth .nameOrIndex json

/-- The root block of a module. -/
def Block.ofJson? (json : Json) : Option Block :=
  Block.ofJsonWith? (Stmt.ofJsonWith? json.depth .name) json

/-! ## Texts -/

/-- How deep arrays and objects of a stored module may be nested, the root object included. -/
def Block.maxDepth : Nat := 127

/-- The stored text of a module. -/
def Block.toText (block : Block) : String :=
  block.toJson.render ++ "\n"

/-- The module that a stored text denotes. -/
def Block.ofText? (text : String) : Option Block :=
  (Json.readMembers? (fun key => key = "statements") Block.maxDepth text).bind Block.ofJson?

end YulInline
