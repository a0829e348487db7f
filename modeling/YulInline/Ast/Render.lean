import YulInline.Ast.Basic

/-!
# Modules as text

The Yul-like rendering of a tree. A block that is not empty puts each statement on a line of its
own, four spaces deeper than its closing brace; an empty block is written on one line. The cases of
a `switch` start on lines of their own at the depth of the statement itself.

The text of a string literal stands between double quotes. Printable ASCII stands for itself there,
except that both quotes and the backslash follow a backslash; tab, line feed and carriage return
have escapes of their own; every other character is written by its code in lower-case hexadecimal
digits between braces.
-/

namespace YulInline.Text

/-- The characters that stand for `c` between quotes. -/
def escape (c : Char) : List Char :=
  match c with
  | '\t' => ['\\', 't']
  | '\n' => ['\\', 'n']
  | '\r' => ['\\', 'r']
  | '"' => ['\\', '"']
  | '\'' => ['\\', '\'']
  | '\\' => ['\\', '\\']
  | c =>
    if ' ' ≤ c ∧ c ≤ '~' then [c]
    else ['\\', 'u', '\x7b'] ++ Nat.toDigits 16 c.toNat ++ ['\x7d']

/-- A text between double quotes. -/
def quote (text : String) : String :=
  "\"" ++ String.ofList (text.toList.flatMap escape) ++ "\""

end YulInline.Text

namespace YulInline

/-- The text of a typed name; a name without a type tag stands alone. -/
def TypedName.render (var : TypedName) : String :=
  if var.type = "" then var.name else var.name ++ ":" ++ var.type

/-- Typed names in order, with commas between them. -/
def TypedName.renderList (vars : List TypedName) : String :=
  ", ".intercalate (vars.map TypedName.render)

/-- The text of a literal: only a string is quoted. -/
def Literal.render (literal : Literal) : String :=
  let text := match literal.kind with
    | .string => Text.quote literal.value
    | .number | .boolean => literal.value
  if literal.type = "" then text else text ++ ":" ++ literal.type

mutual

/-- The text of an expression. -/
def Expr.render : Expr → String
  | .literal value => value.render
  | .ident name => name
  | .instr op args => op ++ "(" ++ ", ".intercalate (Expr.renderEach args) ++ ")"
  | .call callee args => callee ++ "(" ++ ", ".intercalate (Expr.renderEach args) ++ ")"

/-- The texts of the expressions of a list. -/
def Expr.renderEach : List Expr → List String
  | [] => []
  | arg :: args => arg.render :: Expr.renderEach args

end

namespace Layout

/-- The space in front of a line at nesting depth `depth`. -/
def indent (depth : Nat) : String :=
  String.ofList (List.replicate (4 * depth) ' ')

/-- Braces around the lines of a block whose closing brace is at nesting depth `depth`. -/
def braces (depth : Nat) (lines : String) : String :=
  if lines = "" then "\x7b \x7d" else "\x7b\n" ++ lines ++ indent depth ++ "\x7d"

/-- The text of an initial value, which may be missing. -/
def initial : Option Expr → String
  | none => ""
  | some value => " := " ++ value.render

/-- The text of the return variables of a function, which may have none. -/
def returns : List TypedName → String
  | [] => ""
  | vars => " -> " ++ TypedName.renderList vars

/-- What introduces the body of a case. -/
def caseLabel : Option Literal → String
  | none => "default "
  | some value => "case " ++ value.render ++ " "

end Layout

mutual

/-- The text of a statement that starts at nesting depth `depth`. -/
def Stmt.renderAt (depth : Nat) : Stmt → String
  | .expr value => value.render
  | .assign targets value => ", ".intercalate targets ++ " := " ++ value.render
  | .declare vars value => "let " ++ TypedName.renderList vars ++ Layout.initial value
  | .define ⟨name, params, returns, body⟩ =>
    "function " ++ name ++ "(" ++ TypedName.renderList params ++ ")" ++ Layout.returns returns ++
      " " ++ Layout.braces depth (Block.renderLines (depth + 1) body)
  | .branch condition body =>
    "if " ++ condition.render ++ " " ++ Layout.braces depth (Block.renderLines (depth + 1) body)
  | .switch scrutinee cases => "switch " ++ scrutinee.render ++ Case.renderCases depth cases
  | .loop init condition step body =>
    "for " ++ Layout.braces depth (Block.renderLines (depth + 1) init) ++ " " ++
      condition.render ++ " " ++ Layout.braces depth (Block.renderLines (depth + 1) step) ++
      " " ++ Layout.braces depth (Block.renderLines (depth + 1) body)
  | .block body => Layout.braces depth (Block.renderLines (depth + 1) body)

/-- The text of the cases of a `switch` at nesting depth `depth`. -/
def Case.renderCases (depth : Nat) : List Case → String
  | [] => ""
  | ⟨value, body⟩ :: cases =>
    "\n" ++ Layout.indent depth ++ Layout.caseLabel value ++
      Layout.braces depth (Block.renderLines (depth + 1) body) ++ Case.renderCases depth cases

/-- The lines of a block whose statements are at nesting depth `depth`. -/
def Block.renderLines (depth : Nat) : List Stmt → String
  | [] => ""
  | stmt :: stmts =>
    Layout.indent depth ++ stmt.renderAt depth ++ "\n" ++ Block.renderLines depth stmts

end

/-- The text of a statement on its own. -/
def Stmt.render (stmt : Stmt) : String :=
  stmt.renderAt 0

/-- The text of a block on its own, in particular of a module. -/
def Block.render (block : Block) : String :=
  Layout.braces 0 (Block.renderLines 1 block)

end YulInline
