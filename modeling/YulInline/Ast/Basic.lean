/-!
# The tree of a Yul module

A module is a block: a sequence of statements whose order matters. Functions are meant to be defined
directly in that root block, which is what a function hoister in front of the inliner leaves behind;
the tree itself allows a definition anywhere, and it is the inliner that refuses a nested one.

Two kinds of application are kept apart. An *instruction* is built in, and its name is no name of
the module; a *call* refers to a function that the module defines. Type tags and literal values are
opaque texts.
-/

namespace YulInline

/-- A variable as it is declared: its name, and a type tag that is empty when there is none. -/
structure TypedName where
  /-- The declared name. -/
  name : String
  /-- The type tag. -/
  type : String := ""
deriving DecidableEq, Repr, Inhabited

/-- What a literal denotes. -/
inductive LiteralKind where
  | number
  | boolean
  | string
deriving DecidableEq, Repr, Inhabited

/-- A constant: its kind, its text and its type tag, which is empty when there is none. -/
structure Literal where
  /-- What the text denotes. -/
  kind : LiteralKind
  /-- The text of the constant, without quotes or escapes. -/
  value : String
  /-- The type tag. -/
  type : String := ""
deriving DecidableEq, Repr, Inhabited

/-- An expression. Arguments are evaluated from right to left. -/
inductive Expr where
  /-- A constant. -/
  | literal (value : Literal)
  /-- A reference to a variable. -/
  | ident (name : String)
  /-- A built-in instruction applied to operands. -/
  | instr (op : String) (args : List Expr)
  /-- A call of a function of the module. -/
  | call (callee : String) (args : List Expr)
deriving BEq, Repr, Inhabited

mutual

/-- A statement. -/
inductive Stmt where
  /-- An expression evaluated for its effect. -/
  | expr (value : Expr)
  /-- An assignment to variables that are declared elsewhere. -/
  | assign (targets : List String) (value : Expr)
  /-- A declaration; without a value the variables start at zero. -/
  | declare (vars : List TypedName) (value : Option Expr)
  /-- The definition of a function. -/
  | define (function : FunctionDef)
  /-- A conditional without alternative. -/
  | branch (condition : Expr) (body : List Stmt)
  /-- A choice between cases. -/
  | switch (scrutinee : Expr) (cases : List Case)
  /-- A loop. The declarations of `init` are visible in the condition, in `step` and in `body`. -/
  | loop (init : List Stmt) (condition : Expr) (step body : List Stmt)
  /-- A nested block. -/
  | block (body : List Stmt)

/-- One case of a `switch`. -/
structure Case where
  /-- The literal that selects the case; the default case has none. -/
  value : Option Literal
  /-- What the case runs. -/
  body : List Stmt

/-- The definition of a function. -/
structure FunctionDef where
  /-- The name that calls refer to. -/
  name : String
  /-- The parameters. -/
  params : List TypedName
  /-- The return variables. -/
  returns : List TypedName
  /-- The body, in which parameters and return variables are visible. -/
  body : List Stmt

end

deriving instance BEq, Repr, Inhabited for Stmt, Case, FunctionDef

/-- A sequence of statements; a module is its root block. -/
abbrev Block := List Stmt

/-- The variable that an expression consists of, if it is a bare reference. -/
def Expr.ident? : Expr → Option String
  | .ident name => some name
  | _ => none

/-- The kinds of statement, named as diagnostics and the stored form of a module name them. -/
inductive StmtKind where
  | expression
  | assignment
  | declaration
  | definition
  | branch
  | switch
  | loop
  | block
deriving DecidableEq, Repr, Inhabited

/-- The name of a kind of statement. -/
def StmtKind.name : StmtKind → String
  | .expression => "ExpressionStatement"
  | .assignment => "Assignment"
  | .declaration => "VariableDeclaration"
  | .definition => "FunctionDefinition"
  | .branch => "If"
  | .switch => "Switch"
  | .loop => "ForLoop"
  | .block => "Block"

/-- The kind of a statement. -/
def Stmt.kind : Stmt → StmtKind
  | .expr _ => .expression
  | .assign .. => .assignment
  | .declare .. => .declaration
  | .define _ => .definition
  | .branch .. => .branch
  | .switch .. => .switch
  | .loop .. => .loop
  | .block _ => .block

/-- The kinds of expression. -/
inductive ExprKind where
  | literal
  | ident
  | instr
  | call
deriving DecidableEq, Repr, Inhabited

/-- The name of a kind of expression. -/
def ExprKind.name : ExprKind → String
  | .literal => "Literal"
  | .ident => "Identifier"
  | .instr => "FunctionalInstruction"
  | .call => "FunctionCall"

end YulInline
