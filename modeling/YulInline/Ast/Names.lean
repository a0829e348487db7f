import YulInline.Ast.Basic
import Std.Data.TreeSet

/-!
# The names of a module

A name occurs in a tree where a variable or function is declared, referred to, assigned to or
called. Names of instructions, literals, the values of cases and type tags are no names.
`Block.names` lists the occurrences from left to right, and `Block.nameSet` is the sorted set of
them.
-/

namespace YulInline

mutual

/-- The names that occur in an expression. -/
def Expr.names : Expr → List String
  | .literal _ => []
  | .ident name => [name]
  | .instr _ args => Expr.namesOfArgs args
  | .call callee args => callee :: Expr.namesOfArgs args

/-- The names that occur in a list of arguments. -/
def Expr.namesOfArgs : List Expr → List String
  | [] => []
  | arg :: args => arg.names ++ Expr.namesOfArgs args

end

/-- The names that occur in an initial value, which may be missing. -/
def Expr.namesOfValue : Option Expr → List String
  | none => []
  | some value => value.names

mutual

/-- The names that occur in a statement. -/
def Stmt.names : Stmt → List String
  | .expr value => value.names
  | .assign targets value => targets ++ value.names
  | .declare vars value => vars.map (·.name) ++ Expr.namesOfValue value
  | .define ⟨name, params, returns, body⟩ =>
    name :: (params.map (·.name) ++ returns.map (·.name) ++ Block.names body)
  | .branch condition body => condition.names ++ Block.names body
  | .switch scrutinee cases => scrutinee.names ++ Case.namesOfCases cases
  | .loop init condition step body =>
    Block.names init ++ condition.names ++ Block.names step ++ Block.names body
  | .block body => Block.names body

/-- The names that occur in a list of cases. -/
def Case.namesOfCases : List Case → List String
  | [] => []
  | ⟨_, body⟩ :: cases => Block.names body ++ Case.namesOfCases cases

/-- The names that occur in a block. -/
def Block.names : List Stmt → List String
  | [] => []
  | stmt :: stmts => stmt.names ++ Block.names stmts

end

/-- The set of the names that occur in a block. -/
def Block.nameSet (block : Block) : Std.TreeSet String :=
  Std.TreeSet.ofList (Block.names block)

/-- Membership in the set of names is occurrence in the tree. -/
theorem Block.mem_nameSet {block : Block} {name : String} :
    name ∈ Block.nameSet block ↔ name ∈ Block.names block := by
  simp [Block.nameSet, Std.TreeSet.mem_ofList]

end YulInline
