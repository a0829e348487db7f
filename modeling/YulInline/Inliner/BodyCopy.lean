import YulInline.Inliner.Error
import YulInline.NameSupply

/-!
# Copies of a body

A function body is copied to a call with its variables renamed. Every variable that the body
declares gets a fresh name, whose stem is a given text followed by the name; a variable that the
substitution covers, such as a parameter, becomes what the substitution says; all other names stay.

Renames are kept in one list for the whole body, the latest first. A name that is declared again, in
a block beside the first one, hides the earlier rename from there on. The rename of a declared
variable is in force in its own initial value already.

A body in which a function is defined cannot be copied. The names that were given out before the
copy came to the definition stay in use.
-/

namespace YulInline

mutual

/-- The expression with its variables renamed. -/
def Expr.rename (f : String → String) : Expr → Expr
  | .literal value => .literal value
  | .ident name => .ident (f name)
  | .instr op args => .instr op (Expr.renameAll f args)
  | .call callee args => .call callee (Expr.renameAll f args)

/-- The expressions of a list with their variables renamed. -/
def Expr.renameAll (f : String → String) : List Expr → List Expr
  | [] => []
  | arg :: args => arg.rename f :: Expr.renameAll f args

end

/-- How a body is copied. -/
structure CopyRule where
  /-- What the name of a declared variable is put behind to make the stem of its fresh name. -/
  stem : String
  /-- What variables become that the body does not declare; of two entries for a name the first
  counts. -/
  substitution : List (String × String)

/-- The state of a copy: the names in use, and the renames so far, the latest first. -/
structure Copier where
  /-- The names in use. -/
  names : NameSupply
  /-- The names of the declared variables and what they have become. -/
  renames : List (String × String) := []

namespace Copier

/-- What a variable becomes. -/
def nameFor (copier : Copier) (rule : CopyRule) (name : String) : String :=
  ((rule.substitution.lookup name).or (copier.renames.lookup name)).getD name

/-- The copy of a list of declared variables. -/
def declare (copier : Copier) (rule : CopyRule) : List TypedName → List TypedName × Copier
  | [] => ([], copier)
  | var :: vars =>
    let (name, names) := copier.names.fresh (rule.stem ++ var.name)
    let (copies, copier) := declare ⟨names, (var.name, name) :: copier.renames⟩ rule vars
    (⟨name, var.type⟩ :: copies, copier)

end Copier

/-- A step of a copy: it gives out names, and fails where a function is defined, with the state
reached so far. -/
abbrev CopyM := EStateM InlineError Copier

mutual

/-- Copies a statement. -/
def Stmt.copy? (rule : CopyRule) : Stmt → CopyM Stmt
  | .expr value => do
    return .expr (value.rename ((← get).nameFor rule))
  | .assign targets value => do
    let copier ← get
    return .assign (targets.map (copier.nameFor rule)) (value.rename (copier.nameFor rule))
  | .declare vars value => do
    let vars ← modifyGet fun copier => copier.declare rule vars
    let copier ← get
    return .declare vars (value.map fun value => value.rename (copier.nameFor rule))
  | .define function => throw (.nestedDefinition function.name)
  | .branch condition body => do
    let condition := condition.rename ((← get).nameFor rule)
    let body ← Block.copy? rule body
    return .branch condition body
  | .switch scrutinee cases => do
    let scrutinee := scrutinee.rename ((← get).nameFor rule)
    let cases ← Case.copyCases? rule cases
    return .switch scrutinee cases
  | .loop init condition step body => do
    let init ← Block.copy? rule init
    let condition := condition.rename ((← get).nameFor rule)
    let step ← Block.copy? rule step
    let body ← Block.copy? rule body
    return .loop init condition step body
  | .block body => do
    let body ← Block.copy? rule body
    return .block body

/-- Copies the cases of a `switch`. -/
def Case.copyCases? (rule : CopyRule) : List Case → CopyM (List Case)
  | [] => return []
  | ⟨value, body⟩ :: cases => do
    let body ← Block.copy? rule body
    let cases ← Case.copyCases? rule cases
    return ⟨value, body⟩ :: cases

/-- Copies a block. -/
def Block.copy? (rule : CopyRule) : List Stmt → CopyM (List Stmt)
  | [] => return []
  | stmt :: stmts => do
    let stmt ← stmt.copy? rule
    let stmts ← Block.copy? rule stmts
    return stmt :: stmts

end

end YulInline
