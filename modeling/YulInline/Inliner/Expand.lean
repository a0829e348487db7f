import YulInline.Inliner.Basic

/-!
# Expanding calls

A call of a function with exactly one return variable is replaced by a variable. What computes that
variable is hoisted: the arguments are bound to variables of their own, the result variable is
declared, and a block with a copy of the function's body follows. Hoisted statements are put in
front of the statement that contains the call. Direct calls of the function whose body is being
expanded stay.

Arguments are evaluated from right to left. Once statements are hoisted for one argument, everything
to its right has to be evaluated before them, and is bound to variables in front of them.

In front of every call its function is *demanded*: if the body of that function is still pending, it
is expanded first. An expansion may thus meet a function whose own expansion is suspended further
out, and then copies that body as it is then.
-/

namespace YulInline

/-- A body that is being expanded. -/
structure Site where
  /-- The position of the body in the root block. -/
  position : Nat
  /-- The function whose body it is; empty for a top-level block. -/
  caller : String
  /-- Has the body of a function expanded if it is pending. -/
  demand : String → InlineM Unit

/-- The return variable of a function whose calls in the body of `caller` are expanded: there is
exactly one, and the function does not call itself. -/
def FunctionDef.result? (function : FunctionDef) (caller : String) : Option TypedName :=
  match function.returns with
  | [result] => if function.name = caller then none else some result
  | _ => none

/-- How the body of a function is copied to a call: the variables that hold the arguments take the
place of the parameters, and `holder` that of the return variable; of two parameters with the same
name the last counts. -/
def FunctionDef.copyRule (function : FunctionDef) (arguments : List String)
    (result holder : String) : CopyRule where
  stem := function.name ++ "_"
  substitution := (result, holder) :: ((function.params.map (·.name)).zip arguments).reverse

namespace InlineM

/-- The statements that compute an argument in front of its call, and what remains of it. An
argument for which nothing is hoisted stays where it is unless it is to be moved to the front; an
argument that is moved is bound to a variable unless it is the result variable of an expansion. -/
def bindArgument (hint type : String) (toFront : Bool) (hoisted : List Stmt) (arg : Expr) :
    InlineM (List Stmt × Expr) := do
  if hoisted.isEmpty && !toFront || !hoisted.isEmpty && arg.ident?.isSome then
    return (hoisted, arg)
  else
    let name ← freshName hint
    return (hoisted ++ [.declare [⟨name, type⟩] (some arg)], .ident name)

/-- The variables that the arguments of a call of `callee` consist of. -/
def argumentNames (callee : String) (args : List Expr) : InlineM (List String) :=
  args.mapM fun arg =>
    match arg.ident? with
    | some name => return name
    | none => throw (.unhoistedArgument callee)

/-- Expands a call whose arguments are variables: gives the statements that compute the result, and
the variable that holds it. The body that is copied is the one that the function has by now. -/
def expandCall (site : Site) (callee : FunctionDef) (result : TypedName) (args : List Expr) :
    InlineM (List Stmt × String) := do
  let arguments ← argumentNames callee.name args
  let name ← freshName (callee.name ++ "_" ++ result.name)
  let callee ← function callee.name
  let body ← copyBlock (callee.copyRule arguments result.name name) callee.body
  modify fun inliner =>
    let expansion := ⟨site.caller, callee, arguments, name⟩
    { inliner with expansions := expansion :: inliner.expansions }
  return ([.declare [⟨name, result.type⟩] none, .block body], name)

end InlineM

mutual

/-- Expands an expression: gives the statements hoisted out of it, and what remains of it. -/
def Expr.expand (site : Site) : Expr → InlineM (List Stmt × Expr)
  | .literal value => return ([], .literal value)
  | .ident name => return ([], .ident name)
  | .instr op args => do
    let (hoisted, args) ← Expr.expandArgs site [] [] false args
    return (hoisted, .instr op args)
  | .call name args => do
    site.demand name
    let callee ← InlineM.function name
    InlineM.checkArity callee args.length
    let hints := callee.params.map fun param => name ++ "_" ++ param.name
    let types := callee.params.map (·.type)
    let result? := callee.result? site.caller
    let (hoisted, args) ← Expr.expandArgs site hints types result?.isSome args
    match result? with
    | none => return (hoisted, .call name args)
    | some result =>
      let (expansion, holder) ← InlineM.expandCall site callee result args
      return (hoisted ++ expansion, .ident holder)

/-- Expands arguments from left to right: gives the statements hoisted out of them, and what remains
of them. An argument that is bound to a variable takes its name and type tag from `hints` and
`types`, which are empty texts beyond the end of these lists. If `toFront` holds, all arguments are
moved to the front. -/
def Expr.expandArgs (site : Site) (hints types : List String) (toFront : Bool) :
    List Expr → InlineM (List Stmt × List Expr)
  | [] => return ([], [])
  | arg :: args => do
    let (hoisted, arg) ← arg.expand site
    let (bound, arg) ← InlineM.bindArgument (hints.headD "") (types.headD "") toFront hoisted arg
    let (later, args) ←
      Expr.expandArgs site hints.tail types.tail (toFront || !hoisted.isEmpty) args
    return (later ++ bound, arg :: args)

end

end YulInline
