import YulInline.Ast.Basic

/-!
# Why a module cannot be inlined

The inliner relies on functions being defined at the top level, once each, with nothing but blocks
beside them, and on calls that fit their functions. Each violation of that is an error, after which
the module is abandoned. Two errors are none of the module's: an argument that should have been
moved to a variable and was not, and a position that leads nowhere.
-/

namespace YulInline

/-- A violation of what the inliner relies on, or an error of its own. -/
inductive InlineError where
  /-- A function is defined inside a block or a function. -/
  | nestedDefinition (name : String)
  /-- A statement other than a block or a definition stands at the top level. -/
  | invalidTopLevel (kind : StmtKind)
  /-- A function is referred to that the module does not define. -/
  | unknownFunction (name : String)
  /-- A call passes another number of arguments than its function has parameters. -/
  | arityMismatch (name : String) (expected found : Nat)
  /-- An argument of a call that is to be expanded is no variable. -/
  | unhoistedArgument (name : String)
  /-- Two functions have the same name. -/
  | duplicateFunction (name : String)
  /-- A position below a statement of the root block, which is given by its number, denotes nothing.
  This is an error of the inliner itself and no fault of the module. -/
  | invalidBlockPath (root : Nat)
deriving DecidableEq, Repr

/-- The text of an error. -/
def InlineError.message : InlineError → String
  | .nestedDefinition name =>
    "function hoisting has to be done before function inlining (nested definition of `" ++ name ++
      "`)"
  | .invalidTopLevel kind =>
    "invalid top-level element `" ++ kind.name ++
      "`: inlining requires the function hoister and grouper"
  | .unknownFunction name => "call to unknown function `" ++ name ++ "`"
  | .arityMismatch name expected found =>
    "call to `" ++ name ++ "` passes " ++ toString found ++ " arguments but the function takes " ++
      toString expected
  | .unhoistedArgument name =>
    "argument of inlined call to `" ++ name ++ "` was not reduced to a variable"
  | .duplicateFunction name => "function `" ++ name ++ "` is defined more than once"
  | .invalidBlockPath root =>
    "no block at the rewrite position below top-level statement " ++ toString root

end YulInline
