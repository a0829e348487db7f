import YulInline.Inliner.BodyCopy

/-!
# The state of an inliner

An inliner holds a module that is being expanded, the functions whose bodies still have to be
expanded, and the names in use. Functions are found by name among the statements of the root block,
of which no two may define the same name; expanding changes the bodies of functions and top-level
blocks, and nothing else of the root block.
-/

namespace YulInline

/-- The function that a statement defines. -/
def Stmt.function? : Stmt → Option FunctionDef
  | .define function => some function
  | _ => none

/-- The functions that are defined directly in a block, in order. -/
def Block.functions (block : Block) : List FunctionDef :=
  block.filterMap Stmt.function?

/-- The statement with its own block replaced, if it is a definition or a block. -/
def Stmt.withBody (body : Block) : Stmt → Stmt
  | .define function => .define { function with body }
  | .block _ => .block body
  | stmt => stmt

/-- The first text of a list that occurs earlier in it; `seen` are the texts in front of the list.
-/
def firstRepeated? (seen : List String) : List String → Option String
  | [] => none
  | text :: texts => if text ∈ seen then some text else firstRepeated? (text :: seen) texts

/-- An expansion of a call. -/
structure Expansion where
  /-- The function in whose body the call stood; empty for a top-level block. -/
  caller : String
  /-- The function that was called, with the body that was copied. -/
  callee : FunctionDef
  /-- The variables that hold the arguments. -/
  arguments : List String
  /-- The variable that holds the result. -/
  result : String
deriving Repr

/-- The state of an inliner. -/
structure Inliner where
  /-- The module as expanded so far. -/
  module : Block
  /-- The functions whose bodies have not been visited yet, in the order of their definitions. -/
  pending : List String
  /-- The names in use. -/
  names : NameSupply
  /-- The calls expanded so far, the latest first. -/
  expansions : List Expansion := []

/-- A step of an inliner: it changes the state, and may fail with the state reached so far. -/
abbrev InlineM := EStateM InlineError Inliner

namespace Inliner

/-- An inliner at work on a module, all of whose functions are pending. -/
def ofModule? (module : Block) (names : NameSupply) : Except InlineError Inliner :=
  let functions := (Block.functions module).map (·.name)
  match firstRepeated? [] functions with
  | some name => .error (.duplicateFunction name)
  | none => .ok { module, pending := functions, names }

/-- The function of a given name, as it is now. -/
def function? (inliner : Inliner) (name : String) : Option FunctionDef :=
  (Block.functions inliner.module).find? fun function => function.name = name

/-- Whether the body of a function has not been visited yet. -/
def isPending (inliner : Inliner) (name : String) : Bool :=
  inliner.pending.contains name

/-- The position in the root block of the definition of a function. -/
def position (inliner : Inliner) (name : String) : Nat :=
  inliner.module.findIdx fun stmt => stmt.function?.any fun function => function.name = name

/-- Replaces the block at a position of the root block. -/
def setBody (inliner : Inliner) (position : Nat) (body : Block) : Inliner :=
  { inliner with module := inliner.module.modify position (·.withBody body) }

end Inliner

namespace InlineM

/-- The function of a given name, as it is now. -/
def function (name : String) : InlineM FunctionDef := do
  match (← get).function? name with
  | some function => return function
  | none => throw (.unknownFunction name)

/-- A fresh name for a stem. -/
def freshName (stem : String) : InlineM String := do
  let inliner ← get
  let (name, names) := inliner.names.fresh stem
  set { inliner with names }
  return name

/-- A copy of a block with fresh names for the variables it declares. Names that were given out for
a copy that fails stay in use. -/
def copyBlock (rule : CopyRule) (block : Block) : InlineM Block := fun inliner =>
  match Block.copy? rule block { names := inliner.names } with
  | .ok copy copier => .ok copy { inliner with names := copier.names }
  | .error error copier => .error error { inliner with names := copier.names }

/-- Fails unless a call of a function passes `count` arguments. -/
def checkArity (function : FunctionDef) (count : Nat) : InlineM Unit :=
  if count = function.params.length then return ()
  else throw (.arityMismatch function.name function.params.length count)

/-! ## What the steps give -/

variable {inliner : Inliner} {name : String}

theorem function_eq_ok {found : FunctionDef} (h : inliner.function? name = some found) :
    function name inliner = .ok found inliner := by
  show EStateM.run (function name) inliner = _
  rw [function, EStateM.run_bind, EStateM.run_get]
  simp only [h]
  rfl

theorem function_eq_error (h : inliner.function? name = none) :
    function name inliner = .error (.unknownFunction name) inliner := by
  show EStateM.run (function name) inliner = _
  rw [function, EStateM.run_bind, EStateM.run_get]
  simp only [h]
  rfl

end InlineM

end YulInline
