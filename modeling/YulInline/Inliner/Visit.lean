import YulInline.Inliner.Expand

/-!
# Visiting a body

A body is rewritten where it stands in the module. The block that is being visited is never taken
out of it: it is addressed by the position of the body in the root block and a path, and it is read
again whenever something has been demanded in between. The statements of a block are visited in
order, by their numbers; what is hoisted out of a statement is put in front of it, and the visit
goes on behind it. So what has been inserted is not visited, while a copy that is made in the midst
of the visit has the statements as they are then.

The expression of a statement is written back as soon as it has been expanded. Then the blocks of
the statement are visited, and only then is what was hoisted out of the expression put in front. A
loop condition is evaluated again and again and has no place in front of it, so the calls in it
stay.

A position that does not denote anything is an error (`InlineError.invalidBlockPath`). No visit of a
module comes to that.
-/

namespace YulInline

/-! ## Positions -/

/-- Which block of a statement a path leads into. -/
inductive Child where
  /-- The body of a conditional, of a loop or of a nested block. -/
  | body
  /-- A case of a `switch`. -/
  | case (index : Nat)
  /-- The `init` block of a loop. -/
  | pre
  /-- The `step` block of a loop. -/
  | post
deriving DecidableEq, Repr

/-- A way down from a block: at each step the number of a statement, and which of its blocks. -/
abbrev BlockPath := List (Nat × Child)

/-- The blocks of a statement in the order of their visits. -/
def Stmt.children : Stmt → List Child
  | .branch .. | .block _ => [.body]
  | .switch _ cases => (List.range cases.length).map .case
  | .loop .. => [.pre, .post, .body]
  | _ => []

/-- A block of a statement. -/
def Stmt.child? : Stmt → Child → Option Block
  | .branch _ body, .body => some body
  | .block body, .body => some body
  | .loop _ _ _ body, .body => some body
  | .loop init _ _ _, .pre => some init
  | .loop _ _ step _, .post => some step
  | .switch _ cases, .case index => cases[index]?.map (·.body)
  | _, _ => none

/-- The statement with one of its blocks changed. -/
def Stmt.updateChild? (change : Block → Option Block) : Stmt → Child → Option Stmt
  | .branch condition body, .body => (change body).map (.branch condition)
  | .block body, .body => (change body).map .block
  | .loop init condition step body, .body => (change body).map (.loop init condition step)
  | .loop init condition step body, .pre =>
    (change init).map fun init => .loop init condition step body
  | .loop init condition step body, .post =>
    (change step).map fun step => .loop init condition step body
  | .switch scrutinee cases, .case index =>
    cases[index]?.bind fun ⟨value, body⟩ =>
      (change body).map fun body => .switch scrutinee (cases.set index ⟨value, body⟩)
  | _, _ => none

/-- The block to which a path leads from a block. -/
def Block.descend? : BlockPath → Block → Option Block
  | [], block => some block
  | (index, child) :: path, block =>
    block[index]?.bind fun stmt => (stmt.child? child).bind (Block.descend? path)

/-- The block with the one to which a path leads changed. -/
def Block.update? (change : Block → Option Block) : BlockPath → Block → Option Block
  | [], block => change block
  | (index, child) :: path, block =>
    block[index]?.bind fun stmt =>
      (stmt.updateChild? (Block.update? change path) child).map fun stmt => block.set index stmt

/-- The block with statements inserted in front of the one with a given number. -/
def Block.insertAt? (index : Nat) (stmts : List Stmt) (block : Block) : Option Block :=
  if index ≤ block.length then some (block.take index ++ stmts ++ block.drop index) else none

/-- The expression that a statement evaluates once, at its own place. -/
def Stmt.value? : Stmt → Option Expr
  | .expr value | .assign _ value | .branch value _ | .switch value _ => some value
  | .declare _ value => value
  | _ => none

/-- The statement with that expression replaced, if it has one. -/
def Stmt.withValue (value : Expr) : Stmt → Stmt
  | .expr _ => .expr value
  | .assign targets _ => .assign targets value
  | .declare vars (some _) => .declare vars (some value)
  | .branch _ body => .branch value body
  | .switch _ cases => .switch value cases
  | stmt => stmt

/-- The block with the expression of the statement with a given number replaced. -/
def Block.setValue? (index : Nat) (value : Expr) (block : Block) : Option Block :=
  block[index]?.map fun stmt => block.set index (stmt.withValue value)

/-- The block of a statement of the root block: its body, or that of the function it defines. -/
def Stmt.body? : Stmt → Option Block
  | .define function => some function.body
  | .block body => some body
  | _ => none

/-- The body at a position of the root block. -/
def Inliner.body? (inliner : Inliner) (position : Nat) : Option Block :=
  inliner.module[position]?.bind Stmt.body?

namespace Site

/-- Makes `body` the present state of the body that is being expanded. -/
def publish (site : Site) (body : Block) : InlineM Unit :=
  modify fun inliner => inliner.setBody site.position body

/-- The block of the body to which a path leads. -/
def block (site : Site) (path : BlockPath) : InlineM Block := do
  match ((← get).body? site.position).bind (Block.descend? path) with
  | some block => return block
  | none => throw (.invalidBlockPath site.position)

/-- The statement with a given number in the block to which a path leads. -/
def statement (site : Site) (path : BlockPath) (index : Nat) : InlineM Stmt := do
  match (← site.block path)[index]? with
  | some stmt => return stmt
  | none => throw (.invalidBlockPath site.position)

/-- Changes the block to which a path leads. -/
def update (site : Site) (path : BlockPath) (change : Block → Option Block) : InlineM Unit := do
  match ((← get).body? site.position).bind (Block.update? change path) with
  | some body => site.publish body
  | none => throw (.invalidBlockPath site.position)

/-- Puts statements in front of the one at a position, if there are any. -/
def insert (site : Site) (path : BlockPath) (index : Nat) (stmts : List Stmt) : InlineM Unit :=
  if stmts.isEmpty then return () else site.update path (Block.insertAt? index stmts)

/-! ## Visits -/

/-- Expands the expression of the statement at a position and writes it back: gives the statements
hoisted out of it. -/
def visitValue (site : Site) (path : BlockPath) (index : Nat) : Option Expr → InlineM (List Stmt)
  | none => return []
  | some value => do
    let (hoisted, value) ← value.expand site
    site.update path (Block.setValue? index value)
    return hoisted

/-- Visits the statement at a position: gives the statements hoisted out of it. Its blocks are left
to `visit`. -/
def visitStatement (site : Site) (visit : BlockPath → InlineM Unit) (path : BlockPath)
    (index : Nat) : InlineM (List Stmt) := do
  let stmt ← site.statement path index
  match stmt.function? with
  | some function => throw (.nestedDefinition function.name)
  | none =>
    let hoisted ← site.visitValue path index stmt.value?
    stmt.children.forM fun child => visit (path ++ [(index, child)])
    return hoisted

/-- Visits the block to which a path leads, from the statement with a given number on. At most
`fuel` statements are visited in the block and within each of them. -/
def visitBlock (site : Site) : (fuel : Nat) → BlockPath → Nat → InlineM Unit
  | 0, _, _ => return ()
  | fuel + 1, path, index => do
    let block ← site.block path
    if index < block.length then
      let hoisted ← site.visitStatement (fun path => site.visitBlock fuel path 0) path index
      site.insert path index hoisted
      site.visitBlock fuel path (index + hoisted.length + 1)

end Site

mutual

/-- The number of statements inside a statement, at all depths. -/
def Stmt.extent : Stmt → Nat
  | .expr _ | .assign .. | .declare .. | .define _ => 0
  | .branch _ body => Block.extent body
  | .switch _ cases => Case.extentOfCases cases
  | .loop init _ step body => Block.extent init + Block.extent step + Block.extent body
  | .block body => Block.extent body

/-- The number of statements in a list of cases, at all depths. -/
def Case.extentOfCases : List Case → Nat
  | [] => 0
  | ⟨_, body⟩ :: cases => Block.extent body + Case.extentOfCases cases

/-- The number of statements in a block, at all depths. -/
def Block.extent : List Stmt → Nat
  | [] => 0
  | stmt :: stmts => stmt.extent + Block.extent stmts + 1

end

end YulInline
