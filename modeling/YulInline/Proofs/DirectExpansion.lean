import YulInline.Inliner.Run

/-!
# Expansion by recursion

The inliner visits a body position by position, and reads it again whenever it goes on. The same is
done here by recursion on the statements: what becomes of them is the result of the functions, and
at each point the whole body is at hand as a function of what is being worked on (`plug`). The body
is put in place in the module (`Site.publish`) at the two moments at which a visit changes it: after
the expression of a statement has been expanded, and again after what was hoisted out of it has been
put in front of the statement.

Most of what is proved of the inliner is proved of this form. `InlineM.expandBody_eq_directly` says
that the two do the same.
-/

namespace YulInline

mutual

/-- Expands a statement: gives the statements hoisted out of it, and what remains of it. The whole
body with another statement in place of this one is `plug` of that statement. -/
def Stmt.expand (site : Site) (plug : Stmt → Block) : Stmt → InlineM (List Stmt × Stmt)
  | .expr value => do
    let (hoisted, value) ← value.expand site
    site.publish (plug (.expr value))
    return (hoisted, .expr value)
  | .assign targets value => do
    let (hoisted, value) ← value.expand site
    site.publish (plug (.assign targets value))
    return (hoisted, .assign targets value)
  | .declare vars none => return ([], .declare vars none)
  | .declare vars (some value) => do
    let (hoisted, value) ← value.expand site
    site.publish (plug (.declare vars (some value)))
    return (hoisted, .declare vars (some value))
  | .define function => throw (.nestedDefinition function.name)
  | .branch condition body => do
    let (hoisted, condition) ← condition.expand site
    site.publish (plug (.branch condition body))
    let body ← Block.expand site (fun body => plug (.branch condition body)) body
    return (hoisted, .branch condition body)
  | .switch scrutinee cases => do
    let (hoisted, scrutinee) ← scrutinee.expand site
    site.publish (plug (.switch scrutinee cases))
    let cases ← Case.expandCases site (fun cases => plug (.switch scrutinee cases)) cases
    return (hoisted, .switch scrutinee cases)
  | .loop init condition step body => do
    let init ← Block.expand site (fun init => plug (.loop init condition step body)) init
    let step ← Block.expand site (fun step => plug (.loop init condition step body)) step
    let body ← Block.expand site (fun body => plug (.loop init condition step body)) body
    return ([], .loop init condition step body)
  | .block body => do
    let body ← Block.expand site (fun body => plug (.block body)) body
    return ([], .block body)

/-- Expands the cases of a `switch`. -/
def Case.expandCases (site : Site) (plug : List Case → Block) : List Case → InlineM (List Case)
  | [] => return []
  | ⟨value, body⟩ :: cases => do
    let body ← Block.expand site (fun body => plug (⟨value, body⟩ :: cases)) body
    let cases ← Case.expandCases site (fun cases => plug (⟨value, body⟩ :: cases)) cases
    return ⟨value, body⟩ :: cases

/-- Expands a block, or the rest of one. -/
def Block.expand (site : Site) (plug : List Stmt → Block) : List Stmt → InlineM (List Stmt)
  | [] => return []
  | stmt :: stmts => do
    let (hoisted, stmt) ← stmt.expand site fun stmt => plug (stmt :: stmts)
    site.publish (plug (hoisted ++ stmt :: stmts))
    let stmts ← Block.expand site (fun stmts => plug (hoisted ++ stmt :: stmts)) stmts
    return hoisted ++ stmt :: stmts

end

namespace InlineM

/-- Expands a body like `expandBody`. -/
def expandBodyDirectly (site : Site) (body : Block) : InlineM Unit := do
  let _ ← Block.expand site id body

/-- Has the body of a function expanded like `demandWith`. -/
def demandDirectlyWith : (fuel : Nat) → String → InlineM Unit
  | 0, name => do
    let _ ← function name
  | fuel + 1, name => do
    let function ← function name
    let inliner ← get
    if inliner.isPending name then
      set { inliner with pending := inliner.pending.erase name }
      expandBodyDirectly ⟨inliner.position name, name, demandDirectlyWith fuel⟩ function.body

/-- Has the body of a function expanded like `demand`. -/
def demandDirectly (name : String) : InlineM Unit := do
  demandDirectlyWith (← get).pending.length name

/-- Visits the statement at a position of the root block like `visitTopLevel`. -/
def visitTopLevelDirectly (stmt : Stmt) (position : Nat) : InlineM Unit :=
  match stmt with
  | .block body => expandBodyDirectly ⟨position, "", demandDirectly⟩ body
  | .define _ => return ()
  | stmt => throw (.invalidTopLevel stmt.kind)

/-- Expands a module like `expandModule`. -/
def expandModuleDirectly : InlineM Unit := do
  (← get).module.zipIdx.forM fun (stmt, position) => visitTopLevelDirectly stmt position
  (← get).pending.forM demandDirectly

end InlineM

end YulInline
