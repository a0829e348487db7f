import YulInline.Proofs.Tree

/-!
# Copies that do not fail

A block in which no function is defined has a copy, which is computed here without failing
(`Block.copy`). A copy of any other block fails at the first definition that it comes to, with some
of the names given out (`Block.copy?_gives`).
-/

namespace YulInline

mutual

/-- The copy of a statement that defines no function. -/
def Stmt.copy (rule : CopyRule) : Stmt → Copier → Stmt × Copier
  | .expr value, copier => (.expr (value.rename (copier.nameFor rule)), copier)
  | .assign targets value, copier =>
    (.assign (targets.map (copier.nameFor rule)) (value.rename (copier.nameFor rule)), copier)
  | .declare vars value, copier =>
    let (vars, copier) := copier.declare rule vars
    (.declare vars (value.map fun value => value.rename (copier.nameFor rule)), copier)
  | .define function, copier => (.define function, copier)
  | .branch condition body, copier =>
    let condition := condition.rename (copier.nameFor rule)
    let (body, copier) := Block.copy rule body copier
    (.branch condition body, copier)
  | .switch scrutinee cases, copier =>
    let scrutinee := scrutinee.rename (copier.nameFor rule)
    let (cases, copier) := Case.copyCases rule cases copier
    (.switch scrutinee cases, copier)
  | .loop init condition step body, copier =>
    let (init, copier) := Block.copy rule init copier
    let condition := condition.rename (copier.nameFor rule)
    let (step, copier) := Block.copy rule step copier
    let (body, copier) := Block.copy rule body copier
    (.loop init condition step body, copier)
  | .block body, copier =>
    let (body, copier) := Block.copy rule body copier
    (.block body, copier)

/-- The copy of a list of cases. -/
def Case.copyCases (rule : CopyRule) : List Case → Copier → List Case × Copier
  | [], copier => ([], copier)
  | ⟨value, body⟩ :: cases, copier =>
    let (body, copier) := Block.copy rule body copier
    let (cases, copier) := Case.copyCases rule cases copier
    (⟨value, body⟩ :: cases, copier)

/-- The copy of a block that defines no function. -/
def Block.copy (rule : CopyRule) : List Stmt → Copier → List Stmt × Copier
  | [], copier => ([], copier)
  | stmt :: stmts, copier =>
    let (stmt, copier) := stmt.copy rule copier
    let (stmts, copier) := Block.copy rule stmts copier
    (stmt :: stmts, copier)

end

/-! ## Equations -/

section Equations

variable (rule : CopyRule) (copier : Copier)

@[simp] theorem Stmt.copy_expr (value : Expr) :
    (Stmt.expr value).copy rule copier = (.expr (value.rename (copier.nameFor rule)), copier) := by
  rw [Stmt.copy]

@[simp] theorem Stmt.copy_assign (targets : List String) (value : Expr) :
    (Stmt.assign targets value).copy rule copier =
      (.assign (targets.map (copier.nameFor rule)) (value.rename (copier.nameFor rule)),
        copier) := by
  rw [Stmt.copy]

@[simp] theorem Stmt.copy_declare (vars : List TypedName) (value : Option Expr) :
    (Stmt.declare vars value).copy rule copier =
      (.declare (copier.declare rule vars).1
        (value.map (Expr.rename ((copier.declare rule vars).2.nameFor rule))),
        (copier.declare rule vars).2) := by
  rw [Stmt.copy]

@[simp] theorem Stmt.copy_define (function : FunctionDef) :
    (Stmt.define function).copy rule copier = (.define function, copier) := by
  rw [Stmt.copy]

@[simp] theorem Stmt.copy_branch (condition : Expr) (body : Block) :
    (Stmt.branch condition body).copy rule copier =
      (.branch (condition.rename (copier.nameFor rule)) (Block.copy rule body copier).1,
        (Block.copy rule body copier).2) := by
  rw [Stmt.copy]

@[simp] theorem Stmt.copy_switch (scrutinee : Expr) (cases : List Case) :
    (Stmt.switch scrutinee cases).copy rule copier =
      (.switch (scrutinee.rename (copier.nameFor rule)) (Case.copyCases rule cases copier).1,
        (Case.copyCases rule cases copier).2) := by
  rw [Stmt.copy]

@[simp] theorem Stmt.copy_loop (init : Block) (condition : Expr) (step body : Block) :
    (Stmt.loop init condition step body).copy rule copier =
      let init := Block.copy rule init copier
      let step := Block.copy rule step init.2
      let body := Block.copy rule body step.2
      (.loop init.1 (condition.rename (init.2.nameFor rule)) step.1 body.1, body.2) := by
  rw [Stmt.copy]

@[simp] theorem Stmt.copy_block (body : Block) :
    (Stmt.block body).copy rule copier =
      (.block (Block.copy rule body copier).1, (Block.copy rule body copier).2) := by
  rw [Stmt.copy]

@[simp] theorem Case.copyCases_nil : Case.copyCases rule [] copier = ([], copier) := by
  rw [Case.copyCases]

@[simp] theorem Case.copyCases_cons (value : Option Literal) (body : Block) (cases : List Case) :
    Case.copyCases rule (⟨value, body⟩ :: cases) copier =
      (⟨value, (Block.copy rule body copier).1⟩ ::
          (Case.copyCases rule cases (Block.copy rule body copier).2).1,
        (Case.copyCases rule cases (Block.copy rule body copier).2).2) := by
  rw [Case.copyCases]

@[simp] theorem Block.copy_nil : Block.copy rule [] copier = ([], copier) := by
  rw [Block.copy]

@[simp] theorem Block.copy_cons (stmt : Stmt) (stmts : Block) :
    Block.copy rule (stmt :: stmts) copier =
      ((stmt.copy rule copier).1 :: (Block.copy rule stmts (stmt.copy rule copier).2).1,
        (Block.copy rule stmts (stmt.copy rule copier).2).2) := by
  rw [Block.copy]

end Equations

/-! ## When there is a copy -/

section Steps

variable {σ α β : Type} {action : EStateM InlineError σ α} {next : α → EStateM InlineError σ β}
  {state after : σ}

theorem bind_of_ok {a : α} (h : action state = .ok a after) :
    (action >>= next) state = next a after := by
  show EStateM.bind action next state = _
  rw [EStateM.bind, h]

theorem bind_of_error {error : InlineError} (h : action state = .error error after) :
    (action >>= next) state = .error error after := by
  show EStateM.bind action next state = _
  rw [EStateM.bind, h]

end Steps

namespace CopyM

variable {α β : Type} {definitions definitions' : List String}

/-- A copy that meets the functions `definitions` fails at the first of them; if there are none, it
does what `flat` does. -/
def Gives (action : CopyM α) (definitions : List String) (flat : Copier → α × Copier) : Prop :=
  ∀ copier, match action copier with
    | .ok a after => definitions = [] ∧ flat copier = (a, after)
    | .error error _ => definitions.head?.map InlineError.nestedDefinition = some error

theorem gives_pure (a : α) : Gives (pure a) [] fun copier => (a, copier) :=
  fun _ => ⟨rfl, rfl⟩

/-- A copy that looks at its state. -/
theorem gives_look {next : Copier → CopyM α} {flat : Copier → Copier → α × Copier}
    (h : ∀ copier, (next copier).Gives definitions (flat copier)) :
    Gives (get >>= next) definitions fun copier => flat copier copier :=
  fun copier => h copier copier

theorem Gives.bind {action : CopyM α} {next : α → CopyM β} {flat : Copier → α × Copier}
    {flat' : α → Copier → β × Copier} (h : action.Gives definitions flat)
    (hnext : ∀ a, (next a).Gives definitions' (flat' a)) :
    (action >>= next).Gives (definitions ++ definitions') fun copier =>
      flat' (flat copier).1 (flat copier).2 := by
  intro copier
  have haction := h copier
  cases hrun : action copier with
  | ok a after =>
    rw [hrun] at haction
    obtain ⟨rfl, hflat⟩ := haction
    simp only [bind_of_ok hrun, hflat]
    exact hnext a after
  | error error reached =>
    rw [hrun] at haction
    obtain ⟨name, hname, rfl⟩ := Option.map_eq_some_iff.mp haction
    obtain ⟨later, rfl⟩ := List.head?_eq_some_iff.mp hname
    simp only [bind_of_error hrun]
    rfl

/-- Nothing stands in the way of the second part. -/
theorem Gives.bind_pure {action : CopyM α} {flat : Copier → α × Copier}
    (h : action.Gives definitions flat) (f : α → β) :
    (action >>= fun a => pure (f a)).Gives definitions fun copier =>
      (f (flat copier).1, (flat copier).2) := by
  have hboth := h.bind fun a => gives_pure (f a)
  rwa [List.append_nil] at hboth

end CopyM

open CopyM

variable {rule : CopyRule}

mutual

/-- A copy is the flat one unless a function is defined, the first of which it fails at. -/
theorem Stmt.copy?_gives : ∀ stmt : Stmt,
    (stmt.copy? rule).Gives (stmt.gather Stmt.ownDefinition) (stmt.copy rule)
  | .expr value => by
    rw [Stmt.copy?, Stmt.gather_expr, funext (Stmt.copy_expr rule · value)]
    exact gives_look fun copier => gives_pure _
  | .assign targets value => by
    rw [Stmt.copy?, Stmt.gather_assign, funext (Stmt.copy_assign rule · targets value)]
    exact gives_look fun copier => gives_pure _
  | .declare vars value => by
    rw [Stmt.copy?, Stmt.gather_declare, funext (Stmt.copy_declare rule · vars value)]
    exact fun copier => ⟨rfl, rfl⟩
  | .define function => by
    rw [Stmt.copy?, Stmt.gather_define]
    exact fun copier => rfl
  | .branch condition body => by
    rw [Stmt.copy?, Stmt.gather_branch, funext (Stmt.copy_branch rule · condition body)]
    exact gives_look fun copier => (Block.copy?_gives body).bind_pure _
  | .switch scrutinee cases => by
    rw [Stmt.copy?, Stmt.gather_switch, funext (Stmt.copy_switch rule · scrutinee cases)]
    exact gives_look fun copier => (Case.copy?_gives cases).bind_pure _
  | .loop init condition step body => by
    rw [Stmt.copy?, Stmt.gather_loop, funext (Stmt.copy_loop rule · init condition step body),
      List.append_assoc]
    have hlater := fun (init : Block) (condition : Expr) =>
      (Block.copy?_gives step).bind fun step =>
        (Block.copy?_gives body).bind_pure (Stmt.loop init condition step)
    have hloop := (Block.copy?_gives init).bind fun init =>
      gives_look fun copier => hlater init (condition.rename (copier.nameFor rule))
    exact hloop
  | .block body => by
    rw [Stmt.copy?, Stmt.gather_block, funext (Stmt.copy_block rule · body)]
    exact (Block.copy?_gives body).bind_pure _

theorem Case.copy?_gives : ∀ cases : List Case,
    (Case.copyCases? rule cases).Gives (Case.gather Stmt.ownDefinition cases)
      (Case.copyCases rule cases)
  | [] => by
    rw [Case.copyCases?, Case.gather_nil, funext (Case.copyCases_nil rule)]
    exact gives_pure _
  | ⟨value, body⟩ :: cases => by
    rw [Case.copyCases?, Case.gather_cons, funext (Case.copyCases_cons rule · value body cases)]
    exact (Block.copy?_gives body).bind fun body => (Case.copy?_gives cases).bind_pure _

theorem Block.copy?_gives : ∀ block : Block,
    (Block.copy? rule block).Gives (Block.gather Stmt.ownDefinition block) (Block.copy rule block)
  | [] => by
    rw [Block.copy?, Block.gather_nil, funext (Block.copy_nil rule)]
    exact gives_pure _
  | stmt :: stmts => by
    rw [Block.copy?, Block.gather_cons, funext (Block.copy_cons rule · stmt stmts)]
    exact (Stmt.copy?_gives stmt).bind fun stmt => (Block.copy?_gives stmts).bind_pure _

end

namespace InlineM

variable {inliner : Inliner} {block : Block}

theorem copyBlock_eq_ok (h : Block.gather Stmt.ownDefinition block = []) :
    copyBlock rule block inliner = .ok (Block.copy rule block { names := inliner.names }).1
      { inliner with names := (Block.copy rule block { names := inliner.names }).2.names } := by
  have hcopy := @Block.copy?_gives rule block { names := inliner.names }
  rw [copyBlock]
  cases hrun : Block.copy? rule block { names := inliner.names } with
  | ok copy copier =>
    rw [hrun] at hcopy
    rw [hcopy.2]
  | error error reached =>
    rw [hrun, h] at hcopy
    cases hcopy

theorem copyBlock_eq_error {name : String} {later : List String}
    (h : Block.gather Stmt.ownDefinition block = name :: later) :
    ∃ names, copyBlock rule block inliner =
      .error (.nestedDefinition name) { inliner with names } := by
  have hcopy := @Block.copy?_gives rule block { names := inliner.names }
  rw [copyBlock]
  cases hrun : Block.copy? rule block { names := inliner.names } with
  | ok copy copier =>
    rw [hrun, h] at hcopy
    cases hcopy.1
  | error error reached =>
    rw [hrun, h] at hcopy
    obtain rfl := Option.some.inj hcopy
    exact ⟨reached.names, rfl⟩

end InlineM

end YulInline
