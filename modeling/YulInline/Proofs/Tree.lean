import YulInline.Inliner.Basic

/-!
# What occurs in a tree

The developments about the inliner speak of the variables, declarations, calls and definitions that
occur in a block. All of these are gathered by one traversal, `Block.gather`: it visits every
statement, nested ones included, and collects what a given function says of each. Such a function
looks at the head of a statement only, since the blocks inside it are visited on their own.
-/

namespace YulInline

/-! ## Expressions -/

mutual

/-- The variables that an expression refers to. -/
def Expr.vars : Expr → List String
  | .literal _ => []
  | .ident name => [name]
  | .instr _ args => Expr.varsOfArgs args
  | .call _ args => Expr.varsOfArgs args

/-- The variables that a list of arguments refers to. -/
def Expr.varsOfArgs : List Expr → List String
  | [] => []
  | arg :: args => arg.vars ++ Expr.varsOfArgs args

end

/-- The variables that an initial value refers to, which may be missing. -/
def Expr.varsOfValue : Option Expr → List String
  | none => []
  | some value => value.vars

mutual

/-- The calls in an expression: the name of the function, and the number of arguments. -/
def Expr.calls : Expr → List (String × Nat)
  | .literal _ => []
  | .ident _ => []
  | .instr _ args => Expr.callsOfArgs args
  | .call callee args => (callee, args.length) :: Expr.callsOfArgs args

/-- The calls in a list of arguments. -/
def Expr.callsOfArgs : List Expr → List (String × Nat)
  | [] => []
  | arg :: args => arg.calls ++ Expr.callsOfArgs args

end

/-- The calls in an initial value, which may be missing. -/
def Expr.callsOfValue : Option Expr → List (String × Nat)
  | none => []
  | some value => value.calls

/-! ## Gathering from statements -/

section Gather

variable {α : Type} (own : Stmt → List α)

mutual

/-- What `own` says of a statement and of the statements inside it. -/
def Stmt.gather : Stmt → List α
  | .expr value => own (.expr value)
  | .assign targets value => own (.assign targets value)
  | .declare vars value => own (.declare vars value)
  | .define ⟨name, params, returns, body⟩ =>
    own (.define ⟨name, params, returns, body⟩) ++ Block.gather body
  | .branch condition body => own (.branch condition body) ++ Block.gather body
  | .switch scrutinee cases => own (.switch scrutinee cases) ++ Case.gather cases
  | .loop init condition step body =>
    own (.loop init condition step body) ++
      (Block.gather init ++ Block.gather step ++ Block.gather body)
  | .block body => own (.block body) ++ Block.gather body

/-- What `own` says of the statements in a list of cases. -/
def Case.gather : List Case → List α
  | [] => []
  | ⟨_, body⟩ :: cases => Block.gather body ++ Case.gather cases

/-- What `own` says of the statements in a block. -/
def Block.gather : List Stmt → List α
  | [] => []
  | stmt :: stmts => stmt.gather ++ Block.gather stmts

end

variable {own}

@[simp] theorem Block.gather_nil : Block.gather own [] = [] := by
  rw [Block.gather]

@[simp] theorem Block.gather_cons (stmt : Stmt) (stmts : Block) :
    Block.gather own (stmt :: stmts) = stmt.gather own ++ Block.gather own stmts := by
  rw [Block.gather]

@[simp] theorem Block.gather_append (front back : Block) :
    Block.gather own (front ++ back) = Block.gather own front ++ Block.gather own back := by
  induction front with
  | nil => simp
  | cons stmt stmts ih => simp [ih]

@[simp] theorem Case.gather_nil : Case.gather own [] = [] := by
  rw [Case.gather]

@[simp] theorem Case.gather_cons (value : Option Literal) (body : Block) (cases : List Case) :
    Case.gather own (⟨value, body⟩ :: cases) = Block.gather own body ++ Case.gather own cases := by
  rw [Case.gather]

@[simp] theorem Stmt.gather_expr (value : Expr) :
    (Stmt.expr value).gather own = own (.expr value) := by
  rw [Stmt.gather]

@[simp] theorem Stmt.gather_assign (targets : List String) (value : Expr) :
    (Stmt.assign targets value).gather own = own (.assign targets value) := by
  rw [Stmt.gather]

@[simp] theorem Stmt.gather_declare (vars : List TypedName) (value : Option Expr) :
    (Stmt.declare vars value).gather own = own (.declare vars value) := by
  rw [Stmt.gather]

@[simp] theorem Stmt.gather_define (function : FunctionDef) :
    (Stmt.define function).gather own = own (.define function) ++ Block.gather own function.body := by
  cases function
  rw [Stmt.gather]

@[simp] theorem Stmt.gather_branch (condition : Expr) (body : Block) :
    (Stmt.branch condition body).gather own =
      own (.branch condition body) ++ Block.gather own body := by
  rw [Stmt.gather]

@[simp] theorem Stmt.gather_switch (scrutinee : Expr) (cases : List Case) :
    (Stmt.switch scrutinee cases).gather own =
      own (.switch scrutinee cases) ++ Case.gather own cases := by
  rw [Stmt.gather]

@[simp] theorem Stmt.gather_loop (init : Block) (condition : Expr) (step body : Block) :
    (Stmt.loop init condition step body).gather own =
      own (.loop init condition step body) ++
        (Block.gather own init ++ Block.gather own step ++ Block.gather own body) := by
  rw [Stmt.gather]

@[simp] theorem Stmt.gather_block (body : Block) :
    (Stmt.block body).gather own = own (.block body) ++ Block.gather own body := by
  rw [Stmt.gather]

theorem Block.mem_gather_of_mem {stmt : Stmt} {block : Block} {a : α} (hstmt : stmt ∈ block)
    (ha : a ∈ stmt.gather own) : a ∈ Block.gather own block := by
  induction block with
  | nil => simp at hstmt
  | cons head stmts ih =>
    rw [Block.gather_cons, List.mem_append]
    rcases List.mem_cons.mp hstmt with rfl | hstmt
    · exact Or.inl ha
    · exact Or.inr (ih hstmt)

theorem Block.exists_of_mem_gather {block : Block} {a : α} (ha : a ∈ Block.gather own block) :
    ∃ stmt ∈ block, a ∈ stmt.gather own := by
  induction block with
  | nil => simp at ha
  | cons head stmts ih =>
    rw [Block.gather_cons, List.mem_append] at ha
    rcases ha with ha | ha
    · exact ⟨head, List.mem_cons_self, ha⟩
    · obtain ⟨stmt, hstmt, ha⟩ := ih ha
      exact ⟨stmt, List.mem_cons_of_mem head hstmt, ha⟩

variable {β : Type} {own' : Stmt → List β} {rel : α → β → Prop}

mutual

/-- What is gathered from the statements of a tree is found among what else is gathered from them,
if that is so for each statement by itself. -/
theorem Stmt.mem_gather_iff (h : ∀ stmt a, a ∈ own stmt ↔ ∃ b ∈ own' stmt, rel a b) (a : α) :
    ∀ stmt : Stmt, a ∈ stmt.gather own ↔ ∃ b ∈ stmt.gather own', rel a b
  | .expr value => by
    rw [Stmt.gather_expr, Stmt.gather_expr, h]
  | .assign targets value => by
    rw [Stmt.gather_assign, Stmt.gather_assign, h]
  | .declare vars value => by
    rw [Stmt.gather_declare, Stmt.gather_declare, h]
  | .define ⟨name, params, returns, body⟩ => by
    simp only [Stmt.gather_define, List.mem_append, or_and_right, exists_or, h,
      Block.mem_gather_iff h a body]
  | .branch condition body => by
    simp only [Stmt.gather_branch, List.mem_append, or_and_right, exists_or, h,
      Block.mem_gather_iff h a body]
  | .switch scrutinee cases => by
    simp only [Stmt.gather_switch, List.mem_append, or_and_right, exists_or, h,
      Case.mem_gather_iff h a cases]
  | .loop init condition step body => by
    simp only [Stmt.gather_loop, List.mem_append, or_and_right, exists_or, h,
      Block.mem_gather_iff h a init, Block.mem_gather_iff h a step, Block.mem_gather_iff h a body]
  | .block body => by
    simp only [Stmt.gather_block, List.mem_append, or_and_right, exists_or, h,
      Block.mem_gather_iff h a body]

theorem Case.mem_gather_iff (h : ∀ stmt a, a ∈ own stmt ↔ ∃ b ∈ own' stmt, rel a b) (a : α) :
    ∀ cases : List Case, a ∈ Case.gather own cases ↔ ∃ b ∈ Case.gather own' cases, rel a b
  | [] => by simp
  | ⟨value, body⟩ :: cases => by
    simp only [Case.gather_cons, List.mem_append, or_and_right, exists_or,
      Block.mem_gather_iff h a body, Case.mem_gather_iff h a cases]

theorem Block.mem_gather_iff (h : ∀ stmt a, a ∈ own stmt ↔ ∃ b ∈ own' stmt, rel a b) (a : α) :
    ∀ block : Block, a ∈ Block.gather own block ↔ ∃ b ∈ Block.gather own' block, rel a b
  | [] => by simp
  | stmt :: stmts => by
    simp only [Block.gather_cons, List.mem_append, or_and_right, exists_or,
      Stmt.mem_gather_iff h a stmt, Block.mem_gather_iff h a stmts]

end

end Gather

/-! ## What is gathered -/

/-- The names that a statement introduces, apart from the statements inside it. -/
def Stmt.introduced : Stmt → List String
  | .declare vars _ => vars.map (·.name)
  | .define function =>
    function.name :: (function.params.map (·.name) ++ function.returns.map (·.name))
  | _ => []

/-- All names that are declared in a block, as often as they are: functions, parameters, return
variables and variables. -/
def Block.declared (block : Block) : List String :=
  Block.gather Stmt.introduced block

/-- The calls that a statement evaluates in front of the statements inside it. The condition of a
loop is evaluated again and again and does not count. -/
def Stmt.ownCalls : Stmt → List (String × Nat)
  | .expr value => value.calls
  | .assign _ value => value.calls
  | .declare _ value => Expr.callsOfValue value
  | .branch condition _ => condition.calls
  | .switch scrutinee _ => scrutinee.calls
  | .define _ | .loop .. | .block _ => []

/-- The calls in a block outside the conditions of loops: the name of the function, and the number
of arguments. -/
def Block.calls (block : Block) : List (String × Nat) :=
  Block.gather Stmt.ownCalls block

/-- The name of the function that a statement defines. -/
def Stmt.ownDefinition : Stmt → List String
  | .define function => [function.name]
  | _ => []

/-- The functions that are defined anywhere in a block. -/
def Block.definitions (block : Block) : List String :=
  Block.gather Stmt.ownDefinition block

/-- The variables that a statement refers to or assigns to, apart from the statements inside it. -/
def Stmt.ownMentions : Stmt → List String
  | .expr value => value.vars
  | .assign targets value => targets ++ value.vars
  | .declare _ value => Expr.varsOfValue value
  | .branch condition _ => condition.vars
  | .switch scrutinee _ => scrutinee.vars
  | .loop _ condition _ _ => condition.vars
  | .define _ | .block _ => []

/-- The variables that are referred to or assigned to anywhere in a block. -/
def Block.mentions (block : Block) : List String :=
  Block.gather Stmt.ownMentions block

/-- The number of statements in a block, nested ones included. -/
def Block.size (block : Block) : Nat :=
  (Block.gather (fun stmt => [stmt.kind]) block).length

/-! ## Scope -/

/-- The names that a statement declares in the block that it stands in. -/
def Stmt.declares : Stmt → List String
  | .declare vars _ => vars.map (·.name)
  | _ => []

/-- The names that are declared directly in a block. They are in scope from their declarations to
the end of the block. -/
def Block.declares (block : Block) : List String :=
  block.flatMap Stmt.declares

@[simp] theorem Block.declares_nil : Block.declares [] = [] := rfl

@[simp] theorem Block.declares_cons (stmt : Stmt) (stmts : Block) :
    Block.declares (stmt :: stmts) = stmt.declares ++ Block.declares stmts :=
  List.flatMap_cons

@[simp] theorem Block.declares_append (front back : Block) :
    Block.declares (front ++ back) = Block.declares front ++ Block.declares back :=
  List.flatMap_append

theorem Stmt.declares_sublist_gather (stmt : Stmt) :
    stmt.declares.Sublist (stmt.gather Stmt.introduced) := by
  cases stmt <;> simp [Stmt.declares, Stmt.introduced]

/-- The names that are declared directly in a block are declared in it. -/
theorem Block.declares_sublist_declared (block : Block) :
    (Block.declares block).Sublist (Block.declared block) := by
  induction block with
  | nil => simp
  | cons stmt stmts ih =>
    rw [Block.declares_cons, Block.declared, Block.gather_cons]
    exact stmt.declares_sublist_gather.append ih

theorem Block.declares_subset_declared (block : Block) :
    Block.declares block ⊆ Block.declared block :=
  (Block.declares_sublist_declared block).subset

section Names

variable {own : Stmt → List String}

mutual

/-- What is gathered from a tree are names in it, if that is so for each statement by itself. -/
theorem Stmt.gather_subset_names (h : ∀ stmt, own stmt ⊆ stmt.names) :
    ∀ stmt : Stmt, stmt.gather own ⊆ stmt.names
  | .expr value => by
    rw [Stmt.gather_expr]
    exact h _
  | .assign targets value => by
    rw [Stmt.gather_assign]
    exact h _
  | .declare vars value => by
    rw [Stmt.gather_declare]
    exact h _
  | .define ⟨name, params, returns, body⟩ => by
    rw [Stmt.gather_define]
    refine List.append_subset.mpr ⟨h _, fun other hother => ?_⟩
    rw [Stmt.names]
    exact List.mem_cons_of_mem _ (List.mem_append_right _ (Block.gather_subset_names h body hother))
  | .branch condition body => by
    rw [Stmt.gather_branch]
    refine List.append_subset.mpr ⟨h _, fun name hname => ?_⟩
    rw [Stmt.names]
    exact List.mem_append_right _ (Block.gather_subset_names h body hname)
  | .switch scrutinee cases => by
    rw [Stmt.gather_switch]
    refine List.append_subset.mpr ⟨h _, fun name hname => ?_⟩
    rw [Stmt.names]
    exact List.mem_append_right _ (Case.gather_subset_names h cases hname)
  | .loop init condition step body => by
    rw [Stmt.gather_loop]
    refine List.append_subset.mpr ⟨h _, fun name hname => ?_⟩
    have hinit := Block.gather_subset_names h init (a := name)
    have hstep := Block.gather_subset_names h step (a := name)
    have hbody := Block.gather_subset_names h body (a := name)
    simp only [Stmt.names, List.mem_append] at hname ⊢
    rcases hname with (hname | hname) | hname
    · exact Or.inl (Or.inl (Or.inl (hinit hname)))
    · exact Or.inl (Or.inr (hstep hname))
    · exact Or.inr (hbody hname)
  | .block body => by
    rw [Stmt.gather_block]
    refine List.append_subset.mpr ⟨h _, ?_⟩
    rw [Stmt.names]
    exact Block.gather_subset_names h body

theorem Case.gather_subset_names (h : ∀ stmt, own stmt ⊆ stmt.names) :
    ∀ cases : List Case, Case.gather own cases ⊆ Case.namesOfCases cases
  | [] => by
    rw [Case.gather_nil]
    exact List.nil_subset _
  | ⟨value, body⟩ :: cases => by
    rw [Case.gather_cons, Case.namesOfCases]
    intro name hname
    rcases List.mem_append.mp hname with hname | hname
    · exact List.mem_append_left _ (Block.gather_subset_names h body hname)
    · exact List.mem_append_right _ (Case.gather_subset_names h cases hname)

theorem Block.gather_subset_names (h : ∀ stmt, own stmt ⊆ stmt.names) :
    ∀ block : Block, Block.gather own block ⊆ Block.names block
  | [] => by
    rw [Block.gather_nil]
    exact List.nil_subset _
  | stmt :: stmts => by
    rw [Block.gather_cons, Block.names]
    intro name hname
    rcases List.mem_append.mp hname with hname | hname
    · exact List.mem_append_left _ (Stmt.gather_subset_names h stmt hname)
    · exact List.mem_append_right _ (Block.gather_subset_names h stmts hname)

end

end Names

theorem Stmt.introduced_subset_names (stmt : Stmt) : stmt.introduced ⊆ stmt.names := by
  cases stmt with
  | declare vars value =>
    rw [Stmt.names]
    exact List.subset_append_left ..
  | define function =>
    obtain ⟨name, params, returns, body⟩ := function
    rw [Stmt.names]
    exact List.cons_subset_cons _ (List.subset_append_left ..)
  | _ => exact List.nil_subset _

/-- Declared names are names. -/
theorem Block.introduced_subset_names (block : Block) :
    Block.gather Stmt.introduced block ⊆ Block.names block :=
  Block.gather_subset_names Stmt.introduced_subset_names block

mutual

theorem Expr.vars_subset_names : ∀ e : Expr, e.vars ⊆ e.names
  | .literal value => List.nil_subset _
  | .ident name => List.Subset.refl _
  | .instr op args => by
    rw [Expr.vars, Expr.names]
    exact Expr.varsOfArgs_subset_names args
  | .call callee args => by
    rw [Expr.vars, Expr.names]
    exact List.subset_cons_of_subset _ (Expr.varsOfArgs_subset_names args)

theorem Expr.varsOfArgs_subset_names : ∀ args : List Expr,
    Expr.varsOfArgs args ⊆ Expr.namesOfArgs args
  | [] => List.nil_subset _
  | arg :: args => by
    rw [Expr.varsOfArgs, Expr.namesOfArgs]
    intro name hname
    rcases List.mem_append.mp hname with hname | hname
    · exact List.mem_append_left _ (Expr.vars_subset_names arg hname)
    · exact List.mem_append_right _ (Expr.varsOfArgs_subset_names args hname)

end

theorem Stmt.ownMentions_subset_names (stmt : Stmt) : stmt.ownMentions ⊆ stmt.names := by
  intro name hname
  cases stmt with
  | expr value =>
    rw [Stmt.names]
    exact value.vars_subset_names hname
  | assign targets value =>
    rw [Stmt.names]
    rcases List.mem_append.mp hname with hname | hname
    · exact List.mem_append_left _ hname
    · exact List.mem_append_right _ (value.vars_subset_names hname)
  | declare vars value =>
    rw [Stmt.names]
    cases value with
    | none => cases hname
    | some value => exact List.mem_append_right _ (value.vars_subset_names hname)
  | branch condition body =>
    rw [Stmt.names]
    exact List.mem_append_left _ (condition.vars_subset_names hname)
  | switch scrutinee cases =>
    rw [Stmt.names]
    exact List.mem_append_left _ (scrutinee.vars_subset_names hname)
  | loop init condition step body =>
    simp only [Stmt.names, List.mem_append]
    exact Or.inl (Or.inl (Or.inr (condition.vars_subset_names hname)))
  | _ => cases hname

/-- Variables that are referred or assigned to are names. -/
theorem Block.mentions_subset_names (block : Block) : Block.mentions block ⊆ Block.names block :=
  Block.gather_subset_names Stmt.ownMentions_subset_names block

/-! ## Changing the parts of a tree -/

section MapParts

variable (expr : Expr → Expr) (var : TypedName → TypedName) (label : Literal → Literal)

mutual

/-- A statement with its expressions, declared variables and the literals of its cases changed. -/
def Stmt.mapParts : Stmt → Stmt
  | .expr value => .expr (expr value)
  | .assign targets value => .assign targets (expr value)
  | .declare vars value => .declare (vars.map var) (value.map expr)
  | .define ⟨name, params, returns, body⟩ =>
    .define ⟨name, params.map var, returns.map var, Block.mapParts body⟩
  | .branch condition body => .branch (expr condition) (Block.mapParts body)
  | .switch scrutinee cases => .switch (expr scrutinee) (Case.mapParts cases)
  | .loop init condition step body =>
    .loop (Block.mapParts init) (expr condition) (Block.mapParts step) (Block.mapParts body)
  | .block body => .block (Block.mapParts body)

/-- The cases of a list with their parts changed. -/
def Case.mapParts : List Case → List Case
  | [] => []
  | ⟨value, body⟩ :: cases => ⟨value.map label, Block.mapParts body⟩ :: Case.mapParts cases

/-- A block with the parts of all its statements changed. -/
def Block.mapParts : List Stmt → List Stmt
  | [] => []
  | stmt :: stmts => stmt.mapParts :: Block.mapParts stmts

end

variable {expr var label}

theorem TypedName.names_map (hvar : ∀ v, (var v).name = v.name) (vars : List TypedName) :
    (vars.map var).map (·.name) = vars.map (·.name) := by
  rw [List.map_map]
  exact List.map_congr_left fun v _ => hvar v

mutual

/-- The names of a tree stay if those of its parts do. -/
theorem Stmt.names_mapParts (hexpr : ∀ e, (expr e).names = e.names)
    (hvar : ∀ v, (var v).name = v.name) :
    ∀ stmt : Stmt, (stmt.mapParts expr var label).names = stmt.names
  | .expr value => hexpr value
  | .assign targets value => by
    rw [Stmt.mapParts, Stmt.names, Stmt.names, hexpr value]
  | .declare vars none => by
    rw [Stmt.mapParts, Stmt.names, Stmt.names, TypedName.names_map hvar vars]
    rfl
  | .declare vars (some value) => by
    rw [Stmt.mapParts, Stmt.names, Stmt.names, TypedName.names_map hvar vars]
    exact congrArg (vars.map (·.name) ++ ·) (hexpr value)
  | .define ⟨name, params, returns, body⟩ => by
    rw [Stmt.mapParts, Stmt.names, Stmt.names, TypedName.names_map hvar params,
      TypedName.names_map hvar returns, Block.names_mapParts hexpr hvar body]
  | .branch condition body => by
    rw [Stmt.mapParts, Stmt.names, Stmt.names, hexpr condition,
      Block.names_mapParts hexpr hvar body]
  | .switch scrutinee cases => by
    rw [Stmt.mapParts, Stmt.names, Stmt.names, hexpr scrutinee,
      Case.names_mapParts hexpr hvar cases]
  | .loop init condition step body => by
    rw [Stmt.mapParts, Stmt.names, Stmt.names, hexpr condition,
      Block.names_mapParts hexpr hvar init, Block.names_mapParts hexpr hvar step,
      Block.names_mapParts hexpr hvar body]
  | .block body => Block.names_mapParts hexpr hvar body

theorem Case.names_mapParts (hexpr : ∀ e, (expr e).names = e.names)
    (hvar : ∀ v, (var v).name = v.name) :
    ∀ cases : List Case,
      Case.namesOfCases (Case.mapParts expr var label cases) = Case.namesOfCases cases
  | [] => rfl
  | ⟨value, body⟩ :: cases => by
    rw [Case.mapParts, Case.namesOfCases, Case.namesOfCases, Block.names_mapParts hexpr hvar body,
      Case.names_mapParts hexpr hvar cases]

theorem Block.names_mapParts (hexpr : ∀ e, (expr e).names = e.names)
    (hvar : ∀ v, (var v).name = v.name) :
    ∀ block : Block, Block.names (Block.mapParts expr var label block) = Block.names block
  | [] => rfl
  | stmt :: stmts => by
    rw [Block.mapParts, Block.names, Block.names, Stmt.names_mapParts hexpr hvar stmt,
      Block.names_mapParts hexpr hvar stmts]

end

end MapParts

end YulInline
