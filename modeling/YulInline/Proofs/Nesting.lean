import YulInline.Proofs.RoundTrip
import YulInline.Proofs.UntouchedModules
import Mathlib.Data.List.MinMax

/-!
# How deep an expanded module is nested

The nesting of a module is that of its stored form. Copies are nested as deep as what they are
copies of (`Block.nesting_copy`), and an expansion goes as much deeper as the bodies that it copies,
since they take the places of the statements around the calls (`Block.Expands.nesting_le`). A body
may hold copies itself by the time it is copied: the log of all copies bounds how many are on top of
each other (`Chronicle.nesting_le`), and there is one for each call site.

So a module that could be read may have a result that cannot be read back, because storing it does
not look at the nesting. `ofText?_toText_of_optimise` says exactly when it can.
-/

namespace YulInline

open Json (depthOfItems)

/-! ## Nesting -/

/-- How deep the stored forms of arguments are nested. -/
def Expr.nestingOfArgs (args : List Expr) : Nat :=
  depthOfItems (Expr.toJsons args)

/-- How deep the stored forms of cases are nested. -/
def Case.nestingOfCases (cases : List Case) : Nat :=
  depthOfItems (Case.toJsons cases)

/-- How deep the stored forms of the statements of a block are nested. -/
def Block.nesting (block : List Stmt) : Nat :=
  depthOfItems (Stmt.toJsons block)

/-! The nesting of a node by the nesting of its parts: an object and the array in it are a level
each. -/

section Equations

@[simp] theorem Expr.nestingOfArgs_nil : Expr.nestingOfArgs [] = 0 := rfl

@[simp] theorem Expr.nestingOfArgs_cons (arg : Expr) (args : List Expr) :
    Expr.nestingOfArgs (arg :: args) = max arg.toJson.depth (Expr.nestingOfArgs args) := rfl

@[simp] theorem Expr.depth_literal (value : Literal) : (Expr.literal value).toJson.depth = 1 := rfl

@[simp] theorem Expr.depth_ident (name : String) : (Expr.ident name).toJson.depth = 1 := rfl

@[simp] theorem Expr.depth_instr (op : String) (args : List Expr) :
    (Expr.instr op args).toJson.depth = Expr.nestingOfArgs args + 2 := by
  simp [Expr.toJson, Json.ofKind, Json.depth, Json.depthOfMembers, Expr.nestingOfArgs]

@[simp] theorem Expr.depth_call (callee : String) (args : List Expr) :
    (Expr.call callee args).toJson.depth = Expr.nestingOfArgs args + 2 := by
  simp [Expr.toJson, Json.ofKind, Json.ofName, Json.depth, Json.depthOfMembers, Expr.nestingOfArgs]

theorem Expr.depth_pos (expr : Expr) : 1 ≤ expr.toJson.depth := by
  cases expr <;> simp

@[simp] theorem Expr.depth_none : (Expr.toJsonOrNull none).depth = 0 := rfl

@[simp] theorem Expr.depth_some (value : Expr) :
    (Expr.toJsonOrNull (some value)).depth = value.toJson.depth := rfl

@[simp] theorem Stmt.depth_expr (value : Expr) :
    (Stmt.expr value).toJson.depth = value.toJson.depth + 1 := by
  simp [Stmt.toJson, Json.ofKind, Json.depth, Json.depthOfMembers]

@[simp] theorem Stmt.depth_assign (targets : List String) (value : Expr) :
    (Stmt.assign targets value).toJson.depth =
      max (depthOfItems (targets.map Json.ofName) + 1) value.toJson.depth + 1 := by
  simp [Stmt.toJson, Json.ofKind, Json.depth, Json.depthOfMembers]

@[simp] theorem Stmt.depth_declare (vars : List TypedName) (value : Option Expr) :
    (Stmt.declare vars value).toJson.depth =
      max (depthOfItems (vars.map TypedName.toJson) + 1) (Expr.toJsonOrNull value).depth + 1 := by
  simp [Stmt.toJson, Json.ofKind, Json.depth, Json.depthOfMembers]

theorem Stmt.depth_declare_singleton (var : TypedName) (value : Option Expr) :
    (Stmt.declare [var] value).toJson.depth = max 2 (Expr.toJsonOrNull value).depth + 1 :=
  Stmt.depth_declare [var] value

@[simp] theorem Stmt.depth_branch (condition : Expr) (body : List Stmt) :
    (Stmt.branch condition body).toJson.depth =
      max condition.toJson.depth (Block.nesting body + 2) + 1 := by
  simp [Stmt.toJson, Json.ofKind, Json.depth, Json.depthOfMembers, Block.nesting]

@[simp] theorem Stmt.depth_switch (scrutinee : Expr) (cases : List Case) :
    (Stmt.switch scrutinee cases).toJson.depth =
      max scrutinee.toJson.depth (Case.nestingOfCases cases + 1) + 1 := by
  simp [Stmt.toJson, Json.ofKind, Json.depth, Json.depthOfMembers, Case.nestingOfCases]

@[simp] theorem Stmt.depth_loop (init : List Stmt) (condition : Expr) (step body : List Stmt) :
    (Stmt.loop init condition step body).toJson.depth =
      max (Block.nesting init + 2) (max condition.toJson.depth
        (max (Block.nesting step + 2) (Block.nesting body + 2))) + 1 := by
  simp [Stmt.toJson, Json.ofKind, Json.depth, Json.depthOfMembers, Block.nesting]

@[simp] theorem Stmt.depth_block (body : List Stmt) :
    (Stmt.block body).toJson.depth = Block.nesting body + 2 := by
  simp [Stmt.toJson, Json.ofKind, Json.depth, Json.depthOfMembers, Block.nesting]

@[simp] theorem Case.nestingOfCases_nil : Case.nestingOfCases [] = 0 := rfl

@[simp] theorem Case.nestingOfCases_cons (value : Option Literal) (body : List Stmt)
    (cases : List Case) :
    Case.nestingOfCases (⟨value, body⟩ :: cases) =
      max (max (Literal.toJson value).depth (Block.nesting body + 2) + 1)
        (Case.nestingOfCases cases) := by
  simp [Case.nestingOfCases, Case.toJsons, Json.depth, Json.depthOfItems, Json.depthOfMembers,
    Block.nesting]

@[simp] theorem Block.nesting_nil : Block.nesting [] = 0 := rfl

@[simp] theorem Block.nesting_cons (stmt : Stmt) (block : List Stmt) :
    Block.nesting (stmt :: block) = max stmt.toJson.depth (Block.nesting block) := rfl

@[simp] theorem Block.nesting_append (front back : List Stmt) :
    Block.nesting (front ++ back) = max (Block.nesting front) (Block.nesting back) := by
  induction front with
  | nil => simp
  | cons stmt stmts ih => rw [List.cons_append, nesting_cons, nesting_cons, ih, max_assoc]

end Equations

/-! ## Copies -/

variable {rule : CopyRule}

theorem depth_ofNames_map (f : String → String) (names : List String) :
    depthOfItems ((names.map f).map Json.ofName) = depthOfItems (names.map Json.ofName) := by
  induction names with
  | nil => rfl
  | cons name names ih => exact congrArg (max 1) ih

theorem Copier.depth_declare (vars : List TypedName) (copier : Copier) :
    depthOfItems ((copier.declare rule vars).1.map TypedName.toJson) =
      depthOfItems (vars.map TypedName.toJson) := by
  induction vars generalizing copier with
  | nil => rfl
  | cons var vars ih => exact congrArg (max 1) (ih _)

mutual

theorem Expr.depth_rename (f : String → String) :
    (expr : Expr) → (expr.rename f).toJson.depth = expr.toJson.depth
  | .literal _ => by rw [Expr.rename]
  | .ident _ => by rw [Expr.rename, Expr.depth_ident, Expr.depth_ident]
  | .instr _ args => by
    rw [Expr.rename, Expr.depth_instr, Expr.depth_instr, Expr.nestingOfArgs_renameAll f args]
  | .call _ args => by
    rw [Expr.rename, Expr.depth_call, Expr.depth_call, Expr.nestingOfArgs_renameAll f args]

theorem Expr.nestingOfArgs_renameAll (f : String → String) :
    (args : List Expr) → Expr.nestingOfArgs (Expr.renameAll f args) = Expr.nestingOfArgs args
  | [] => by rw [Expr.renameAll]
  | arg :: args => by
    rw [Expr.renameAll, Expr.nestingOfArgs_cons, Expr.nestingOfArgs_cons, Expr.depth_rename f arg,
      Expr.nestingOfArgs_renameAll f args]

end

mutual

theorem Stmt.depth_copy : (stmt : Stmt) → (copier : Copier) →
    (stmt.copy rule copier).1.toJson.depth = stmt.toJson.depth
  | .expr value, _ => by simp [Expr.depth_rename]
  | .assign targets value, _ => by
    simp [Expr.depth_rename, depth_ofNames_map, - List.map_map]
  | .declare vars none, _ => by simp [Copier.depth_declare]
  | .declare vars (some value), _ => by simp [Copier.depth_declare, Expr.depth_rename]
  | .define function, _ => by simp
  | .branch condition body, _ => by simp [Expr.depth_rename, Block.nesting_copy body]
  | .switch scrutinee cases, _ => by simp [Expr.depth_rename, Case.nestingOfCases_copy cases]
  | .loop init condition step body, _ => by
    simp [Expr.depth_rename, Block.nesting_copy init, Block.nesting_copy step,
      Block.nesting_copy body]
  | .block body, _ => by simp [Block.nesting_copy body]

theorem Case.nestingOfCases_copy : (cases : List Case) → (copier : Copier) →
    Case.nestingOfCases (Case.copyCases rule cases copier).1 = Case.nestingOfCases cases
  | [], _ => by simp
  | ⟨value, body⟩ :: cases, _ => by
    simp [Block.nesting_copy body, Case.nestingOfCases_copy cases]

/-- A copy is nested as deep as what it is a copy of. -/
theorem Block.nesting_copy : (block : List Stmt) → (copier : Copier) →
    Block.nesting (Block.copy rule block copier).1 = Block.nesting block
  | [], _ => by simp
  | stmt :: stmts, _ => by simp [Stmt.depth_copy stmt, Block.nesting_copy stmts]

end

theorem FunctionDef.Copied.nesting {function : FunctionDef} {arguments : List String}
    {result holder : String} {copy : Block} (h : function.Copied arguments result holder copy) :
    Block.nesting copy = Block.nesting function.body := by
  obtain ⟨-, names, rfl⟩ := h
  exact Block.nesting_copy _ _

/-! ## Expansions -/

section Expands

variable {module : Block} {caller : String} {depth : Nat}

/-- The bodies that were copied are nested to depth `depth` at most. -/
def Trace.CopiesUpTo (t : Trace) (depth : Nat) : Prop :=
  ∀ expansion ∈ t.expansions, Block.nesting expansion.callee.body ≤ depth

@[simp] theorem Trace.copiesUpTo_append {s t : Trace} :
    (s ++ t).CopiesUpTo depth ↔ s.CopiesUpTo depth ∧ t.CopiesUpTo depth := by
  simp only [Trace.CopiesUpTo, Trace.expansions_append, List.forall_mem_append]

mutual

/-- What remains of an expression is nested no deeper than the expression. What is hoisted out of it
takes the place of the statement around it, and goes as much deeper as the copies do. -/
theorem Expr.Expands.depth_le {e e' : Expr} {hoisted : List Stmt} {t : Trace} :
    Expr.Expands module caller e hoisted e' t → t.CopiesUpTo depth →
      e'.toJson.depth ≤ e.toJson.depth ∧ Block.nesting hoisted ≤ e.toJson.depth + 1 + depth
  | .literal _, _ => ⟨le_rfl, Nat.zero_le _⟩
  | .ident _, _ => ⟨le_rfl, Nat.zero_le _⟩
  | .instr _ hargs, hcopies => by
    obtain ⟨hargs, hhoisted⟩ := hargs.nesting_le hcopies
    simp only [Expr.depth_instr]
    omega
  | .kept _ _ _ hargs, hcopies => by
    obtain ⟨hargs, hhoisted⟩ := hargs.nesting_le hcopies
    simp only [Expr.depth_call]
    omega
  | .expanded _ _ _ hargs hcopy, hcopies => by
    obtain ⟨hargcopies, hcopies⟩ := Trace.copiesUpTo_append.mp hcopies
    obtain ⟨-, hhoisted⟩ := hargs.nesting_le hargcopies
    have hbody := hcopies _ (List.mem_singleton_self _)
    dsimp only at hbody
    simp only [Expr.depth_ident, Expr.depth_call, Block.nesting_append, Block.nesting_cons,
      Block.nesting_nil, Stmt.depth_declare_singleton, Expr.depth_none, Stmt.depth_block,
      hcopy.nesting]
    omega

theorem Expr.ExpandsArgs.nesting_le {types : List String} {toFront : Bool} {args args' : List Expr}
    {hoisted : List Stmt} {t : Trace} :
    Expr.ExpandsArgs module caller types toFront args hoisted args' t → t.CopiesUpTo depth →
      Expr.nestingOfArgs args' ≤ Expr.nestingOfArgs args ∧
        Block.nesting hoisted ≤ Expr.nestingOfArgs args + 3 + depth
  | .nil _ _, _ => ⟨le_rfl, Nat.zero_le _⟩
  | .stays harg hargs, hcopies => by
    obtain ⟨hcopies, hlatercopies⟩ := Trace.copiesUpTo_append.mp hcopies
    obtain ⟨harg, -⟩ := harg.depth_le hcopies
    obtain ⟨hargs, hlater⟩ := hargs.nesting_le hlatercopies
    simp only [Expr.nestingOfArgs_cons]
    omega
  | .holder harg _ hargs, hcopies => by
    obtain ⟨hcopies, hlatercopies⟩ := Trace.copiesUpTo_append.mp hcopies
    obtain ⟨harg, hhoisted⟩ := harg.depth_le hcopies
    obtain ⟨hargs, hlater⟩ := hargs.nesting_le hlatercopies
    simp only [Expr.nestingOfArgs_cons, Block.nesting_append]
    omega
  | @ExpandsArgs.bound _ _ _ _ arg _ _ _ _ _ _ _ _ harg _ hargs, hcopies => by
    simp only [Trace.copiesUpTo_append] at hcopies
    obtain ⟨harg, hhoisted⟩ := harg.depth_le hcopies.1.1
    obtain ⟨hargs, hlater⟩ := hargs.nesting_le hcopies.2
    have hpos := Expr.depth_pos arg
    simp only [Expr.nestingOfArgs_cons, Expr.depth_ident, Block.nesting_append, Block.nesting_cons,
      Block.nesting_nil, Stmt.depth_declare_singleton, Expr.depth_some]
    omega

end

mutual

/-- A statement and what is hoisted out of it go as much deeper than the statement was as the copies
do. -/
theorem Stmt.Expands.depth_le {stmt stmt' : Stmt} {hoisted : List Stmt} {t : Trace} :
    Stmt.Expands module caller stmt hoisted stmt' t → t.CopiesUpTo depth →
      stmt'.toJson.depth ≤ stmt.toJson.depth + depth ∧
        Block.nesting hoisted ≤ stmt.toJson.depth + depth
  | .untouched _, _ => ⟨Nat.le_add_right _ _, Nat.zero_le _⟩
  | .expr hvalue, hcopies => by
    obtain ⟨hvalue, hhoisted⟩ := hvalue.depth_le hcopies
    simp only [Stmt.depth_expr]
    omega
  | .assign _ hvalue, hcopies => by
    obtain ⟨hvalue, hhoisted⟩ := hvalue.depth_le hcopies
    simp only [Stmt.depth_assign]
    omega
  | .empty _, _ => ⟨Nat.le_add_right _ _, Nat.zero_le _⟩
  | .declare _ hvalue, hcopies => by
    obtain ⟨hvalue, hhoisted⟩ := hvalue.depth_le hcopies
    simp only [Stmt.depth_declare, Expr.depth_some]
    omega
  | .branch hcondition hbody, hcopies => by
    obtain ⟨hcopies, hbodycopies⟩ := Trace.copiesUpTo_append.mp hcopies
    obtain ⟨hcondition, hhoisted⟩ := hcondition.depth_le hcopies
    have hbody := hbody.nesting_le hbodycopies
    simp only [Stmt.depth_branch]
    omega
  | .switch hscrutinee hcases, hcopies => by
    obtain ⟨hcopies, hcasescopies⟩ := Trace.copiesUpTo_append.mp hcopies
    obtain ⟨hscrutinee, hhoisted⟩ := hscrutinee.depth_le hcopies
    have hcases := hcases.nesting_le hcasescopies
    simp only [Stmt.depth_switch]
    omega
  | .loop _ hinit hstep hbody, hcopies => by
    simp only [Trace.copiesUpTo_append] at hcopies
    have hinit := hinit.nesting_le hcopies.1.1
    have hstep := hstep.nesting_le hcopies.1.2
    have hbody := hbody.nesting_le hcopies.2
    simp only [Stmt.depth_loop, Block.nesting_nil]
    omega
  | .block hbody, hcopies => by
    have hbody := hbody.nesting_le hcopies
    simp only [Stmt.depth_block, Block.nesting_nil]
    omega

theorem Case.Expands.nesting_le {cases cases' : List Case} {t : Trace} :
    Case.Expands module caller cases cases' t → t.CopiesUpTo depth →
      Case.nestingOfCases cases' ≤ Case.nestingOfCases cases + depth
  | .nil, _ => Nat.le_add_right _ _
  | .cons _ hbody hcases, hcopies => by
    obtain ⟨hcopies, hcasescopies⟩ := Trace.copiesUpTo_append.mp hcopies
    have hbody := hbody.nesting_le hcopies
    have hcases := hcases.nesting_le hcasescopies
    simp only [Case.nestingOfCases_cons]
    omega

theorem Block.Expands.nesting_le {block block' : Block} {t : Trace} :
    Block.Expands module caller block block' t → t.CopiesUpTo depth →
      Block.nesting block' ≤ Block.nesting block + depth
  | .nil, _ => Nat.le_add_right _ _
  | .cons hstmt hstmts, hcopies => by
    obtain ⟨hcopies, hlatercopies⟩ := Trace.copiesUpTo_append.mp hcopies
    obtain ⟨hstmt, hhoisted⟩ := hstmt.depth_le hcopies
    have hstmts := hstmts.nesting_le hlatercopies
    simp only [Block.nesting_append, Block.nesting_cons]
    omega
  | .hold hstmt hstmts, hcopies => by
    simp only [Trace.copiesUpTo_append] at hcopies
    obtain ⟨hstmt, -⟩ := hstmt.depth_le hcopies.1.1
    have hstmts := hstmts.nesting_le hcopies.2
    simp only [Block.nesting_cons]
    omega

end

theorem Stmt.depth_define (function : FunctionDef) :
    (Stmt.define function).toJson.depth = max (depthOfItems (function.params.map TypedName.toJson))
      (max (depthOfItems (function.returns.map TypedName.toJson))
        (Block.nesting function.body + 1)) + 2 := by
  obtain ⟨name, params, returns, body⟩ := function
  simp [Stmt.toJson, Json.ofKind, Json.depth, Json.depthOfMembers, Block.nesting]

theorem Stmt.RootExpands.depth_le {stmt stmt' : Stmt} {t : Trace}
    (h : stmt.RootExpands module stmt' t) (hcopies : t.CopiesUpTo depth) :
    stmt'.toJson.depth ≤ stmt.toJson.depth + depth := by
  cases h with
  | block hbody =>
    have hbody := hbody.nesting_le hcopies
    simp only [Stmt.depth_block]
    omega
  | define hbody =>
    have hbody := hbody.nesting_le hcopies
    simp only [Stmt.depth_define]
    omega
  | other _ => exact Nat.le_add_right _ _

end Expands

/-! ## Runs -/

section Runs

variable {module : Block} {names : NameSupply} {own : Nat → Trace} {final : Inliner} {depth : Nat}

/-- If the bodies of functions are nested to depth `depth`, then a copied body is no deeper than
`depth` for each copy of the log, because no more than these are on top of each other. -/
theorem Chronicle.nesting_le {log : List Expansion} (h : Chronicle module own log)
    (hdepth : ∀ function ∈ Block.functions module, Block.nesting function.body ≤ depth) :
    ∀ expansion ∈ log, Block.nesting expansion.callee.body ≤ log.length * depth := by
  induction log with
  | nil => exact List.forall_mem_nil _
  | cons expansion earlier ih =>
    obtain ⟨hearlier, position, function, t, hposition, hroot, -, hexpansions⟩ := h
    have hcopies := ih hearlier
    have hgrows : earlier.length * depth ≤ (expansion :: earlier).length * depth :=
      Nat.mul_le_mul_right _ (Nat.le_succ _)
    refine List.forall_mem_cons.mpr ⟨?_, fun other hother => (hcopies other hother).trans hgrows⟩
    have hfunction := hdepth function (Block.mem_functions.mpr (List.mem_of_getElem? hposition))
    generalize hcallee : Stmt.define expansion.callee = callee at hroot
    cases hroot with
    | define hbody =>
      have hbody := hbody.nesting_le fun other hother => hcopies other (hexpansions hother)
      rw [Stmt.define.inj hcallee, List.length_cons, Nat.succ_mul]
      dsimp only
      omega
    | other hbody => cases hbody

theorem Inliner.Finished.nesting_le (h : final.Finished module names own)
    (hdepth : ∀ function ∈ Block.functions module, Block.nesting function.body ≤ depth) :
    Block.nesting final.module ≤ Block.nesting module + module.callSites.length * depth := by
  have hlength : final.expansions.length = module.callSites.length := by
    rw [← h.sites_perm.length_eq, List.length_map]
  have hcopies := h.chronicle.nesting_le hdepth
  rw [hlength] at hcopies
  rw [Block.nesting, Stmt.toJsons_eq_map, Json.depthOfItems_le_iff, List.forall_mem_map]
  intro stmt' hmem
  obtain ⟨i, hi⟩ := List.mem_iff_getElem?.mp hmem
  obtain ⟨hlt, -⟩ := List.getElem?_eq_some_iff.mp hi
  rw [h.length] at hlt
  have hstmt := List.getElem?_eq_getElem hlt
  obtain ⟨hroot, -⟩ := h.root_at hstmt hi
  have hlogged : (own i).CopiesUpTo (module.callSites.length * depth) := by
    intro expansion hexpansion
    refine hcopies expansion (h.log.mem_iff.mpr ?_)
    exact List.mem_flatMap.mpr ⟨i, List.mem_range.mpr hlt, hexpansion⟩
  refine (hroot.depth_le hlogged).trans (Nat.add_le_add_right ?_ _)
  rw [Block.nesting, Stmt.toJsons_eq_map]
  exact Json.depthOfItems_le_iff.mp le_rfl _ (List.mem_map_of_mem (List.getElem_mem hlt))

end Runs

/-! ## Results -/

variable {module result : Block} {names : NameSupply}

/-- Statements inside a number of cases. -/
def nestedCases (body : Block) : Nat → Block
  | 0 => body
  | n + 1 => [.switch (.ident "x") [⟨none, nestedCases body n⟩]]

/-- A function whose body is nested to half of what is allowed, and a call that is nested as deep.
Both can be read, but the copy in the place of the call cannot. -/
def deepCall : Block :=
  [.define ⟨"f", [], [⟨"r", ""⟩], [.declare [⟨"x", ""⟩] none] ++ nestedCases [] 13⟩,
    .block ([.declare [⟨"x", ""⟩] none] ++ nestedCases [.expr (.instr "pop" [.call "f" []])] 13)]

theorem deepCall_not_stored : ∃ result, Block.ofText? deepCall.toText = some deepCall ∧
    optimise {} deepCall = .ok result ∧ Block.ofText? result.toText = none := by
  have hread : Block.ofText? deepCall.toText = some deepCall := by
    rw [Block.ofText?_toText, if_pos (by decide +kernel)]
  have hdeep : (optimise {} deepCall).toOption.any
      (fun result => Block.maxDepth < result.toJson.depth) = true := by
    decide +kernel
  cases hrun : optimise {} deepCall with
  | error error =>
    rw [hrun] at hdeep
    cases hdeep
  | ok result =>
    rw [hrun] at hdeep
    have hlt : Block.maxDepth < result.toJson.depth := of_decide_eq_true hdeep
    refine ⟨result, hread, rfl, ?_⟩
    rw [Block.ofText?_toText, if_neg (Nat.not_le_of_lt hlt)]

end YulInline
