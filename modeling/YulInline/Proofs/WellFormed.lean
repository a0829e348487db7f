import YulInline.Proofs.Progress
import YulInline.Proofs.ScopedExpansion
import YulInline.Proofs.Semantics

/-!
# Well-formed modules

A module is well-formed if its functions have different names and are defined in the root block
only, if it is scoped, and if expressions have the numbers of values that are expected of them. What
an instruction takes and gives depends on the `Dialect`, and so does whether an expression statement
may drop values, and whether functions and variables share their names.

An expansion keeps the numbers of values: each argument or call that is hoisted is replaced by a
variable where one value is expected, and the copies have what the bodies have that they were made
from.
-/

namespace YulInline

/-- The numbers of arguments and values of what has a name. -/
abbrev Signature : Type :=
  String → Option (Nat × Nat)

/-- In what the modules that are well-formed differ. -/
structure Dialect where
  /-- The numbers of operands and values of the instructions. -/
  instr : Signature
  /-- Whether an expression statement may drop so many values. -/
  drops : Nat → Bool
  /-- Whether no variable may have the name of a function. -/
  sharesNames : Bool

/-- How many values there are for a number of arguments, which has to be the right one. -/
def Signature.apply? (signature : Signature) (name : String) (count : Nat) : Option Nat :=
  match signature name with
  | some (arguments, values) => if arguments = count then some values else none
  | none => none

/-! ## Numbers of values -/

section Counts

variable (dialect : Dialect) (functions : Signature)

mutual

/-- The number of values of an expression, in which every argument has to have one. -/
def Expr.count? : Expr → Option Nat
  | .literal _ => some 1
  | .ident _ => some 1
  | .instr op args => if Expr.areSingle args then dialect.instr.apply? op args.length else none
  | .call callee args => if Expr.areSingle args then functions.apply? callee args.length else none

/-- Whether each of the arguments has one value. -/
def Expr.areSingle : List Expr → Bool
  | [] => true
  | arg :: args => arg.count? == some 1 && Expr.areSingle args

end

/-- Whether the expression at the head of a statement has as many values as the statement expects.
-/
def Stmt.fitsCount : Stmt → Bool
  | .expr value => (value.count? dialect functions).any dialect.drops
  | .assign targets value => value.count? dialect functions == some targets.length
  | .declare _ none => true
  | .declare vars (some value) => value.count? dialect functions == some vars.length
  | .branch condition _ => condition.count? dialect functions == some 1
  | .switch scrutinee _ => scrutinee.count? dialect functions == some 1
  | .loop _ condition _ _ => condition.count? dialect functions == some 1
  | .define _ | .block _ => true

/-- Every statement in a statement has as many values as it expects. -/
def Stmt.Counted (stmt : Stmt) : Prop :=
  ∀ fits ∈ stmt.gather (fun stmt => [stmt.fitsCount dialect functions]), fits = true

/-- Every statement in a list of cases has as many values as it expects. -/
def Case.Counted (cases : List Case) : Prop :=
  ∀ fits ∈ Case.gather (fun stmt => [stmt.fitsCount dialect functions]) cases, fits = true

/-- Every statement in a block has as many values as it expects. -/
def Block.Counted (block : Block) : Prop :=
  ∀ fits ∈ Block.gather (fun stmt => [stmt.fitsCount dialect functions]) block, fits = true

instance {block : Block} : Decidable (Block.Counted dialect functions block) :=
  inferInstanceAs (Decidable (∀ fits ∈ _, fits = true))

end Counts

/-- The numbers of parameters and return variables of the functions of a module. -/
def Block.signature (module : Block) : Signature :=
  fun name => (module.function? name).map fun function =>
    (function.params.length, function.returns.length)

/-- The names that no variable of a module may have. -/
def Block.takenNames (dialect : Dialect) (module : Block) : List String :=
  if dialect.sharesNames then module.functionNames else []

/-- A module that follows the rules of a dialect. -/
structure Block.WellFormed (dialect : Dialect) (module : Block) : Prop where
  /-- No two functions have the same name. -/
  distinct : module.functionNames.Nodup
  /-- No function is defined inside a top-level block or a function. -/
  flat : ∀ body ∈ module.bodies, Block.definitions body = []
  /-- Variables are used in their scope only, and none is declared in the scope of another one of
  the same name. -/
  scope : Block.Scoped (module.takenNames dialect) [] module
  /-- Expressions have as many values as are expected of them. -/
  counted : Block.Counted dialect module.signature module

variable {dialect : Dialect} {functions : Signature}

section Equations

@[simp] theorem Block.counted_nil : Block.Counted dialect functions [] := by
  simp [Block.Counted]

@[simp] theorem Block.counted_cons {stmt : Stmt} {stmts : Block} :
    Block.Counted dialect functions (stmt :: stmts) ↔
      stmt.Counted dialect functions ∧ Block.Counted dialect functions stmts := by
  rw [Block.Counted, Block.gather_cons, List.forall_mem_append]
  rfl

@[simp] theorem Block.counted_append {front back : Block} :
    Block.Counted dialect functions (front ++ back) ↔
      Block.Counted dialect functions front ∧ Block.Counted dialect functions back := by
  rw [Block.Counted, Block.gather_append, List.forall_mem_append]
  rfl

@[simp] theorem Case.counted_cons {value : Option Literal} {body : Block} {cases : List Case} :
    Case.Counted dialect functions (⟨value, body⟩ :: cases) ↔
      Block.Counted dialect functions body ∧ Case.Counted dialect functions cases := by
  rw [Case.Counted, Case.gather_cons, List.forall_mem_append]
  rfl

@[simp] theorem Stmt.counted_expr {value : Expr} :
    (Stmt.expr value).Counted dialect functions ↔
      ∃ n, value.count? dialect functions = some n ∧ dialect.drops n = true := by
  simp [Stmt.Counted, Stmt.fitsCount, Option.any_eq_true]

@[simp] theorem Stmt.counted_assign {targets : List String} {value : Expr} :
    (Stmt.assign targets value).Counted dialect functions ↔
      value.count? dialect functions = some targets.length := by
  simp [Stmt.Counted, Stmt.fitsCount]

@[simp] theorem Stmt.counted_declare_none {vars : List TypedName} :
    (Stmt.declare vars none).Counted dialect functions := by
  simp [Stmt.Counted, Stmt.fitsCount]

@[simp] theorem Stmt.counted_declare_some {vars : List TypedName} {value : Expr} :
    (Stmt.declare vars (some value)).Counted dialect functions ↔
      value.count? dialect functions = some vars.length := by
  simp [Stmt.Counted, Stmt.fitsCount]

@[simp] theorem Stmt.counted_define {function : FunctionDef} :
    (Stmt.define function).Counted dialect functions ↔
      Block.Counted dialect functions function.body := by
  simp [Stmt.Counted, Stmt.fitsCount, Block.Counted]

@[simp] theorem Stmt.counted_branch {condition : Expr} {body : Block} :
    (Stmt.branch condition body).Counted dialect functions ↔
      condition.count? dialect functions = some 1 ∧ Block.Counted dialect functions body := by
  simp [Stmt.Counted, Stmt.fitsCount, Block.Counted]

@[simp] theorem Stmt.counted_switch {scrutinee : Expr} {cases : List Case} :
    (Stmt.switch scrutinee cases).Counted dialect functions ↔
      scrutinee.count? dialect functions = some 1 ∧ Case.Counted dialect functions cases := by
  simp [Stmt.Counted, Stmt.fitsCount, Case.Counted]

@[simp] theorem Stmt.counted_loop {init step body : Block} {condition : Expr} :
    (Stmt.loop init condition step body).Counted dialect functions ↔
      condition.count? dialect functions = some 1 ∧ Block.Counted dialect functions init ∧
        Block.Counted dialect functions step ∧ Block.Counted dialect functions body := by
  simp only [Stmt.Counted, Stmt.gather_loop, Stmt.fitsCount, Block.Counted, List.forall_mem_append,
    List.forall_mem_singleton, beq_iff_eq, and_assoc]

@[simp] theorem Stmt.counted_block {body : Block} :
    (Stmt.block body).Counted dialect functions ↔ Block.Counted dialect functions body := by
  simp [Stmt.Counted, Stmt.fitsCount, Block.Counted]

end Equations

/-! ## Copies -/

mutual

theorem Expr.count?_rename (f : String → String) :
    ∀ e : Expr, (e.rename f).count? dialect functions = e.count? dialect functions
  | .literal value => by simp [Expr.rename, Expr.count?]
  | .ident name => by simp [Expr.rename, Expr.count?]
  | .instr op args => by
    rw [Expr.rename, Expr.renameAll_eq_map, Expr.count?, Expr.count?, Expr.areSingle_rename f args,
      List.length_map]
  | .call callee args => by
    rw [Expr.rename, Expr.renameAll_eq_map, Expr.count?, Expr.count?, Expr.areSingle_rename f args,
      List.length_map]

theorem Expr.areSingle_rename (f : String → String) : ∀ args : List Expr,
    Expr.areSingle dialect functions (args.map (Expr.rename f)) =
      Expr.areSingle dialect functions args
  | [] => rfl
  | arg :: args => by
    rw [List.map_cons, Expr.areSingle, Expr.areSingle, Expr.count?_rename f arg,
      Expr.areSingle_rename f args]

end

theorem Stmt.fitsCount_copy {rule : CopyRule} (stmt : Stmt) (copier : Copier) :
    (stmt.copy rule copier).1.fitsCount dialect functions = stmt.fitsCount dialect functions := by
  cases stmt with
  | declare vars value =>
    have htypes := congrArg List.length (@Copier.declare_spec rule copier vars).1
    rw [List.length_map, List.length_map] at htypes
    cases value with
    | none => simp [Stmt.fitsCount]
    | some value => simp [Stmt.fitsCount, Expr.count?_rename, htypes]
  | _ => simp [Stmt.fitsCount, Expr.count?_rename]

/-- A copy has the numbers of values of the body that it was made from. -/
theorem FunctionDef.Copied.counted {callee : FunctionDef} {arguments : List String}
    {result holder : String} {copy : Block} (h : callee.Copied arguments result holder copy) :
    Block.Counted dialect functions copy ↔ Block.Counted dialect functions callee.body := by
  obtain ⟨-, names, rfl⟩ := h
  rw [Block.Counted, Block.gather_copy fun stmt copier => by rw [Stmt.fitsCount_copy]]
  rfl

/-! ## Expansions -/

section Expansions

variable {module : Block} {caller : String}

/-- What calls of the functions of a module take and give. -/
def Signature.Describes (functions : Signature) (module : Block) : Prop :=
  ∀ function, FunctionDef.FormIn function module →
    functions function.name = some (function.params.length, function.returns.length)

theorem Expr.areSingle_cons {arg : Expr} {args : List Expr} :
    Expr.areSingle dialect functions (arg :: args) = true ↔
      arg.count? dialect functions = some 1 ∧ Expr.areSingle dialect functions args = true := by
  rw [Expr.areSingle, Bool.and_eq_true, beq_iff_eq]

theorem Expr.count?_ident (name : String) : (Expr.ident name).count? dialect functions = some 1 := by
  rw [Expr.count?]

mutual

/-- What remains of an expression has as many values, and what is hoisted out of it has the numbers
of values that are expected. -/
theorem Expr.Expands.counted (hfunctions : functions.Describes module) {e e' : Expr}
    {hoisted : List Stmt} {t : Trace} : Expr.Expands module caller e hoisted e' t →
      ∀ {n : Nat}, e.count? dialect functions = some n →
      (∀ expansion ∈ t.expansions, Block.Counted dialect functions expansion.callee.body) →
      Block.Counted dialect functions hoisted ∧ e'.count? dialect functions = some n
  | .literal _, _, hcount, _ => ⟨Block.counted_nil, hcount⟩
  | .ident _, _, hcount, _ => ⟨Block.counted_nil, hcount⟩
  | .instr _ hargs, _, hcount, hcopies => by
    rw [Expr.count?, Option.ite_none_right_eq_some] at hcount ⊢
    obtain ⟨hhoisted, hsingle, hlength⟩ := hargs.counted hfunctions hcount.1 hcopies
    exact ⟨hhoisted, hsingle, hlength ▸ hcount.2⟩
  | .kept _ _ _ hargs, _, hcount, hcopies => by
    rw [Expr.count?, Option.ite_none_right_eq_some] at hcount ⊢
    obtain ⟨hhoisted, hsingle, hlength⟩ := hargs.counted hfunctions hcount.1 hcopies
    exact ⟨hhoisted, hsingle, hlength ▸ hcount.2⟩
  | .expanded hform hresult hlength hargs hcopy, _, hcount, hcopies => by
    rw [Trace.expansions_append, List.forall_mem_append, List.forall_mem_singleton] at hcopies
    rw [Expr.count?, Option.ite_none_right_eq_some, Signature.apply?, hfunctions _ hform, hlength,
      (FunctionDef.result?_eq_some.mp hresult).1] at hcount
    obtain ⟨hhoisted, -, -⟩ := hargs.counted hfunctions hcount.1 hcopies.1
    rw [Expr.count?_ident, Block.counted_append, Block.counted_cons, Block.counted_cons,
      Stmt.counted_block, hcopy.counted]
    refine ⟨⟨hhoisted, Stmt.counted_declare_none, hcopies.2, Block.counted_nil⟩, ?_⟩
    simpa using hcount.2

theorem Expr.ExpandsArgs.counted (hfunctions : functions.Describes module) {types : List String}
    {toFront : Bool} {args args' : List Expr} {hoisted : List Stmt} {t : Trace} :
    Expr.ExpandsArgs module caller types toFront args hoisted args' t →
      Expr.areSingle dialect functions args = true →
      (∀ expansion ∈ t.expansions, Block.Counted dialect functions expansion.callee.body) →
      Block.Counted dialect functions hoisted ∧ Expr.areSingle dialect functions args' = true ∧
        args'.length = args.length
  | .nil _ _, _, _ => ⟨Block.counted_nil, rfl, rfl⟩
  | .stays harg hargs, hsingle, hcopies => by
    rw [Expr.areSingle_cons] at hsingle ⊢
    rw [Trace.expansions_append, List.forall_mem_append] at hcopies
    obtain ⟨-, hcount⟩ := harg.counted hfunctions hsingle.1 hcopies.1
    obtain ⟨hlater, hsingle', hlength⟩ := hargs.counted hfunctions hsingle.2 hcopies.2
    exact ⟨hlater, ⟨hcount, hsingle'⟩, congrArg Nat.succ hlength⟩
  | .holder harg _ hargs, hsingle, hcopies => by
    rw [Expr.areSingle_cons] at hsingle ⊢
    rw [Trace.expansions_append, List.forall_mem_append] at hcopies
    obtain ⟨hhoisted, hcount⟩ := harg.counted hfunctions hsingle.1 hcopies.1
    obtain ⟨hlater, hsingle', hlength⟩ := hargs.counted hfunctions hsingle.2 hcopies.2
    exact ⟨Block.counted_append.mpr ⟨hlater, hhoisted⟩, ⟨hcount, hsingle'⟩,
      congrArg Nat.succ hlength⟩
  | .bound harg _ hargs, hsingle, hcopies => by
    rw [Expr.areSingle_cons] at hsingle ⊢
    rw [Trace.expansions_append, Trace.expansions_append, List.append_nil,
      List.forall_mem_append] at hcopies
    obtain ⟨hhoisted, hcount⟩ := harg.counted hfunctions hsingle.1 hcopies.1
    obtain ⟨hlater, hsingle', hlength⟩ := hargs.counted hfunctions hsingle.2 hcopies.2
    refine ⟨?_, ⟨Expr.count?_ident _, hsingle'⟩, congrArg Nat.succ hlength⟩
    rw [Block.counted_append, Block.counted_append, Block.counted_cons, Stmt.counted_declare_some]
    exact ⟨hlater, hhoisted, hcount, Block.counted_nil⟩

end

mutual

/-- A statement and what is hoisted out of it keep the numbers of values. -/
theorem Stmt.Expands.counted (hfunctions : functions.Describes module) {stmt stmt' : Stmt}
    {hoisted : List Stmt} {t : Trace} : Stmt.Expands module caller stmt hoisted stmt' t →
      stmt.Counted dialect functions →
      (∀ expansion ∈ t.expansions, Block.Counted dialect functions expansion.callee.body) →
      Block.Counted dialect functions hoisted ∧ stmt'.Counted dialect functions
  | .untouched _, hstmt, _ => ⟨Block.counted_nil, hstmt⟩
  | .expr hvalue, hstmt, hcopies => by
    rw [Stmt.counted_expr] at hstmt ⊢
    obtain ⟨n, hcount, hdrops⟩ := hstmt
    obtain ⟨hhoisted, hcount'⟩ := hvalue.counted hfunctions hcount hcopies
    exact ⟨hhoisted, n, hcount', hdrops⟩
  | .assign _ hvalue, hstmt, hcopies => by
    rw [Stmt.counted_assign] at hstmt ⊢
    exact hvalue.counted hfunctions hstmt hcopies
  | .empty _, hstmt, _ => ⟨Block.counted_nil, hstmt⟩
  | .declare _ hvalue, hstmt, hcopies => by
    rw [Stmt.counted_declare_some] at hstmt ⊢
    exact hvalue.counted hfunctions hstmt hcopies
  | .branch hcondition hbody, hstmt, hcopies => by
    rw [Stmt.counted_branch] at hstmt ⊢
    rw [Trace.expansions_append, List.forall_mem_append] at hcopies
    obtain ⟨hhoisted, hcount⟩ := hcondition.counted hfunctions hstmt.1 hcopies.1
    exact ⟨hhoisted, hcount, hbody.counted hfunctions hstmt.2 hcopies.2⟩
  | .switch hscrutinee hcases, hstmt, hcopies => by
    rw [Stmt.counted_switch] at hstmt ⊢
    rw [Trace.expansions_append, List.forall_mem_append] at hcopies
    obtain ⟨hhoisted, hcount⟩ := hscrutinee.counted hfunctions hstmt.1 hcopies.1
    exact ⟨hhoisted, hcount, hcases.counted hfunctions hstmt.2 hcopies.2⟩
  | .loop _ hinit hstep hbody, hstmt, hcopies => by
    rw [Stmt.counted_loop] at hstmt ⊢
    rw [Trace.expansions_append, Trace.expansions_append, List.forall_mem_append,
      List.forall_mem_append] at hcopies
    exact ⟨Block.counted_nil, hstmt.1, hinit.counted hfunctions hstmt.2.1 hcopies.1.1,
      hstep.counted hfunctions hstmt.2.2.1 hcopies.1.2,
      hbody.counted hfunctions hstmt.2.2.2 hcopies.2⟩
  | .block hbody, hstmt, hcopies => by
    rw [Stmt.counted_block] at hstmt ⊢
    exact ⟨Block.counted_nil, hbody.counted hfunctions hstmt hcopies⟩

theorem Case.Expands.counted (hfunctions : functions.Describes module) {cases cases' : List Case}
    {t : Trace} : Case.Expands module caller cases cases' t →
      Case.Counted dialect functions cases →
      (∀ expansion ∈ t.expansions, Block.Counted dialect functions expansion.callee.body) →
      Case.Counted dialect functions cases'
  | .nil, hcases, _ => hcases
  | .cons _ hbody hlater, hcases, hcopies => by
    rw [Case.counted_cons] at hcases ⊢
    rw [Trace.expansions_append, List.forall_mem_append] at hcopies
    exact ⟨hbody.counted hfunctions hcases.1 hcopies.1,
      hlater.counted hfunctions hcases.2 hcopies.2⟩

/-- What becomes of a block has the numbers of values that are expected. -/
theorem Block.Expands.counted (hfunctions : functions.Describes module) {block block' : Block}
    {t : Trace} : Block.Expands module caller block block' t →
      Block.Counted dialect functions block →
      (∀ expansion ∈ t.expansions, Block.Counted dialect functions expansion.callee.body) →
      Block.Counted dialect functions block'
  | .nil, hblock, _ => hblock
  | .cons hstmt hstmts, hblock, hcopies => by
    rw [Block.counted_cons] at hblock
    rw [Trace.expansions_append, List.forall_mem_append] at hcopies
    obtain ⟨hhoisted, hstmt'⟩ := hstmt.counted hfunctions hblock.1 hcopies.1
    rw [Block.counted_append, Block.counted_cons]
    exact ⟨hhoisted, hstmt', hstmts.counted hfunctions hblock.2 hcopies.2⟩
  | .hold hstmt hstmts, hblock, hcopies => by
    rw [Block.counted_cons] at hblock
    rw [Trace.expansions_append, Trace.expansions_append, List.forall_mem_append,
      List.forall_mem_append] at hcopies
    obtain ⟨-, hstmt'⟩ := hstmt.counted hfunctions hblock.1 hcopies.1.1
    rw [Block.counted_cons]
    exact ⟨hstmt', hstmts.counted hfunctions hblock.2 hcopies.2⟩

end

end Expansions

end YulInline
