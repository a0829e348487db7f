import YulInline.Proofs.Expansion
import Mathlib.Data.List.Count

/-!
# What an expansion adds and keeps

An expansion declares what was declared before and the names that were given out for it, each as
often; it defines no functions, and keeps the definitions that it finds. A body whose expansion is
complete defines no function, and its calls fit the functions of the module: otherwise it would not
have come so far.
-/

namespace YulInline

variable {module : Block} {caller : String}

theorem FunctionDef.Copied.definitions {function : FunctionDef} {arguments : List String}
    {result holder : String} {copy : Block} (h : function.Copied arguments result holder copy) :
    Block.definitions copy = [] := by
  obtain ⟨hbody, names, rfl⟩ := h
  rw [Block.definitions_copy]
  exact hbody

/-! ## Expressions -/

mutual

/-- An expression is expanded in one go. -/
theorem Expr.Expands.trace {e e' : Expr} {hoisted : List Stmt} {t : Trace} :
    Expr.Expands module caller e hoisted e' t → t.held = [] ∧ t.complete = true
  | .literal _ => ⟨rfl, rfl⟩
  | .ident _ => ⟨rfl, rfl⟩
  | .instr _ hargs => hargs.trace
  | .kept _ _ _ hargs => hargs.trace
  | .expanded _ _ _ hargs _ => by
    obtain ⟨hheld, hcomplete⟩ := hargs.trace
    simp [hheld, hcomplete]

theorem Expr.ExpandsArgs.trace {types : List String} {toFront : Bool} {args args' : List Expr}
    {hoisted : List Stmt} {t : Trace} :
    Expr.ExpandsArgs module caller types toFront args hoisted args' t →
      t.held = [] ∧ t.complete = true
  | .nil _ _ => ⟨rfl, rfl⟩
  | .stays harg hargs => by
    obtain ⟨hheld, hcomplete⟩ := harg.trace
    obtain ⟨hheld', hcomplete'⟩ := hargs.trace
    simp [hheld, hcomplete, hheld', hcomplete']
  | .holder harg _ hargs => by
    obtain ⟨hheld, hcomplete⟩ := harg.trace
    obtain ⟨hheld', hcomplete'⟩ := hargs.trace
    simp [hheld, hcomplete, hheld', hcomplete']
  | .bound harg _ hargs => by
    obtain ⟨hheld, hcomplete⟩ := harg.trace
    obtain ⟨hheld', hcomplete'⟩ := hargs.trace
    simp [hheld, hcomplete, hheld', hcomplete']

end

mutual

/-- What is hoisted out of an expression defines no function. -/
theorem Expr.Expands.definitions {e e' : Expr} {hoisted : List Stmt} {t : Trace} :
    Expr.Expands module caller e hoisted e' t → Block.definitions hoisted = []
  | .literal _ => by simp [Block.definitions]
  | .ident _ => by simp [Block.definitions]
  | .instr _ hargs => hargs.definitions
  | .kept _ _ _ hargs => hargs.definitions
  | .expanded _ _ _ hargs hcopy => by
    have hhoisted := hargs.definitions
    have hbody := hcopy.definitions
    simp_all [Block.definitions, Stmt.ownDefinition]

theorem Expr.ExpandsArgs.definitions {types : List String} {toFront : Bool}
    {args args' : List Expr} {hoisted : List Stmt} {t : Trace} :
    Expr.ExpandsArgs module caller types toFront args hoisted args' t →
      Block.definitions hoisted = []
  | .nil _ _ => by simp [Block.definitions]
  | .stays _ hargs => hargs.definitions
  | .holder harg _ hargs => by
    have hfront := harg.definitions
    have hlater := hargs.definitions
    simp_all [Block.definitions]
  | .bound harg _ hargs => by
    have hfront := harg.definitions
    have hlater := hargs.definitions
    simp_all [Block.definitions, Stmt.ownDefinition]

end

mutual

/-- What is hoisted out of an expression declares the names that were given out for it. -/
theorem Expr.Expands.count_declared {e e' : Expr} {hoisted : List Stmt} {t : Trace}
    (name : String) : Expr.Expands module caller e hoisted e' t →
      (Block.declared hoisted).count name = t.names.count name
  | .literal _ => by simp [Block.declared]
  | .ident _ => by simp [Block.declared]
  | .instr _ hargs => hargs.count_declared name
  | .kept _ _ _ hargs => hargs.count_declared name
  | .expanded _ _ _ hargs _ => by
    have hhoisted := hargs.count_declared name
    simp only [Block.declared, Block.gather_append, Block.gather_cons, Block.gather_nil,
      Stmt.gather_declare, Stmt.gather_block, Stmt.introduced, List.map_cons, List.map_nil,
      List.count_append, List.count_cons, List.count_nil, Trace.names_append] at hhoisted ⊢
    omega

theorem Expr.ExpandsArgs.count_declared {types : List String} {toFront : Bool}
    {args args' : List Expr} {hoisted : List Stmt} {t : Trace} (name : String) :
    Expr.ExpandsArgs module caller types toFront args hoisted args' t →
      (Block.declared hoisted).count name = t.names.count name
  | .nil _ _ => by simp [Block.declared]
  | .stays harg hargs => by
    have hfront := harg.count_declared name
    have hlater := hargs.count_declared name
    simp only [Block.declared, Block.gather_nil, List.count_nil, List.count_append,
      Trace.names_append] at hfront hlater ⊢
    omega
  | .holder harg _ hargs => by
    have hfront := harg.count_declared name
    have hlater := hargs.count_declared name
    simp only [Block.declared, Block.gather_append, List.count_append,
      Trace.names_append] at hfront hlater ⊢
    omega
  | .bound harg _ hargs => by
    have hfront := harg.count_declared name
    have hlater := hargs.count_declared name
    simp only [Block.declared, Block.gather_append, Block.gather_cons, Block.gather_nil,
      Stmt.gather_declare, Stmt.introduced, List.map_cons, List.map_nil, List.count_append,
      List.count_cons, List.count_nil, Trace.names_append] at hfront hlater ⊢
    omega

end

theorem Expr.Expands.declared_perm {e e' : Expr} {hoisted : List Stmt} {t : Trace}
    (h : Expr.Expands module caller e hoisted e' t) : (Block.declared hoisted).Perm t.names :=
  List.perm_iff_count.mpr fun name => h.count_declared name

/-- The names that are hoisted into the block of a statement were given out for it. -/
theorem Expr.Expands.declares_subset {e e' : Expr} {hoisted : List Stmt} {t : Trace}
    (h : Expr.Expands module caller e hoisted e' t) : Block.declares hoisted ⊆ t.names :=
  fun _ hname => h.declared_perm.subset (Block.declares_subset_declared hoisted hname)

theorem Expr.ExpandsArgs.declares_subset {types : List String} {toFront : Bool}
    {args args' : List Expr} {hoisted : List Stmt} {t : Trace}
    (h : Expr.ExpandsArgs module caller types toFront args hoisted args' t) :
    Block.declares hoisted ⊆ t.names := by
  have hperm : (Block.declared hoisted).Perm t.names :=
    List.perm_iff_count.mpr fun name => h.count_declared name
  exact fun _ hname => hperm.subset (Block.declares_subset_declared hoisted hname)

mutual

/-- Every call in an expression that was expanded fits a function. -/
theorem Expr.Expands.fits {e e' : Expr} {hoisted : List Stmt} {t : Trace} :
    Expr.Expands module caller e hoisted e' t → ∀ call ∈ e.calls,
      ∃ function ∈ Block.functions module, call = (function.name, function.params.length)
  | .literal _ => by simp [Expr.calls]
  | .ident _ => by simp [Expr.calls]
  | .instr _ hargs => by
    rw [Expr.calls]
    exact hargs.fits
  | .kept hform _ hcount hargs => by
    rw [Expr.calls, List.forall_mem_cons, hcount]
    obtain ⟨original, hmem, heq⟩ := hform
    exact ⟨⟨original, hmem, by rw [heq]⟩, hargs.fits⟩
  | .expanded hform _ hcount hargs _ => by
    rw [Expr.calls, List.forall_mem_cons, hcount]
    obtain ⟨original, hmem, heq⟩ := hform
    exact ⟨⟨original, hmem, by rw [heq]⟩, hargs.fits⟩

theorem Expr.ExpandsArgs.fits {types : List String} {toFront : Bool} {args args' : List Expr}
    {hoisted : List Stmt} {t : Trace} :
    Expr.ExpandsArgs module caller types toFront args hoisted args' t →
      ∀ call ∈ Expr.callsOfArgs args,
        ∃ function ∈ Block.functions module, call = (function.name, function.params.length)
  | .nil _ _ => by simp [Expr.callsOfArgs]
  | .stays harg hargs => by
    rw [Expr.callsOfArgs, List.forall_mem_append]
    exact ⟨harg.fits, hargs.fits⟩
  | .holder harg _ hargs => by
    rw [Expr.callsOfArgs, List.forall_mem_append]
    exact ⟨harg.fits, hargs.fits⟩
  | .bound harg _ hargs => by
    rw [Expr.callsOfArgs, List.forall_mem_append]
    exact ⟨harg.fits, hargs.fits⟩

end

/-- Arguments that are moved to the front become variables. -/
theorem Expr.ExpandsArgs.idents {types : List String} {args args' : List Expr}
    {hoisted : List Stmt} {t : Trace}
    (h : Expr.ExpandsArgs module caller types true args hoisted args' t) :
    ∃ names : List String, args' = names.map .ident := by
  induction args generalizing types hoisted args' t with
  | nil =>
    cases h
    exact ⟨[], rfl⟩
  | cons arg args ih =>
    cases h with
    | holder harg hhoisted hargs =>
      obtain ⟨names, rfl⟩ := ih hargs
      exact ⟨_ :: names, rfl⟩
    | bound harg hmoved hargs =>
      obtain ⟨names, rfl⟩ := ih hargs
      exact ⟨_ :: names, rfl⟩

/-! ## Statements -/

/-- A block that has not been visited. -/
theorem Block.Expands.untouched (module : Block) (caller : String) (block : Block) :
    ∃ t, Block.Expands module caller block block t ∧ t.Within {} := by
  induction block with
  | nil => exact ⟨{}, .nil, Trace.Within.refl _⟩
  | cons stmt stmts ih =>
    obtain ⟨t, hstmts, hwithin⟩ := ih
    exact ⟨_, .cons (.untouched stmt) hstmts, Trace.Within.append_empty ⟨by simp, by simp⟩ hwithin⟩

/-- Cases whose blocks have not been visited. -/
theorem Case.Expands.untouched (module : Block) (caller : String) (cases : List Case) :
    ∃ t, Case.Expands module caller cases cases t ∧ t.Within {} := by
  induction cases with
  | nil => exact ⟨{}, .nil, Trace.Within.refl _⟩
  | cons case cases ih =>
    obtain ⟨value, body⟩ := case
    obtain ⟨t, hcases, hwithin⟩ := ih
    obtain ⟨t', hbody, hwithin'⟩ := Block.Expands.untouched module caller body
    exact ⟨_, .cons value hbody hcases, hwithin'.append_empty hwithin⟩

mutual

/-- Only what is complete holds nothing back. -/
theorem Stmt.Expands.held_eq_nil {stmt stmt' : Stmt} {hoisted : List Stmt} {t : Trace} :
    Stmt.Expands module caller stmt hoisted stmt' t → t.complete = true → t.held = []
  | .untouched _, h => rfl
  | .expr hvalue, _ => hvalue.trace.1
  | .assign _ hvalue, _ => hvalue.trace.1
  | .empty _, _ => rfl
  | .declare _ hvalue, _ => hvalue.trace.1
  | .branch hcondition hbody, h => by
    rw [Trace.complete_append] at h
    rw [Trace.held_append, hcondition.trace.1, hbody.held_eq_nil h.2, List.append_nil]
  | .switch hscrutinee hcases, h => by
    rw [Trace.complete_append] at h
    rw [Trace.held_append, hscrutinee.trace.1, hcases.held_eq_nil h.2, List.append_nil]
  | .loop _ hinit hstep hbody, h => by
    rw [Trace.complete_append, Trace.complete_append] at h
    simp only [Trace.held_append, hinit.held_eq_nil h.1.1, hstep.held_eq_nil h.1.2,
      hbody.held_eq_nil h.2, List.append_nil]
  | .block hbody, h => hbody.held_eq_nil h

theorem Case.Expands.held_eq_nil {cases cases' : List Case} {t : Trace} :
    Case.Expands module caller cases cases' t → t.complete = true → t.held = []
  | .nil, _ => rfl
  | .cons _ hbody hcases, h => by
    rw [Trace.complete_append] at h
    rw [Trace.held_append, hbody.held_eq_nil h.1, hcases.held_eq_nil h.2, List.append_nil]

theorem Block.Expands.held_eq_nil {block block' : Block} {t : Trace} :
    Block.Expands module caller block block' t → t.complete = true → t.held = []
  | .nil, _ => rfl
  | .cons hstmt hstmts, h => by
    rw [Trace.complete_append] at h
    rw [Trace.held_append, hstmt.held_eq_nil h.1, hstmts.held_eq_nil h.2, List.append_nil]
  | .hold _ _, h => by
    simp [Trace.onHold] at h

end

mutual

/-- An expansion keeps the definitions that it finds. -/
theorem Stmt.Expands.definitions {stmt stmt' : Stmt} {hoisted : List Stmt} {t : Trace} :
    Stmt.Expands module caller stmt hoisted stmt' t →
      Block.definitions hoisted = [] ∧
        stmt'.gather Stmt.ownDefinition = stmt.gather Stmt.ownDefinition
  | .untouched _ => ⟨by simp [Block.definitions], rfl⟩
  | .expr hvalue => ⟨hvalue.definitions, by simp [Stmt.ownDefinition]⟩
  | .assign _ hvalue => ⟨hvalue.definitions, by simp [Stmt.ownDefinition]⟩
  | .empty _ => ⟨by simp [Block.definitions], rfl⟩
  | .declare _ hvalue => ⟨hvalue.definitions, by simp [Stmt.ownDefinition]⟩
  | .branch hcondition hbody => by
    rw [Stmt.gather_branch, Stmt.gather_branch, hbody.definitions]
    exact ⟨hcondition.definitions, rfl⟩
  | .switch hscrutinee hcases => by
    rw [Stmt.gather_switch, Stmt.gather_switch, hcases.definitions]
    exact ⟨hscrutinee.definitions, rfl⟩
  | .loop _ hinit hstep hbody => by
    rw [Stmt.gather_loop, Stmt.gather_loop, hinit.definitions, hstep.definitions,
      hbody.definitions]
    exact ⟨by simp [Block.definitions], rfl⟩
  | .block hbody => by
    rw [Stmt.gather_block, Stmt.gather_block, hbody.definitions]
    exact ⟨by simp [Block.definitions], rfl⟩

theorem Case.Expands.definitions {cases cases' : List Case} {t : Trace} :
    Case.Expands module caller cases cases' t →
      Case.gather Stmt.ownDefinition cases' = Case.gather Stmt.ownDefinition cases
  | .nil => rfl
  | .cons _ hbody hcases => by
    rw [Case.gather_cons, Case.gather_cons, hbody.definitions, hcases.definitions]

theorem Block.Expands.definitions {block block' : Block} {t : Trace} :
    Block.Expands module caller block block' t →
      Block.gather Stmt.ownDefinition block' = Block.gather Stmt.ownDefinition block
  | .nil => rfl
  | .cons hstmt hstmts => by
    obtain ⟨hhoisted, hstmt'⟩ := hstmt.definitions
    rw [Block.definitions] at hhoisted
    rw [Block.gather_append, Block.gather_cons, Block.gather_cons, hhoisted, hstmt',
      hstmts.definitions, List.nil_append]
  | .hold hstmt hstmts => by
    rw [Block.gather_cons, Block.gather_cons, hstmt.definitions.2, hstmts.definitions]

end

mutual

/-- An expansion and what was hoisted out of it declare what was declared before, and the names that
were given out. -/
theorem Stmt.Expands.count_declared {stmt stmt' : Stmt} {hoisted : List Stmt} {t : Trace}
    (name : String) : Stmt.Expands module caller stmt hoisted stmt' t →
      (Block.declared hoisted ++ stmt'.gather Stmt.introduced ++ Block.declared t.held).count name =
        (stmt.gather Stmt.introduced ++ t.names).count name
  | .untouched _ => by simp [Block.declared]
  | .expr hvalue => by
    have hhoisted := hvalue.count_declared name
    simp only [Block.declared, hvalue.trace.1, Stmt.gather_expr, Stmt.introduced, Block.gather_nil,
      List.count_append, List.count_nil] at hhoisted ⊢
    omega
  | .assign _ hvalue => by
    have hhoisted := hvalue.count_declared name
    simp only [Block.declared, hvalue.trace.1, Stmt.gather_assign, Stmt.introduced, Block.gather_nil,
      List.count_append, List.count_nil] at hhoisted ⊢
    omega
  | .empty _ => by simp [Block.declared]
  | .declare _ hvalue => by
    have hhoisted := hvalue.count_declared name
    simp only [Block.declared, hvalue.trace.1, Stmt.gather_declare, Stmt.introduced, Block.gather_nil,
      List.count_append, List.count_nil] at hhoisted ⊢
    omega
  | .branch hcondition hbody => by
    have hhoisted := hcondition.count_declared name
    have hbody' := hbody.count_declared name
    simp only [Block.declared, hcondition.trace.1, Stmt.gather_branch, Stmt.introduced,
      Block.gather_append, Block.gather_nil, List.count_append, List.count_nil, Trace.names_append,
      Trace.held_append] at hhoisted hbody' ⊢
    omega
  | .switch hscrutinee hcases => by
    have hhoisted := hscrutinee.count_declared name
    have hcases' := hcases.count_declared name
    simp only [Block.declared, hscrutinee.trace.1, Stmt.gather_switch, Stmt.introduced,
      Block.gather_append, Block.gather_nil, List.count_append, List.count_nil, Trace.names_append,
      Trace.held_append] at hhoisted hcases' ⊢
    omega
  | .loop _ hinit hstep hbody => by
    have hinit' := hinit.count_declared name
    have hstep' := hstep.count_declared name
    have hbody' := hbody.count_declared name
    simp only [Block.declared, Stmt.gather_loop, Stmt.introduced, Block.gather_append,
      Block.gather_nil, List.count_append, List.count_nil, Trace.names_append,
      Trace.held_append] at hinit' hstep' hbody' ⊢
    omega
  | .block hbody => by
    have hbody' := hbody.count_declared name
    simp only [Block.declared, Stmt.gather_block, Stmt.introduced, Block.gather_nil,
      List.count_append, List.count_nil] at hbody' ⊢
    omega

theorem Case.Expands.count_declared {cases cases' : List Case} {t : Trace} (name : String) :
    Case.Expands module caller cases cases' t →
      (Case.gather Stmt.introduced cases' ++ Block.declared t.held).count name =
        (Case.gather Stmt.introduced cases ++ t.names).count name
  | .nil => by simp [Block.declared]
  | .cons _ hbody hcases => by
    have hbody' := hbody.count_declared name
    have hcases' := hcases.count_declared name
    simp only [Block.declared, Case.gather_cons, Block.gather_append, List.count_append,
      Trace.names_append, Trace.held_append] at hbody' hcases' ⊢
    omega

theorem Block.Expands.count_declared {block block' : Block} {t : Trace} (name : String) :
    Block.Expands module caller block block' t →
      (Block.declared block' ++ Block.declared t.held).count name =
        (Block.declared block ++ t.names).count name
  | .nil => by simp [Block.declared]
  | .cons hstmt hstmts => by
    have hstmt' := hstmt.count_declared name
    have hstmts' := hstmts.count_declared name
    simp only [Block.declared, Block.gather_append, Block.gather_cons, List.count_append,
      Trace.names_append, Trace.held_append] at hstmt' hstmts' ⊢
    omega
  | .hold hstmt hstmts => by
    have hstmt' := hstmt.count_declared name
    have hstmts' := hstmts.count_declared name
    simp only [Block.declared, Block.gather_append, Block.gather_cons, List.count_append,
      Trace.onHold, Trace.names_append, Trace.held_append, List.count_nil] at hstmt' hstmts' ⊢
    omega

end

/-- A complete expansion declares what was declared before and the names that were given out. -/
theorem Block.Expands.declared_perm {block block' : Block} {t : Trace}
    (h : Block.Expands module caller block block' t) (hcomplete : t.complete = true) :
    (Block.declared block').Perm (Block.declared block ++ t.names) := by
  rw [List.perm_iff_count]
  intro name
  have hcount := h.count_declared name
  rwa [h.held_eq_nil hcomplete, Block.declared, Block.declared, Block.gather_nil,
    List.append_nil] at hcount

mutual

/-- What has been expanded completely defines no function, and its calls fit their functions. -/
theorem Stmt.Expands.fits {stmt stmt' : Stmt} {hoisted : List Stmt} {t : Trace} :
    Stmt.Expands module caller stmt hoisted stmt' t → t.complete = true →
      stmt.gather Stmt.ownDefinition = [] ∧ ∀ call ∈ stmt.gather Stmt.ownCalls,
        ∃ function ∈ Block.functions module, call = (function.name, function.params.length)
  | .untouched _, h => by simp at h
  | .expr hvalue, _ => by
    rw [Stmt.gather_expr, Stmt.gather_expr]
    exact ⟨rfl, hvalue.fits⟩
  | .assign _ hvalue, _ => by
    rw [Stmt.gather_assign, Stmt.gather_assign]
    exact ⟨rfl, hvalue.fits⟩
  | .empty _, _ => by
    rw [Stmt.gather_declare, Stmt.gather_declare]
    exact ⟨rfl, by simp [Stmt.ownCalls, Expr.callsOfValue]⟩
  | .declare _ hvalue, _ => by
    rw [Stmt.gather_declare, Stmt.gather_declare]
    exact ⟨rfl, hvalue.fits⟩
  | .branch hcondition hbody, h => by
    rw [Trace.complete_append] at h
    obtain ⟨hdefinitions, hcalls⟩ := hbody.fits h.2
    rw [Stmt.gather_branch, Stmt.gather_branch, hdefinitions, List.forall_mem_append]
    exact ⟨rfl, hcondition.fits, hcalls⟩
  | .switch hscrutinee hcases, h => by
    rw [Trace.complete_append] at h
    obtain ⟨hdefinitions, hcalls⟩ := hcases.fits h.2
    rw [Stmt.gather_switch, Stmt.gather_switch, hdefinitions, List.forall_mem_append]
    exact ⟨rfl, hscrutinee.fits, hcalls⟩
  | .loop _ hinit hstep hbody, h => by
    rw [Trace.complete_append, Trace.complete_append] at h
    obtain ⟨hdefinitions, hcalls⟩ := hinit.fits h.1.1
    obtain ⟨hdefinitions', hcalls'⟩ := hstep.fits h.1.2
    obtain ⟨hdefinitions'', hcalls''⟩ := hbody.fits h.2
    rw [Stmt.gather_loop, Stmt.gather_loop, hdefinitions, hdefinitions', hdefinitions'']
    simp only [Stmt.ownCalls, List.nil_append, List.forall_mem_append]
    exact ⟨rfl, ⟨hcalls, hcalls'⟩, hcalls''⟩
  | .block hbody, h => by
    rw [Stmt.gather_block, Stmt.gather_block]
    exact hbody.fits h

theorem Case.Expands.fits {cases cases' : List Case} {t : Trace} :
    Case.Expands module caller cases cases' t → t.complete = true →
      Case.gather Stmt.ownDefinition cases = [] ∧ ∀ call ∈ Case.gather Stmt.ownCalls cases,
        ∃ function ∈ Block.functions module, call = (function.name, function.params.length)
  | .nil, _ => by simp
  | .cons _ hbody hcases, h => by
    rw [Trace.complete_append] at h
    obtain ⟨hdefinitions, hcalls⟩ := hbody.fits h.1
    obtain ⟨hdefinitions', hcalls'⟩ := hcases.fits h.2
    rw [Case.gather_cons, Case.gather_cons, hdefinitions, hdefinitions', List.forall_mem_append]
    exact ⟨rfl, hcalls, hcalls'⟩

theorem Block.Expands.fits {block block' : Block} {t : Trace} :
    Block.Expands module caller block block' t → t.complete = true →
      Block.gather Stmt.ownDefinition block = [] ∧ ∀ call ∈ Block.gather Stmt.ownCalls block,
        ∃ function ∈ Block.functions module, call = (function.name, function.params.length)
  | .nil, _ => by simp
  | .cons hstmt hstmts, h => by
    rw [Trace.complete_append] at h
    obtain ⟨hdefinitions, hcalls⟩ := hstmt.fits h.1
    obtain ⟨hdefinitions', hcalls'⟩ := hstmts.fits h.2
    rw [Block.gather_cons, Block.gather_cons, hdefinitions, hdefinitions', List.forall_mem_append]
    exact ⟨rfl, hcalls, hcalls'⟩
  | .hold _ _, h => by
    simp [Trace.onHold] at h

end

/-! ## Where expansions come from -/

/-- An expansion is one of a call among those given. -/
def Expansion.OneOf (calls : List (String × Nat)) (expansion : Expansion) : Prop :=
  (expansion.callee.name, expansion.callee.params.length) ∈ calls

theorem Expansion.OneOf.mono {calls calls' : List (String × Nat)} {expansion : Expansion}
    (h : expansion.OneOf calls) (hsub : calls ⊆ calls') : expansion.OneOf calls' :=
  hsub h

mutual

/-- Every expansion is one of a call in the expression. -/
theorem Expr.Expands.origin {e e' : Expr} {hoisted : List Stmt} {t : Trace} :
    Expr.Expands module caller e hoisted e' t →
      ∀ expansion ∈ t.expansions, expansion.OneOf e.calls
  | .literal _ => by simp
  | .ident _ => by simp
  | .instr _ hargs => by
    rw [Expr.calls]
    exact hargs.origin
  | .kept _ _ _ hargs => fun expansion hmem => by
    rw [Expr.calls]
    exact (hargs.origin expansion hmem).mono (List.subset_cons_self ..)
  | .expanded _ _ hcount hargs _ => by
    rw [Trace.expansions_append, List.forall_mem_append, List.forall_mem_singleton, Expr.calls,
      hcount]
    exact ⟨fun expansion hmem => (hargs.origin expansion hmem).mono (List.subset_cons_self ..),
      List.mem_cons_self ..⟩

theorem Expr.ExpandsArgs.origin {types : List String} {toFront : Bool} {args args' : List Expr}
    {hoisted : List Stmt} {t : Trace} :
    Expr.ExpandsArgs module caller types toFront args hoisted args' t →
      ∀ expansion ∈ t.expansions, expansion.OneOf (Expr.callsOfArgs args)
  | .nil _ _ => by simp
  | .stays harg hargs => by
    rw [Trace.expansions_append, List.forall_mem_append, Expr.callsOfArgs]
    exact ⟨fun expansion hmem => (harg.origin expansion hmem).mono (List.subset_append_left ..),
      fun expansion hmem => (hargs.origin expansion hmem).mono (List.subset_append_right ..)⟩
  | .holder harg _ hargs => by
    rw [Trace.expansions_append, List.forall_mem_append, Expr.callsOfArgs]
    exact ⟨fun expansion hmem => (harg.origin expansion hmem).mono (List.subset_append_left ..),
      fun expansion hmem => (hargs.origin expansion hmem).mono (List.subset_append_right ..)⟩
  | .bound harg _ hargs => by
    rw [Trace.expansions_append, Trace.expansions_append, List.append_nil, List.forall_mem_append,
      Expr.callsOfArgs]
    exact ⟨fun expansion hmem => (harg.origin expansion hmem).mono (List.subset_append_left ..),
      fun expansion hmem => (hargs.origin expansion hmem).mono (List.subset_append_right ..)⟩

end

mutual

/-- Every expansion is one of a call in the statement. -/
theorem Stmt.Expands.origin {stmt stmt' : Stmt} {hoisted : List Stmt} {t : Trace} :
    Stmt.Expands module caller stmt hoisted stmt' t →
      ∀ expansion ∈ t.expansions, expansion.OneOf (stmt.gather Stmt.ownCalls)
  | .untouched _ => by simp
  | .expr hvalue => by
    rw [Stmt.gather_expr]
    exact hvalue.origin
  | .assign _ hvalue => by
    rw [Stmt.gather_assign]
    exact hvalue.origin
  | .empty _ => by simp
  | .declare _ hvalue => by
    rw [Stmt.gather_declare]
    exact hvalue.origin
  | .branch hcondition hbody => by
    rw [Trace.expansions_append, List.forall_mem_append, Stmt.gather_branch]
    exact ⟨fun expansion hmem =>
        (hcondition.origin expansion hmem).mono (List.subset_append_left ..),
      fun expansion hmem => (hbody.origin expansion hmem).mono (List.subset_append_right ..)⟩
  | .switch hscrutinee hcases => by
    rw [Trace.expansions_append, List.forall_mem_append, Stmt.gather_switch]
    exact ⟨fun expansion hmem =>
        (hscrutinee.origin expansion hmem).mono (List.subset_append_left ..),
      fun expansion hmem => (hcases.origin expansion hmem).mono (List.subset_append_right ..)⟩
  | .loop _ hinit hstep hbody => by
    rw [Trace.expansions_append, Trace.expansions_append, List.forall_mem_append,
      List.forall_mem_append, Stmt.gather_loop]
    refine ⟨⟨fun expansion hmem => (hinit.origin expansion hmem).mono fun call hcall => ?_,
      fun expansion hmem => (hstep.origin expansion hmem).mono fun call hcall => ?_⟩,
      fun expansion hmem => (hbody.origin expansion hmem).mono fun call hcall => ?_⟩
    all_goals simp only [List.mem_append]
    · exact Or.inr (Or.inl (Or.inl hcall))
    · exact Or.inr (Or.inl (Or.inr hcall))
    · exact Or.inr (Or.inr hcall)
  | .block hbody => by
    rw [Stmt.gather_block]
    exact hbody.origin

theorem Case.Expands.origin {cases cases' : List Case} {t : Trace} :
    Case.Expands module caller cases cases' t →
      ∀ expansion ∈ t.expansions, expansion.OneOf (Case.gather Stmt.ownCalls cases)
  | .nil => by simp
  | .cons _ hbody hcases => by
    rw [Trace.expansions_append, List.forall_mem_append, Case.gather_cons]
    exact ⟨fun expansion hmem => (hbody.origin expansion hmem).mono (List.subset_append_left ..),
      fun expansion hmem => (hcases.origin expansion hmem).mono (List.subset_append_right ..)⟩

/-- Every expansion is one of a call in the block. -/
theorem Block.Expands.origin {block block' : Block} {t : Trace} :
    Block.Expands module caller block block' t →
      ∀ expansion ∈ t.expansions, expansion.OneOf (Block.gather Stmt.ownCalls block)
  | .nil => by simp
  | .cons hstmt hstmts => by
    rw [Trace.expansions_append, List.forall_mem_append, Block.gather_cons]
    exact ⟨fun expansion hmem => (hstmt.origin expansion hmem).mono (List.subset_append_left ..),
      fun expansion hmem => (hstmts.origin expansion hmem).mono (List.subset_append_right ..)⟩
  | .hold hstmt hstmts => by
    rw [Trace.expansions_append, Trace.expansions_append, Trace.onHold, List.append_nil,
      List.forall_mem_append, Block.gather_cons]
    exact ⟨fun expansion hmem => (hstmt.origin expansion hmem).mono (List.subset_append_left ..),
      fun expansion hmem => (hstmts.origin expansion hmem).mono (List.subset_append_right ..)⟩

end

/-! ## Declarations in a block -/

theorem Stmt.Expands.declares {stmt stmt' : Stmt} {hoisted : List Stmt} {t : Trace}
    (h : Stmt.Expands module caller stmt hoisted stmt' t) : stmt'.declares = stmt.declares := by
  cases h <;> rfl

theorem Stmt.Expands.declares_hoisted {stmt stmt' : Stmt} {hoisted : List Stmt} {t : Trace}
    (h : Stmt.Expands module caller stmt hoisted stmt' t) : Block.declares hoisted ⊆ t.names := by
  cases h with
  | expr hvalue => exact hvalue.declares_subset
  | assign _ hvalue => exact hvalue.declares_subset
  | declare _ hvalue => exact hvalue.declares_subset
  | branch hcondition _ =>
    exact List.Subset.trans hcondition.declares_subset (List.subset_append_left ..)
  | switch hscrutinee _ =>
    exact List.Subset.trans hscrutinee.declares_subset (List.subset_append_left ..)
  | _ => exact List.nil_subset _

/-- What is declared directly in a block still is, and the rest was given out. -/
theorem Block.Expands.declares {block block' : Block} {t : Trace}
    (h : Block.Expands module caller block block' t) :
    Block.declares block ⊆ Block.declares block' ∧
      Block.declares block' ⊆ t.names ++ Block.declares block := by
  induction block generalizing block' t with
  | nil =>
    cases h
    exact ⟨List.Subset.refl _, List.Subset.refl _⟩
  | cons stmt stmts ih =>
    cases h with
    | cons hstmt hstmts =>
      obtain ⟨hkept, hnew⟩ := ih hstmts
      have hhoisted := hstmt.declares_hoisted
      rw [Block.declares_append, Block.declares_cons, Block.declares_cons, hstmt.declares]
      refine ⟨fun name hname => ?_, fun name hname => ?_⟩
      · simp only [List.mem_append] at hname ⊢
        exact Or.inr (hname.imp_right fun hmem => hkept hmem)
      · simp only [List.mem_append, Trace.names_append] at hname ⊢
        rcases hname with hname | hname | hname
        · exact Or.inl (Or.inl (hhoisted hname))
        · exact Or.inr (Or.inl hname)
        · have := List.mem_append.mp (hnew hname)
          tauto
    | hold hstmt hstmts =>
      obtain ⟨hkept, hnew⟩ := ih hstmts
      rw [Block.declares_cons, Block.declares_cons, hstmt.declares]
      refine ⟨fun name hname => ?_, fun name hname => ?_⟩
      · simp only [List.mem_append] at hname ⊢
        exact hname.imp_right fun hmem => hkept hmem
      · simp only [List.mem_append, Trace.names_append] at hname ⊢
        rcases hname with hname | hname
        · exact Or.inr (Or.inl hname)
        · have := List.mem_append.mp (hnew hname)
          tauto

end YulInline
