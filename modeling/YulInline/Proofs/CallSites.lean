import YulInline.Proofs.Runs

/-!
# Call sites

A call site of a module is a call, outside the conditions of loops, of a function with exactly one
return variable, in a body other than its own. `Stmt.callSites` lists those of a statement of the
root block in the order in which they are visited: the arguments of a call come before the call
itself, and the expression of a statement before the blocks inside it.

The expansions recorded for a body that was expanded completely are those of its call sites, in this
order and each once. So nothing is expanded that was not there at the start: not the calls in a
copy, and not those in other statements that were put in.
-/

namespace YulInline

/-- Where a call stands, and what it calls. -/
structure CallSite where
  /-- The function in whose body the call stands; empty for a top-level block. -/
  caller : String
  /-- The function that is called. -/
  callee : String
deriving DecidableEq, Repr

/-- The call that was expanded. -/
def Expansion.site (expansion : Expansion) : CallSite :=
  ⟨expansion.caller, expansion.callee.name⟩

/-- Whether calls of `callee` in the body of `caller` are call sites: `callee` is another function
of the module, and has exactly one return variable. -/
def Block.inlines (module : Block) (caller callee : String) : Bool :=
  callee ≠ caller && (Block.functions module).any fun function =>
    function.name = callee && function.returns.length = 1

section Sites

variable (module : Block) (caller : String)

mutual

/-- The call sites in an expression. -/
def Expr.sites : Expr → List CallSite
  | .literal _ => []
  | .ident _ => []
  | .instr _ args => Expr.sitesOfArgs args
  | .call callee args =>
    Expr.sitesOfArgs args ++ if module.inlines caller callee then [⟨caller, callee⟩] else []

/-- The call sites in a list of arguments. -/
def Expr.sitesOfArgs : List Expr → List CallSite
  | [] => []
  | arg :: args => Expr.sites arg ++ Expr.sitesOfArgs args

end

/-- The call sites in a statement, apart from the statements inside it. -/
def Stmt.ownSites : Stmt → List CallSite
  | .expr value => value.sites module caller
  | .assign _ value => value.sites module caller
  | .declare _ (some value) => value.sites module caller
  | .branch condition _ => condition.sites module caller
  | .switch scrutinee _ => scrutinee.sites module caller
  | .declare _ none | .define _ | .loop .. | .block _ => []

end Sites

/-- The call sites in a statement of the root block. -/
def Stmt.callSites (module : Block) (stmt : Stmt) : List CallSite :=
  stmt.gather (Stmt.ownSites module stmt.callerName)

/-- The call sites of a module. -/
def Block.callSites (module : Block) : List CallSite :=
  module.flatMap (Stmt.callSites module)

variable {module : Block} {caller : String}

/-- A call site is that of a call which is expanded in the body of `caller`. -/
def CallSite.Of (module : Block) (caller : String) (site : CallSite) (call : String × Nat) : Prop :=
  module.inlines caller call.1 = true ∧ site = ⟨caller, call.1⟩

mutual

/-- The call sites in an expression are those of its calls that are expanded. -/
theorem Expr.mem_sites (site : CallSite) : ∀ e : Expr,
    site ∈ e.sites module caller ↔ ∃ call ∈ e.calls, site.Of module caller call
  | .literal value => by simp [Expr.sites, Expr.calls]
  | .ident name => by simp [Expr.sites, Expr.calls]
  | .instr op args => by rw [Expr.sites, Expr.calls, Expr.mem_sitesOfArgs site args]
  | .call callee args => by
    rw [Expr.sites, Expr.calls, List.mem_append, Expr.mem_sitesOfArgs site args,
      List.exists_mem_cons_iff, or_comm]
    refine or_congr_left ?_
    rw [CallSite.Of]
    split
    · next hinlines => simp [hinlines]
    · next hinlines => simp [hinlines]

theorem Expr.mem_sitesOfArgs (site : CallSite) : ∀ args : List Expr,
    site ∈ Expr.sitesOfArgs module caller args ↔
      ∃ call ∈ Expr.callsOfArgs args, site.Of module caller call
  | [] => by simp [Expr.sitesOfArgs, Expr.callsOfArgs]
  | arg :: args => by
    simp only [Expr.sitesOfArgs, Expr.callsOfArgs, List.mem_append, or_and_right, exists_or,
      Expr.mem_sites site arg, Expr.mem_sitesOfArgs site args]

end

theorem Stmt.mem_ownSites (stmt : Stmt) (site : CallSite) :
    site ∈ stmt.ownSites module caller ↔ ∃ call ∈ stmt.ownCalls, site.Of module caller call := by
  cases stmt with
  | expr value => exact Expr.mem_sites site value
  | assign targets value => exact Expr.mem_sites site value
  | declare vars value =>
    cases value with
    | none => simp [Stmt.ownSites, Stmt.ownCalls, Expr.callsOfValue]
    | some value => exact Expr.mem_sites site value
  | branch condition body => exact Expr.mem_sites site condition
  | switch scrutinee cases => exact Expr.mem_sites site scrutinee
  | _ => simp [Stmt.ownSites, Stmt.ownCalls]

theorem Block.inlines_iff {callee : String} : module.inlines caller callee = true ↔
    ∃ function ∈ Block.functions module,
      function.name = callee ∧ function.returns.length = 1 ∧ function.name ≠ caller := by
  rw [Block.inlines, Bool.and_eq_true, List.any_eq_true, decide_eq_true_iff]
  constructor
  · rintro ⟨hne, function, hmem, heq⟩
    rw [Bool.and_eq_true, decide_eq_true_iff, decide_eq_true_iff] at heq
    exact ⟨function, hmem, heq.1, heq.2, heq.1 ▸ hne⟩
  · rintro ⟨function, hmem, rfl, hone, hne⟩
    exact ⟨hne, function, hmem, by simp [hone]⟩

/-! ## What is expanded -/

/-- The calls that are expanded are the call sites. -/
theorem FunctionDef.FormIn.inlines (hnodup : module.functionNames.Nodup) {callee : FunctionDef}
    (h : callee.FormIn module) :
    module.inlines caller callee.name = (callee.result? caller).isSome := by
  obtain ⟨original, hmem, heq⟩ := h
  have hreturns : callee.returns = original.returns := by rw [heq]
  have hany : ((Block.functions module).any fun function =>
      function.name = callee.name && function.returns.length = 1) =
        decide (callee.returns.length = 1) := by
    rw [Bool.eq_iff_iff, List.any_eq_true, decide_eq_true_iff, hreturns]
    constructor
    · rintro ⟨other, hother, hsame⟩
      rw [Bool.and_eq_true, decide_eq_true_iff, decide_eq_true_iff] at hsame
      have hname : other.name = original.name := by rw [hsame.1, heq]
      rw [← List.inj_on_of_nodup_map hnodup hother hmem hname]
      exact hsame.2
    · intro hone
      refine ⟨original, hmem, ?_⟩
      rw [Bool.and_eq_true, decide_eq_true_iff, decide_eq_true_iff]
      exact ⟨by rw [heq], hone⟩
  rw [Block.inlines, hany, FunctionDef.result?]
  rcases callee.returns with _ | ⟨result, _ | ⟨other, others⟩⟩
  · simp
  · by_cases hname : callee.name = caller <;> simp [hname]
  · simp

mutual

/-- Every call site in an expression is expanded once, in order, and nothing else. -/
theorem Expr.Expands.sites {e e' : Expr} {hoisted : List Stmt} {t : Trace}
    (hnodup : module.functionNames.Nodup) : Expr.Expands module caller e hoisted e' t →
      t.expansions.map Expansion.site = e.sites module caller
  | .literal _ => by rw [Expr.sites]; rfl
  | .ident _ => by rw [Expr.sites]; rfl
  | .instr _ hargs => by
    rw [Expr.sites]
    exact hargs.sites hnodup
  | .kept hform hresult _ hargs => by
    rw [Expr.sites, hform.inlines hnodup, hresult, hargs.sites hnodup]
    exact (List.append_nil _).symm
  | .expanded hform hresult _ hargs _ => by
    rw [Expr.sites, hform.inlines hnodup, hresult, Trace.expansions_append, List.map_append,
      hargs.sites hnodup]
    rfl

theorem Expr.ExpandsArgs.sites {types : List String} {toFront : Bool} {args args' : List Expr}
    {hoisted : List Stmt} {t : Trace} (hnodup : module.functionNames.Nodup) :
    Expr.ExpandsArgs module caller types toFront args hoisted args' t →
      t.expansions.map Expansion.site = Expr.sitesOfArgs module caller args
  | .nil _ _ => by rw [Expr.sitesOfArgs]; rfl
  | .stays harg hargs => by
    rw [Expr.sitesOfArgs, Trace.expansions_append, List.map_append, harg.sites hnodup,
      hargs.sites hnodup]
  | .holder harg _ hargs => by
    rw [Expr.sitesOfArgs, Trace.expansions_append, List.map_append, harg.sites hnodup,
      hargs.sites hnodup]
  | .bound harg _ hargs => by
    rw [Expr.sitesOfArgs, Trace.expansions_append, Trace.expansions_append, List.append_nil,
      List.map_append, harg.sites hnodup, hargs.sites hnodup]

end

mutual

/-- The same for a statement that is expanded completely. -/
theorem Stmt.Expands.sites {stmt stmt' : Stmt} {hoisted : List Stmt} {t : Trace}
    (hnodup : module.functionNames.Nodup) :
    Stmt.Expands module caller stmt hoisted stmt' t → t.complete = true →
      t.expansions.map Expansion.site = stmt.gather (Stmt.ownSites module caller)
  | .untouched _, h => by simp at h
  | .expr hvalue, _ => by
    rw [Stmt.gather_expr]
    exact hvalue.sites hnodup
  | .assign _ hvalue, _ => by
    rw [Stmt.gather_assign]
    exact hvalue.sites hnodup
  | .empty _, _ => by
    rw [Stmt.gather_declare]
    rfl
  | .declare _ hvalue, _ => by
    rw [Stmt.gather_declare]
    exact hvalue.sites hnodup
  | .branch hcondition hbody, h => by
    rw [Trace.complete_append] at h
    rw [Stmt.gather_branch, Trace.expansions_append, List.map_append, hcondition.sites hnodup,
      hbody.sites hnodup h.2]
    rfl
  | .switch hscrutinee hcases, h => by
    rw [Trace.complete_append] at h
    rw [Stmt.gather_switch, Trace.expansions_append, List.map_append, hscrutinee.sites hnodup,
      hcases.sites hnodup h.2]
    rfl
  | .loop _ hinit hstep hbody, h => by
    rw [Trace.complete_append, Trace.complete_append] at h
    rw [Stmt.gather_loop, Trace.expansions_append, Trace.expansions_append, List.map_append,
      List.map_append, hinit.sites hnodup h.1.1, hstep.sites hnodup h.1.2, hbody.sites hnodup h.2]
    rfl
  | .block hbody, h => by
    rw [Stmt.gather_block]
    exact hbody.sites hnodup h

theorem Case.Expands.sites {cases cases' : List Case} {t : Trace}
    (hnodup : module.functionNames.Nodup) :
    Case.Expands module caller cases cases' t → t.complete = true →
      t.expansions.map Expansion.site = Case.gather (Stmt.ownSites module caller) cases
  | .nil, _ => by
    rw [Case.gather_nil]
    rfl
  | .cons _ hbody hcases, h => by
    rw [Trace.complete_append] at h
    rw [Case.gather_cons, Trace.expansions_append, List.map_append, hbody.sites hnodup h.1,
      hcases.sites hnodup h.2]

theorem Block.Expands.sites {block block' : Block} {t : Trace}
    (hnodup : module.functionNames.Nodup) :
    Block.Expands module caller block block' t → t.complete = true →
      t.expansions.map Expansion.site = Block.gather (Stmt.ownSites module caller) block
  | .nil, _ => by
    rw [Block.gather_nil]
    rfl
  | .cons hstmt hstmts, h => by
    rw [Trace.complete_append] at h
    rw [Block.gather_cons, Trace.expansions_append, List.map_append, hstmt.sites hnodup h.1,
      hstmts.sites hnodup h.2]
  | .hold _ _, h => by
    simp [Trace.onHold] at h

end

/-- The same for a statement of the root block. -/
theorem Stmt.RootExpands.sites {stmt stmt' : Stmt} {t : Trace}
    (hnodup : module.functionNames.Nodup) (h : stmt.RootExpands module stmt' t)
    (hcomplete : t.complete = true) (hbody : ∃ body, stmt.body? = some body) :
    t.expansions.map Expansion.site = stmt.callSites module := by
  cases h with
  | block hexpands =>
    rw [Stmt.callSites, Stmt.gather_block]
    exact hexpands.sites hnodup hcomplete
  | define hexpands =>
    rw [Stmt.callSites, Stmt.gather_define]
    exact hexpands.sites hnodup hcomplete
  | other hnone =>
    obtain ⟨body, hsome⟩ := hbody
    rw [hnone] at hsome
    cases hsome

/-! ## Finished runs -/

/-- To list something for every position of a list is to list it for every element. -/
theorem flatMap_range_length {α β : Type} {f : α → List β} {g : Nat → List β} {xs : List α}
    (h : ∀ i a, xs[i]? = some a → g i = f a) : (List.range xs.length).flatMap g = xs.flatMap f := by
  induction xs generalizing g with
  | nil => rfl
  | cons x xs ih =>
    rw [List.length_cons, List.range_succ_eq_map, List.flatMap_cons, List.flatMap_map,
      List.flatMap_cons, h 0 x rfl, ih fun i a hi => h (i + 1) a hi]

namespace Inliner.Finished

variable {final : Inliner} {names : NameSupply} {own : Nat → Trace}

/-- What is recorded for a position are the call sites of the statement there. -/
theorem sites_at (h : final.Finished module names own) {i : Nat} {stmt : Stmt}
    (hstmt : module[i]? = some stmt) :
    (own i).expansions.map Expansion.site = stmt.callSites module := by
  obtain ⟨hlt, -⟩ := List.getElem?_eq_some_iff.mp hstmt
  obtain ⟨other, stmt', hother, -, hroot, hcomplete⟩ := h.complete i hlt
  obtain rfl : stmt = other := Option.some.inj (hstmt.symm.trans hother)
  exact hroot.sites h.nodup hcomplete (h.bodies stmt (List.mem_of_getElem? hstmt))

/-- The expansions of a run are those of the call sites of the module, each once. -/
theorem sites_perm (h : final.Finished module names own) :
    (final.expansions.map Expansion.site).Perm module.callSites := by
  have hlog := h.log.map Expansion.site
  rwa [List.map_flatMap, flatMap_range_length fun i stmt hstmt => h.sites_at hstmt] at hlog

end Inliner.Finished

end YulInline
