import YulInline.Proofs.Accounts

/-!
# Where the copies are

Every expansion of a trace has put a block with a copy of a body into the expansion
(`Expansion.Placed`). The variables that hold its arguments and its result were given out for this
call, are pairwise different, and are declared in front of the copy. Whatever else has been hoisted,
what remains of the expression refers to a variable that was declared on the way.
-/

namespace YulInline

variable {module : Block} {caller : String}

/-! ## What remains refers to what was hoisted -/

/-- A variable that remains of an expression, with something hoisted, is the result of an expansion.
-/
theorem Expr.Expands.ident_mem {e : Expr} {hoisted : List Stmt} {name : String} {t : Trace}
    (h : Expr.Expands module caller e hoisted (.ident name) t) (hhoisted : hoisted ≠ []) :
    name ∈ t.names ∧ name ∈ Block.declares hoisted := by
  cases h with
  | ident => exact absurd rfl hhoisted
  | expanded hform hresult hcount hargs hcopy => simp [Stmt.declares]

theorem Expr.Expands.refers_args {types : List String} {toFront : Bool} {args args' : List Expr}
    {hoisted : List Stmt} {t : Trace}
    (h : Expr.ExpandsArgs module caller types toFront args hoisted args' t)
    (hhoisted : hoisted ≠ []) : ∃ name ∈ Expr.varsOfArgs args', name ∈ Block.declares hoisted := by
  induction args generalizing types toFront hoisted args' t with
  | nil =>
    cases h
    exact absurd rfl hhoisted
  | cons arg args ih =>
    cases h with
    | stays harg hargs =>
      obtain ⟨name, hname, hdeclared⟩ := ih hargs hhoisted
      exact ⟨name, List.mem_append_right _ hname, hdeclared⟩
    | holder harg hfront hargs =>
      refine ⟨_, List.mem_append_left _ (List.mem_singleton_self _), ?_⟩
      rw [Block.declares_append]
      exact List.mem_append_right _ (harg.ident_mem hfront).2
    | @bound _ _ _ _ name _ _ _ _ _ _ harg hmoved hargs =>
      refine ⟨name, List.mem_append_left _ (List.mem_singleton_self _), ?_⟩
      simp [Stmt.declares]

/-- If something is hoisted out of an expression, what remains of it refers to a variable that is
declared there. -/
theorem Expr.Expands.refers {e e' : Expr} {hoisted : List Stmt} {t : Trace}
    (h : Expr.Expands module caller e hoisted e' t) (hhoisted : hoisted ≠ []) :
    ∃ name ∈ e'.vars, name ∈ Block.declares hoisted := by
  cases h with
  | literal => exact absurd rfl hhoisted
  | ident => exact absurd rfl hhoisted
  | instr op hargs => exact Expr.Expands.refers_args hargs hhoisted
  | kept hform hresult hcount hargs => exact Expr.Expands.refers_args hargs hhoisted
  | @expanded _ _ _ _ _ _ holder _ hform hresult hcount hargs hcopy =>
    refine ⟨holder, List.mem_singleton_self _, ?_⟩
    simp [Stmt.declares]

/-- The variables that arguments are moved to are given out for them, in order, and declared. -/
theorem Expr.ExpandsArgs.idents_spec {types : List String} {args : List Expr}
    {hoisted : List Stmt} {arguments : List String} {t : Trace}
    (h : Expr.ExpandsArgs module caller types true args hoisted (arguments.map .ident) t) :
    arguments.Sublist t.names ∧ (∀ name ∈ arguments, name ∈ Block.declares hoisted) ∧
      arguments.length = args.length := by
  induction args generalizing types hoisted arguments t with
  | nil =>
    cases arguments with
    | nil => exact ⟨List.nil_sublist _, by simp, rfl⟩
    | cons => cases h
  | cons arg args ih =>
    cases arguments with
    | nil => cases h
    | cons name arguments =>
      rw [List.map_cons] at h
      cases h with
      | holder harg hfront hargs =>
        obtain ⟨hsublist, hdeclared, hlength⟩ := ih hargs
        obtain ⟨hname, hname'⟩ := harg.ident_mem hfront
        refine ⟨?_, ?_, by simp [hlength]⟩
        · exact (List.singleton_sublist.mpr hname).append hsublist
        · rw [List.forall_mem_cons]
          simp only [Block.declares_append, List.mem_append]
          exact ⟨Or.inr hname', fun other hother => Or.inl (hdeclared other hother)⟩
      | bound harg hmoved hargs =>
        obtain ⟨hsublist, hdeclared, hlength⟩ := ih hargs
        refine ⟨?_, ?_, by simp [hlength]⟩
        · rw [Trace.names_append, Trace.names_append, List.append_assoc]
          exact (hsublist.cons_cons name).trans (List.sublist_append_right ..)
        · rw [List.forall_mem_cons]
          simp only [Block.declares_append, List.mem_append, Block.declares_cons, Stmt.declares,
            List.map_cons, List.map_nil, List.mem_singleton]
          exact ⟨Or.inr (Or.inr (Or.inl trivial)), fun other hother => Or.inl (hdeclared other hother)⟩

/-! ## Holders -/

/-- The variables that hold the arguments and the result of an expansion were given out for it. -/
def Trace.Holds (t : Trace) : Prop :=
  ∀ expansion ∈ t.expansions, (expansion.arguments ++ [expansion.result]).Sublist t.names

theorem Trace.Holds.append {s t : Trace} (h : s.Holds) (h' : t.Holds) : (s ++ t).Holds := by
  refine List.forall_mem_append.mpr ⟨fun expansion hmem => ?_, fun expansion hmem => ?_⟩
  · exact (h expansion hmem).trans (List.sublist_append_left ..)
  · exact (h' expansion hmem).trans (List.sublist_append_right ..)

theorem Trace.holds_of_expansions_eq_nil {t : Trace} (h : t.expansions = []) : t.Holds := by
  intro expansion hmem
  rw [h] at hmem
  cases hmem

mutual

theorem Expr.Expands.holds {e e' : Expr} {hoisted : List Stmt} {t : Trace} :
    Expr.Expands module caller e hoisted e' t → t.Holds
  | .literal _ => Trace.holds_of_expansions_eq_nil rfl
  | .ident _ => Trace.holds_of_expansions_eq_nil rfl
  | .instr _ hargs => hargs.holds
  | .kept _ _ _ hargs => hargs.holds
  | .expanded _ _ _ hargs _ => by
    refine List.forall_mem_append.mpr ⟨fun expansion hmem => ?_, fun expansion hmem => ?_⟩
    · exact (hargs.holds expansion hmem).trans (List.sublist_append_left ..)
    · obtain rfl := List.mem_singleton.mp hmem
      exact hargs.idents_spec.1.append (List.singleton_sublist.mpr (List.mem_cons_self ..))

theorem Expr.ExpandsArgs.holds {types : List String} {toFront : Bool} {args args' : List Expr}
    {hoisted : List Stmt} {t : Trace} :
    Expr.ExpandsArgs module caller types toFront args hoisted args' t → t.Holds
  | .nil _ _ => Trace.holds_of_expansions_eq_nil rfl
  | .stays harg hargs => harg.holds.append hargs.holds
  | .holder harg _ hargs => harg.holds.append hargs.holds
  | .bound harg _ hargs =>
    (harg.holds.append (Trace.holds_of_expansions_eq_nil rfl)).append hargs.holds

end

mutual

theorem Stmt.Expands.holds {stmt stmt' : Stmt} {hoisted : List Stmt} {t : Trace} :
    Stmt.Expands module caller stmt hoisted stmt' t → t.Holds
  | .untouched _ => Trace.holds_of_expansions_eq_nil rfl
  | .expr hvalue => hvalue.holds
  | .assign _ hvalue => hvalue.holds
  | .empty _ => Trace.holds_of_expansions_eq_nil rfl
  | .declare _ hvalue => hvalue.holds
  | .branch hcondition hbody => hcondition.holds.append hbody.holds
  | .switch hscrutinee hcases => hscrutinee.holds.append hcases.holds
  | .loop _ hinit hstep hbody => (hinit.holds.append hstep.holds).append hbody.holds
  | .block hbody => hbody.holds

theorem Case.Expands.holds {cases cases' : List Case} {t : Trace} :
    Case.Expands module caller cases cases' t → t.Holds
  | .nil => Trace.holds_of_expansions_eq_nil rfl
  | .cons _ hbody hcases => hbody.holds.append hcases.holds

theorem Block.Expands.holds {block block' : Block} {t : Trace} :
    Block.Expands module caller block block' t → t.Holds
  | .nil => Trace.holds_of_expansions_eq_nil rfl
  | .cons hstmt hstmts => hstmt.holds.append hstmts.holds
  | .hold hstmt hstmts =>
    (hstmt.holds.append (Trace.holds_of_expansions_eq_nil rfl)).append hstmts.holds

end

theorem Stmt.RootExpands.holds {stmt stmt' : Stmt} {t : Trace}
    (h : stmt.RootExpands module stmt' t) : t.Holds := by
  cases h with
  | block hbody => exact hbody.holds
  | define hbody => exact hbody.holds
  | other _ => exact Trace.holds_of_expansions_eq_nil rfl

/-! ## Placed copies -/

/-- An expansion in the body of `caller` has put a block with a copy into `block`. -/
def Expansion.Placed (module : Block) (caller : String) (block : Block) (expansion : Expansion) :
    Prop :=
  expansion.caller = caller ∧ expansion.callee.FormIn module ∧
    ∃ result copy, expansion.callee.result? caller = some result ∧
      expansion.callee.Copied expansion.arguments result.name expansion.result copy ∧
      ∀ (α : Type) (own : Stmt → List α),
        ((Stmt.block copy).gather own).Sublist (Block.gather own block)

theorem Expansion.Placed.mono {block block' : Block} {expansion : Expansion}
    (h : expansion.Placed module caller block)
    (hsub : ∀ (α : Type) (own : Stmt → List α),
      (Block.gather own block).Sublist (Block.gather own block')) :
    expansion.Placed module caller block' := by
  obtain ⟨hcaller, hform, result, copy, hresult, hcopied, hplaced⟩ := h
  exact ⟨hcaller, hform, result, copy, hresult, hcopied,
    fun α own => (hplaced α own).trans (hsub α own)⟩

theorem Expansion.Placed.append_left {block : Block} {expansion : Expansion}
    (h : expansion.Placed module caller block) (back : Block) :
    expansion.Placed module caller (block ++ back) :=
  h.mono fun _ own => by
    rw [Block.gather_append]
    exact List.sublist_append_left ..

theorem Expansion.Placed.append_right {block : Block} {expansion : Expansion}
    (h : expansion.Placed module caller block) (front : Block) :
    expansion.Placed module caller (front ++ block) :=
  h.mono fun _ own => by
    rw [Block.gather_append]
    exact List.sublist_append_right ..

mutual

/-- The copies for an expression are in what is hoisted out of it. -/
theorem Expr.Expands.placed {e e' : Expr} {hoisted : List Stmt} {t : Trace} :
    Expr.Expands module caller e hoisted e' t →
      ∀ expansion ∈ t.expansions, expansion.Placed module caller hoisted
  | .literal _ => by simp
  | .ident _ => by simp
  | .instr _ hargs => hargs.placed
  | .kept _ _ _ hargs => hargs.placed
  | .expanded hform hresult _ hargs hcopy => by
    rw [Trace.expansions_append, List.forall_mem_append]
    refine ⟨fun expansion hmem => (hargs.placed expansion hmem).append_left _, ?_⟩
    rw [List.forall_mem_singleton]
    refine ⟨rfl, hform, _, _, hresult, hcopy, fun α own => ?_⟩
    rw [Block.gather_append, Block.gather_cons, Block.gather_cons, Block.gather_nil,
      List.append_nil, ← List.append_assoc]
    exact List.sublist_append_right ..

theorem Expr.ExpandsArgs.placed {types : List String} {toFront : Bool} {args args' : List Expr}
    {hoisted : List Stmt} {t : Trace} :
    Expr.ExpandsArgs module caller types toFront args hoisted args' t →
      ∀ expansion ∈ t.expansions, expansion.Placed module caller hoisted
  | .nil _ _ => by simp
  | .stays harg hargs => by
    rw [Trace.expansions_append, List.forall_mem_append]
    exact ⟨fun expansion hmem => (harg.placed expansion hmem).append_left _, hargs.placed⟩
  | .holder harg _ hargs => by
    rw [Trace.expansions_append, List.forall_mem_append]
    exact ⟨fun expansion hmem => (harg.placed expansion hmem).append_right _,
      fun expansion hmem => (hargs.placed expansion hmem).append_left _⟩
  | .bound harg _ hargs => by
    rw [Trace.expansions_append, Trace.expansions_append, List.append_nil, List.forall_mem_append]
    exact ⟨fun expansion hmem => ((harg.placed expansion hmem).append_left _).append_right _,
      fun expansion hmem => (hargs.placed expansion hmem).append_left _⟩

end

/-- A copy in a part of a statement is in the statement. -/
theorem Expansion.Placed.inside {block : Block} {stmt : Stmt} {expansion : Expansion}
    (h : expansion.Placed module caller block)
    (hsub : ∀ (α : Type) (own : Stmt → List α),
      (Block.gather own block).Sublist (stmt.gather own)) :
    expansion.Placed module caller [stmt] := by
  refine h.mono fun α own => ?_
  rw [Block.gather_cons, Block.gather_nil, List.append_nil]
  exact hsub α own

mutual

/-- If nothing is held back, the copies for a statement are in it and what is hoisted out of it. -/
theorem Stmt.Expands.placed {stmt stmt' : Stmt} {hoisted : List Stmt} {t : Trace} :
    Stmt.Expands module caller stmt hoisted stmt' t → t.held = [] →
      ∀ expansion ∈ t.expansions, expansion.Placed module caller (hoisted ++ [stmt'])
  | .untouched _, _ => by simp
  | .expr hvalue, _ => fun expansion hmem => (hvalue.placed expansion hmem).append_left _
  | .assign _ hvalue, _ => fun expansion hmem => (hvalue.placed expansion hmem).append_left _
  | .empty _, _ => by simp
  | .declare _ hvalue, _ => fun expansion hmem => (hvalue.placed expansion hmem).append_left _
  | .branch hcondition hbody, h => by
    obtain ⟨-, hheld⟩ := List.append_eq_nil_iff.mp h
    rw [Trace.expansions_append, List.forall_mem_append]
    refine ⟨fun expansion hmem => (hcondition.placed expansion hmem).append_left _,
      fun expansion hmem => ((hbody.placed hheld expansion hmem).inside ?_).append_right _⟩
    intro α own
    rw [Stmt.gather_branch]
    exact List.sublist_append_right ..
  | .switch hscrutinee hcases, h => by
    obtain ⟨-, hheld⟩ := List.append_eq_nil_iff.mp h
    rw [Trace.expansions_append, List.forall_mem_append]
    refine ⟨fun expansion hmem => (hscrutinee.placed expansion hmem).append_left _,
      fun expansion hmem => ?_⟩
    obtain ⟨block, hplaced, hsub⟩ := hcases.placed hheld expansion hmem
    refine (hplaced.inside fun α own => ?_).append_right _
    rw [Stmt.gather_switch]
    exact (hsub α own).trans (List.sublist_append_right ..)
  | .loop _ hinit hstep hbody, h => by
    obtain ⟨h, hheld₃⟩ := List.append_eq_nil_iff.mp h
    obtain ⟨hheld₁, hheld₂⟩ := List.append_eq_nil_iff.mp h
    rw [Trace.expansions_append, Trace.expansions_append, List.forall_mem_append,
      List.forall_mem_append]
    refine ⟨⟨fun expansion hmem => (hinit.placed hheld₁ expansion hmem).inside ?_,
      fun expansion hmem => (hstep.placed hheld₂ expansion hmem).inside ?_⟩,
      fun expansion hmem => (hbody.placed hheld₃ expansion hmem).inside ?_⟩
    all_goals
      intro α own
      rw [Stmt.gather_loop]
      refine List.Sublist.trans ?_ (List.sublist_append_right ..)
    · exact (List.sublist_append_left ..).trans (List.sublist_append_left ..)
    · exact (List.sublist_append_right ..).trans (List.sublist_append_left ..)
    · exact List.sublist_append_right ..
  | .block hbody, h => fun expansion hmem => by
    refine (hbody.placed h expansion hmem).inside fun α own => ?_
    rw [Stmt.gather_block]
    exact List.sublist_append_right ..

theorem Case.Expands.placed {cases cases' : List Case} {t : Trace} :
    Case.Expands module caller cases cases' t → t.held = [] →
      ∀ expansion ∈ t.expansions, ∃ block, expansion.Placed module caller block ∧
        ∀ (α : Type) (own : Stmt → List α),
          (Block.gather own block).Sublist (Case.gather own cases')
  | .nil, _ => by simp
  | .cons _ hbody hcases, h => by
    obtain ⟨hheld, hheld'⟩ := List.append_eq_nil_iff.mp h
    rw [Trace.expansions_append, List.forall_mem_append]
    refine ⟨fun expansion hmem => ⟨_, hbody.placed hheld expansion hmem, fun α own => ?_⟩,
      fun expansion hmem => ?_⟩
    · rw [Case.gather_cons]
      exact List.sublist_append_left ..
    · obtain ⟨block, hplaced, hsub⟩ := hcases.placed hheld' expansion hmem
      refine ⟨block, hplaced, fun α own => ?_⟩
      rw [Case.gather_cons]
      exact (hsub α own).trans (List.sublist_append_right ..)

/-- If nothing is held back, the copies for a block are in it. -/
theorem Block.Expands.placed {block block' : Block} {t : Trace} :
    Block.Expands module caller block block' t → t.held = [] →
      ∀ expansion ∈ t.expansions, expansion.Placed module caller block'
  | .nil, _ => by simp
  | @Block.Expands.cons _ _ _ stmt' hoisted _ stmts' _ _ hstmt hstmts, h => by
    obtain ⟨hheld, hheld'⟩ := List.append_eq_nil_iff.mp h
    rw [Trace.expansions_append, List.forall_mem_append, List.append_cons]
    exact ⟨fun expansion hmem => (hstmt.placed hheld expansion hmem).append_left _,
      fun expansion hmem => (hstmts.placed hheld' expansion hmem).append_right _⟩
  | @Block.Expands.hold _ _ _ stmt' hoisted _ stmts' _ _ hstmt hstmts, h => by
    obtain ⟨h, hheld'⟩ := List.append_eq_nil_iff.mp h
    obtain ⟨hheld, hhoisted⟩ := List.append_eq_nil_iff.mp h
    obtain rfl : hoisted = [] := hhoisted
    rw [Trace.expansions_append, Trace.expansions_append, Trace.onHold, List.append_nil,
      List.forall_mem_append]
    exact ⟨fun expansion hmem => (hstmt.placed hheld expansion hmem).append_left stmts',
      fun expansion hmem => (hstmts.placed hheld' expansion hmem).append_right [stmt']⟩

end

end YulInline
