import YulInline.Proofs.Meaning
import YulInline.Proofs.Renaming

/-!
# The meaning of renamed blocks

A block with its variables renamed does what the block does: if the variables have the same values
under their new names at the start (`Env.Agree`), they have so at the end, and the machine is in the
same state. Of the variables that are in scope under the new names, those that a block does not
mention stay as they are.
-/

namespace YulInline

variable {State Value : Type} {taken vars vars' : List String} {f g : String → String}

/-! ## Variables under other names -/

/-- The variables `vars` are in scope, and have the same values under their names by `f`. -/
def Env.Agree (f : String → String) (vars : List String) (env env' : Env Value) : Prop :=
  ∀ name ∈ vars, ∃ value, env name = some value ∧ env' (f name) = some value

namespace Env

variable {env env' inner inner' : Env Value}

theorem Agree.mono (h : Agree f vars env env') {fewer : List String} (hsub : fewer ⊆ vars) :
    Agree f fewer env env' :=
  fun name hname => h name (hsub hname)

theorem Agree.eq (h : Agree f vars env env') {name : String} (hname : name ∈ vars) :
    env' (f name) = env name := by
  obtain ⟨value, hvalue, hvalue'⟩ := h name hname
  rw [hvalue, hvalue']

theorem Agree.read? (h : Agree f vars env env') {names : List String} (hnames : names ⊆ vars) :
    env'.read? (names.map f) = env.read? names := by
  induction names with
  | nil => rfl
  | cons name names ih =>
    obtain ⟨hname, hnames⟩ := List.cons_subset.mp hnames
    rw [List.map_cons, Env.read?, Env.read?, ih hnames, h.eq hname]

/-- A variable gets the same value under both its names. -/
theorem Agree.set (h : Agree f vars env env') {name new : String} (value : Value)
    (hnew : ∀ other ∈ vars, other ≠ name → f other ≠ new) :
    Agree (Function.update f name new) (name :: vars) (env.set name value) (env'.set new value) := by
  intro other hother
  by_cases heq : other = name
  · subst heq
    refine ⟨value, set_self .., ?_⟩
    rw [Function.update_self, set_self]
  · have hmem := (List.mem_cons.mp hother).resolve_left heq
    rw [Function.update_of_ne heq, set_of_ne _ _ heq, set_of_ne _ _ (hnew other hmem heq)]
    exact h other hmem

/-- New variables get the same values under both their names. -/
theorem Agree.set? (h : Agree f vars env env') (hf : Embeds f vars vars') {names news : List String}
    (hnames : names.Nodup) (hlen : names.length = news.length) (hnews : Declarable taken vars' news)
    (values : List Value) :
    Option.Rel (Agree (rebind f names news) (names ++ vars)) (env.set? names values)
      (env'.set? news values) := by
  induction names generalizing f env env' vars vars' news values with
  | nil =>
    cases news with
    | nil =>
      cases values with
      | nil => exact .some h
      | cons value values => exact .none
    | cons new news => simp at hlen
  | cons name names ih =>
    cases news with
    | nil => simp at hlen
    | cons new news =>
      cases values with
      | nil => exact .none
      | cons value values =>
        obtain ⟨hname, hnames⟩ := List.nodup_cons.mp hnames
        have hnew := (hnews.2 new (List.mem_cons_self ..)).1
        have hagree : Agree (Function.update f name new) (name :: vars) (env.set name value)
            (env'.set new value) :=
          h.set value fun other hother _ heq => hnew (heq ▸ hf.mem other hother)
        have hembeds : Embeds (Function.update f name new) (name :: vars) (new :: vars') :=
          @Embeds.rebind f vars vars' [name] [new] hf (List.nodup_singleton _)
            (List.nodup_singleton _) rfl (by simpa using hnew)
        have hlater : Declarable taken (new :: vars') news :=
          @Declarable.later taken vars' [new] news hnews [new] (List.Subset.refl _)
        refine optionRel_mono (ih hagree hembeds hnames (by simpa using hlen) hlater values) ?_
        intro inner inner' hinner
        refine hinner.mono fun other hother => ?_
        simp only [List.cons_append, List.mem_cons, List.mem_append] at hother ⊢
        tauto

/-- Variables in scope get the same values under both their names. -/
theorem Agree.reset? (h : Agree f vars env env') (hf : Embeds f vars vars') {targets : List String}
    (htargets : targets ⊆ vars) (values : List Value) :
    Option.Rel (Agree f vars) (env.set? targets values) (env'.set? (targets.map f) values) := by
  induction targets generalizing env env' values with
  | nil =>
    cases values with
    | nil => exact .some h
    | cons value values => exact .none
  | cons target targets ih =>
    cases values with
    | nil => exact .none
    | cons value values =>
      obtain ⟨htarget, htargets⟩ := List.cons_subset.mp htargets
      refine ih ?_ htargets values
      have hagree := h.set value fun other hother hne heq =>
        hne (hf.inj other hother target htarget heq)
      rw [Function.update_eq_self] at hagree
      exact hagree.mono (List.subset_cons_self ..)

theorem Agree.assign? (h : Agree f vars env env') (hf : Embeds f vars vars') {targets : List String}
    (htargets : targets ⊆ vars) (values : List Value) :
    Option.Rel (Agree f vars) (env.assign? targets values)
      (env'.assign? (targets.map f) values) := by
  have hscope : (targets.all fun name => (env name).isSome) = true := by
    rw [List.all_eq_true]
    intro name hname
    obtain ⟨value, hvalue, -⟩ := h name (htargets hname)
    rw [hvalue]
    rfl
  have hscope' : ((targets.map f).all fun name => (env' name).isSome) = true := by
    rw [List.all_map, List.all_eq_true]
    intro name hname
    obtain ⟨value, -, hvalue⟩ := h name (htargets hname)
    show (env' (f name)).isSome = true
    rw [hvalue]
    rfl
  rw [Env.assign?, Env.assign?, if_pos hscope, if_pos hscope']
  exact h.reset? hf htargets values

/-- Behind a block, the variables in front of it have the values that they have at its end. -/
theorem Agree.leave (h : Agree f vars env env') {more : List String}
    (hinner : Agree g more inner inner') (hsub : vars ⊆ more) (heq : ∀ name ∈ vars, g name = f name) :
    Agree f vars (env.leave inner) (env'.leave inner') := by
  intro name hname
  obtain ⟨value, hvalue, hvalue'⟩ := h name hname
  obtain ⟨last, hlast, hlast'⟩ := hinner name (hsub hname)
  rw [heq name hname] at hlast'
  refine ⟨last, ?_, ?_⟩
  · rw [leave_of_some inner hvalue, hlast]
  · rw [leave_of_some inner' hvalue', hlast']

end Env

/-! ## Loops and blocks -/

section Parts

variable {env env' : Env Value} {run run' : Env Value → Comp State (Env Value)}

theorem Comp.Rel.within (h : env.Agree f vars env') {more : List String}
    (hrun : Comp.Rel (Env.Agree g (more ++ vars)) (run env) (run' env'))
    (heq : ∀ name ∈ vars, g name = f name) :
    Comp.Rel (Env.Agree f vars) (env.within run) (env'.within run') :=
  hrun.bind fun _ _ hinner => .pure (h.leave hinner (List.subset_append_right ..) heq)

theorem Comp.Rel.loopStep {machine : Machine State Value} {R : Env Value → Env Value → Prop}
    {condition condition' : Env Value → Comp State Value}
    {body body' step step' : Env Value → Comp State (Env Value)}
    (hcondition : ∀ env env', R env env' → condition env = condition' env')
    (hbody : ∀ env env', R env env' → Comp.Rel R (env.within body) (env'.within body'))
    (hstep : ∀ env env', R env env' → Comp.Rel R (env.within step) (env'.within step'))
    (h : R env env') :
    Comp.Rel (StepRel R) (Comp.loopStep machine condition body step env)
      (Comp.loopStep machine condition' body' step' env') := by
  rw [Comp.loopStep, Comp.loopStep]
  refine (Comp.rel_eq.mpr (hcondition env env' h)).bind ?_
  rintro value - rfl
  split
  · refine (hbody env env' h).bind fun between between' hbetween => ?_
    exact (hstep between between' hbetween).bind fun _ _ hlast => .pure (.yield hlast)
  · exact .pure (.done h)

end Parts

section Execution

variable {machine : Machine State Value} {call : String → List Value → Comp State (List Value)}
  {env env' : Env Value} {name : String}

/-! ## Renamed expressions -/

mutual

theorem Expr.eval_rename {engine : Engine State Value} (h : env.Agree f vars env') :
    ∀ {e : Expr}, e.vars ⊆ vars → (e.rename f).eval machine engine env' = e.eval machine engine env
  | .literal value, _ => rfl
  | .ident name, hvars => by
    rw [Expr.rename, Expr.eval, Expr.eval, h.eq (hvars (List.mem_singleton_self name))]
  | .instr op args, hvars => by
    rw [Expr.rename, Expr.renameAll_eq_map, Expr.eval, Expr.eval, Expr.evalArgs_rename h hvars]
  | .call callee args, hvars => by
    rw [Expr.rename, Expr.renameAll_eq_map, Expr.eval, Expr.eval, Expr.evalArgs_rename h hvars]

theorem Expr.evalArgs_rename {engine : Engine State Value} (h : env.Agree f vars env') :
    ∀ {args : List Expr}, Expr.varsOfArgs args ⊆ vars →
      Expr.evalArgs machine engine (args.map (Expr.rename f)) env' =
        Expr.evalArgs machine engine args env
  | [], _ => rfl
  | arg :: args, hvars => by
    obtain ⟨hvars, hvars'⟩ := List.append_subset.mp hvars
    rw [List.map_cons, Expr.evalArgs, Expr.evalArgs, Expr.evalArgs_rename h hvars',
      Expr.eval_rename h hvars]

end

theorem Expr.evalOne_rename {engine : Engine State Value} (h : env.Agree f vars env') {e : Expr}
    (hvars : e.vars ⊆ vars) :
    (e.rename f).evalOne machine engine env' = e.evalOne machine engine env := by
  rw [Expr.evalOne, Expr.evalOne, Expr.eval_rename h hvars]

/-! ## Variables that stay as they are -/

theorem Env.set?_of_not_mem {names : List String} {values : List Value} (hname : name ∉ names)
    (h : env.set? names values = some env') : env' name = env name := by
  induction names generalizing env values with
  | nil =>
    cases values with
    | nil => rw [← Option.some.inj h]
    | cons value values => cases h
  | cons other names ih =>
    cases values with
    | nil => cases h
    | cons value values =>
      rw [List.mem_cons, not_or] at hname
      rw [ih hname.2 h, Env.set_of_ne _ _ hname.1]

/-- What keeps the value of a variable keeps it also as a block. -/
theorem Comp.Ensures.within {run : Env Value → Comp State (Env Value)}
    (hrun : Comp.Ensures (fun env' => env' name = env name) (run env)) :
    Comp.Ensures (fun env' => env' name = env name) (env.within run) := by
  refine hrun.bind fun inner hinner => .pure ?_
  rw [Env.leave, hinner]
  cases env name <;> rfl

variable [DecidableEq Value]

mutual

/-- A statement keeps the values of variables that it neither declares nor mentions. -/
theorem Stmt.exec_keeps : ∀ {stmt : Stmt}, name ∉ stmt.gather Stmt.introduced →
    name ∉ stmt.gather Stmt.ownMentions → ∀ env : Env Value,
    Comp.Ensures (fun env' => env' name = env name) (stmt.exec machine (.ofCalls call) env)
  | .expr value, _, _, env => by
    simp only [Stmt.exec]
    exact (Comp.Ensures.trivial _).bind fun _ _ => .pure rfl
  | .assign targets value, _, hmentions, env => by
    simp only [Stmt.exec]
    rw [Stmt.gather_assign, Stmt.ownMentions, List.mem_append, not_or] at hmentions
    refine (Comp.Ensures.trivial _).bind fun values _ => .ofOption fun env' henv' => ?_
    rw [Env.assign?] at henv'
    split at henv'
    · exact Env.set?_of_not_mem hmentions.1 henv'
    · cases henv'
  | .declare vars none, hnew, _, env => by
    simp only [Stmt.exec]
    rw [Stmt.gather_declare] at hnew
    exact .ofOption fun env' henv' => Env.set?_of_not_mem hnew henv'
  | .declare vars (some value), hnew, _, env => by
    simp only [Stmt.exec]
    rw [Stmt.gather_declare] at hnew
    refine (Comp.Ensures.trivial _).bind fun values _ => .ofOption fun env' henv' => ?_
    exact Env.set?_of_not_mem hnew henv'
  | .define function, _, _, env => .pure rfl
  | .branch condition body, hnew, hmentions, env => by
    simp only [Stmt.exec]
    rw [Stmt.gather_branch, List.mem_append, not_or] at hnew hmentions
    refine (Comp.Ensures.trivial _).bind fun value _ => ?_
    split
    · exact .within (Block.exec_keeps hnew.2 hmentions.2 env)
    · exact .pure rfl
  | .switch scrutinee cases, hnew, hmentions, env => by
    simp only [Stmt.exec]
    rw [Stmt.gather_switch, List.mem_append, not_or] at hnew hmentions
    refine (Comp.Ensures.trivial _).bind fun value _ => ?_
    exact Case.exec_keeps hnew.2 hmentions.2 value env (.pure rfl)
  | .loop init condition step body, hnew, hmentions, env => by
    simp only [Stmt.exec]
    simp only [Stmt.gather_loop, List.mem_append, not_or] at hnew hmentions
    obtain ⟨-, ⟨hinit, hstep⟩, hbody⟩ := hnew
    obtain ⟨-, ⟨hinit', hstep'⟩, hbody'⟩ := hmentions
    refine .within ((Block.exec_keeps hinit hinit' env).bind fun env' henv' => ?_)
    refine .loop (fun inner hinner => ?_) henv'
    refine (Comp.Ensures.trivial _).bind fun value _ => ?_
    split
    · refine (Comp.Ensures.within (Block.exec_keeps hbody hbody' inner)).bind fun inner' h => ?_
      refine (Comp.Ensures.within (Block.exec_keeps hstep hstep' inner')).bind fun last h' => ?_
      exact .pure (h'.trans (h.trans hinner))
    · exact .pure hinner
  | .block body, hnew, hmentions, env => by
    simp only [Stmt.exec]
    rw [Stmt.gather_block, List.mem_append, not_or] at hnew hmentions
    exact .within (Block.exec_keeps hnew.2 hmentions.2 env)

theorem Case.exec_keeps : ∀ {cases : List Case}, name ∉ Case.gather Stmt.introduced cases →
    name ∉ Case.gather Stmt.ownMentions cases → ∀ (value : Value) (env : Env Value)
    {otherwise : Comp State (Env Value)},
    Comp.Ensures (fun env' => env' name = env name) otherwise →
    Comp.Ensures (fun env' => env' name = env name)
      (Case.exec machine (.ofCalls call) cases value otherwise env)
  | [], _, _, value, env, _, hotherwise => hotherwise
  | ⟨none, body⟩ :: cases, hnew, hmentions, value, env, _, _ => by
    simp only [Case.exec]
    rw [Case.gather_cons, List.mem_append, not_or] at hnew hmentions
    exact Case.exec_keeps hnew.2 hmentions.2 value env
      (.within (Block.exec_keeps hnew.1 hmentions.1 env))
  | ⟨some literal, body⟩ :: cases, hnew, hmentions, value, env, _, hotherwise => by
    simp only [Case.exec]
    rw [Case.gather_cons, List.mem_append, not_or] at hnew hmentions
    split
    · exact .within (Block.exec_keeps hnew.1 hmentions.1 env)
    · exact Case.exec_keeps hnew.2 hmentions.2 value env hotherwise

theorem Block.exec_keeps : ∀ {block : Block}, name ∉ Block.gather Stmt.introduced block →
    name ∉ Block.gather Stmt.ownMentions block → ∀ env : Env Value,
    Comp.Ensures (fun env' => env' name = env name) (Block.exec machine (.ofCalls call) block env)
  | [], _, _, env => .pure rfl
  | stmt :: stmts, hnew, hmentions, env => by
    simp only [Block.exec]
    rw [Block.gather_cons, List.mem_append, not_or] at hnew hmentions
    refine (Stmt.exec_keeps hnew.1 hmentions.1 env).bind fun env' henv' => ?_
    rw [← henv']
    exact Block.exec_keeps hnew.2 hmentions.2 env'

end

/-! ## Renamed blocks -/

variable {taken' : List String}

mutual

/-- A renamed statement does what the statement does, if the names that it declares are new. -/
theorem Stmt.Renamed.exec {stmt stmt' : Stmt} {vars vars' : List String} {f g : String → String}
    {env env' : Env Value} :
    Stmt.Renamed f stmt stmt' g → stmt.Scoped taken vars → Embeds f vars vars' →
      Declarable taken' vars' (stmt'.gather Stmt.introduced) → env.Agree f vars env' →
      Comp.Rel (Env.Agree g (stmt.declares ++ vars)) (stmt.exec machine (.ofCalls call) env)
        (stmt'.exec machine (.ofCalls call) env')
  | .expr f value, hscoped, hf, hnew, h => by
    rw [Stmt.Scoped] at hscoped
    simp only [Stmt.exec]
    rw [Expr.eval_rename h hscoped]
    exact (Comp.rel_eq.mpr rfl).bind fun _ _ _ => .pure h
  | .assign f targets value, hscoped, hf, hnew, h => by
    rw [Stmt.Scoped] at hscoped
    simp only [Stmt.exec]
    rw [Expr.eval_rename h hscoped.2]
    refine (Comp.rel_eq.mpr rfl).bind ?_
    rintro values - rfl
    exact .ofOption (h.assign? hf hscoped.1 values)
  | @Stmt.Renamed.declare _ vars vars' value htypes, hscoped, hf, hnew, h => by
    rw [Stmt.Scoped] at hscoped
    rw [Stmt.gather_declare, Stmt.introduced] at hnew
    have hlen : vars'.length = vars.length := by simpa using congrArg List.length htypes
    have hset := h.set? hf hscoped.1.1 (by simp [hlen]) hnew
    cases value with
    | none =>
      simp only [Option.map_none, Stmt.exec]
      have hzeros : (vars'.map fun _ => machine.zero) = vars.map fun _ => machine.zero := by
        rw [List.map_const', List.map_const', hlen]
      rw [hzeros]
      exact .ofOption (hset _)
    | some value =>
      simp only [Option.map_some, Stmt.exec]
      rw [Expr.eval_rename h hscoped.2]
      refine (Comp.rel_eq.mpr rfl).bind ?_
      rintro values - rfl
      exact .ofOption (hset values)
  | .branch condition hbody, hscoped, hf, hnew, h => by
    rw [Stmt.Scoped] at hscoped
    rw [Stmt.gather_branch] at hnew
    simp only [Stmt.exec]
    rw [Expr.evalOne_rename h hscoped.1]
    refine (Comp.rel_eq.mpr rfl).bind ?_
    rintro value - rfl
    split
    · exact .within h (hbody.exec hscoped.2 hf hnew.right h)
        fun _ => hbody.eq_of_mem hscoped.2
    · exact .pure h
  | .switch scrutinee hcases, hscoped, hf, hnew, h => by
    rw [Stmt.Scoped] at hscoped
    rw [Stmt.gather_switch] at hnew
    simp only [Stmt.exec]
    rw [Expr.evalOne_rename h hscoped.1]
    refine (Comp.rel_eq.mpr rfl).bind ?_
    rintro value - rfl
    exact hcases.exec hscoped.2 hf hnew.right h value (.pure h)
  | @Stmt.Renamed.loop f g _ _ condition init init' _ _ _ _ hinit hstep hbody, hscoped, hf, hnew,
      h => by
    rw [Stmt.Scoped] at hscoped
    rw [Stmt.gather_loop] at hnew
    have hnew' := hnew.right
    have hsub := Block.declares_subset_declared
    obtain ⟨-, hg⟩ := hinit.scoped hscoped.1 hf hnew'.left.left
    simp only [Stmt.exec]
    refine .within h (?_ : Comp.Rel (Env.Agree g (Block.declares init ++ vars)) _ _)
      fun _ => hinit.eq_of_mem hscoped.1
    refine (hinit.exec hscoped.1 hf hnew'.left.left h).bind fun inner inner' hinner => ?_
    refine Comp.Rel.loop (fun inner inner' => ?_) hinner
    refine Comp.Rel.loopStep (fun inner inner' hinner => ?_) (fun inner inner' hinner => ?_)
      fun inner inner' hinner => ?_
    · exact (Expr.evalOne_rename hinner hscoped.2.1).symm
    · have hbodyNew := hnew'.later (List.Subset.trans (hsub init') (List.subset_append_left ..))
      exact .within hinner (hbody.exec hscoped.2.2.2 hg hbodyNew hinner)
        fun _ => hbody.eq_of_mem hscoped.2.2.2
    · have hstepNew := hnew'.left.later (hsub init')
      exact .within hinner (hstep.exec hscoped.2.2.1 hg hstepNew hinner)
        fun _ => hstep.eq_of_mem hscoped.2.2.1
  | .block hbody, hscoped, hf, hnew, h => by
    rw [Stmt.Scoped] at hscoped
    rw [Stmt.gather_block] at hnew
    simp only [Stmt.exec]
    exact .within h (hbody.exec hscoped hf hnew.right h)
      fun _ => hbody.eq_of_mem hscoped

theorem Case.Renamed.exec {cases cases' : List Case} {vars vars' : List String}
    {f : String → String} {env env' : Env Value} :
    Case.Renamed f cases cases' → Case.Scoped taken vars cases → Embeds f vars vars' →
      Declarable taken' vars' (Case.gather Stmt.introduced cases') → env.Agree f vars env' →
      ∀ (value : Value) {otherwise otherwise' : Comp State (Env Value)},
      Comp.Rel (Env.Agree f vars) otherwise otherwise' →
      Comp.Rel (Env.Agree f vars) (Case.exec machine (.ofCalls call) cases value otherwise env)
        (Case.exec machine (.ofCalls call) cases' value otherwise' env')
  | .nil f, _, _, _, _, _, _, _, hotherwise => hotherwise
  | .cons none hbody hcases, hscoped, hf, hnew, h, value, _, _, hotherwise => by
    rw [Case.Scoped] at hscoped
    rw [Case.gather_cons] at hnew
    simp only [Case.exec]
    refine hcases.exec hscoped.2 hf hnew.right h value ?_
    exact .within h (hbody.exec hscoped.1 hf hnew.left h)
      fun _ => hbody.eq_of_mem hscoped.1
  | .cons (some literal) hbody hcases, hscoped, hf, hnew, h, value, _, _, hotherwise => by
    rw [Case.Scoped] at hscoped
    rw [Case.gather_cons] at hnew
    simp only [Case.exec]
    split
    · exact .within h (hbody.exec hscoped.1 hf hnew.left h)
        fun _ => hbody.eq_of_mem hscoped.1
    · exact hcases.exec hscoped.2 hf hnew.right h value hotherwise

theorem Block.Renamed.exec {block block' : Block} {vars vars' : List String}
    {f g : String → String} {env env' : Env Value} :
    Block.Renamed f block block' g → Block.Scoped taken vars block → Embeds f vars vars' →
      Declarable taken' vars' (Block.gather Stmt.introduced block') → env.Agree f vars env' →
      Comp.Rel (Env.Agree g (Block.declares block ++ vars))
        (Block.exec machine (.ofCalls call) block env)
        (Block.exec machine (.ofCalls call) block' env')
  | .nil f, _, _, _, h => .pure h
  | @Block.Renamed.cons _ _ _ stmt stmt' _ _ hstmt hstmts, hscoped, hf, hnew, h => by
    rw [Block.scoped_cons] at hscoped
    rw [Block.gather_cons] at hnew
    have hsub := stmt'.declares_sublist_gather.subset
    have hdeclares : Declarable taken' _ stmt'.declares :=
      ⟨hnew.left.1.sublist stmt'.declares_sublist_gather,
        fun name hname => hnew.left.2 name (hsub hname)⟩
    have hg := hstmt.embeds hscoped.1 hf hdeclares
    simp only [Block.exec]
    refine (hstmt.exec hscoped.1 hf hnew.left h).bind fun inner inner' hinner => ?_
    refine (hstmts.exec hscoped.2 hg (hnew.later hsub) hinner).mono fun last last' hlast => ?_
    refine hlast.mono fun name hname => ?_
    simp only [Block.declares_cons, List.mem_append] at hname ⊢
    tauto

end

end Execution

end YulInline
