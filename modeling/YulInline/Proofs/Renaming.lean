import YulInline.Proofs.Scope
import Mathlib.Data.List.Nodup
import Mathlib.Logic.Function.Basic

/-!
# Renamed blocks

`Block.Renamed f block copy g` says that `copy` is `block` with its variables renamed: those in
scope at the start as `f` says, and those that are declared on the way to the names that stand in
`copy`. A declaration binds its names from there on, and at the end of a block the names that were
bound in it are forgotten again, so that the same name may be bound twice, in blocks beside each
other. `g` is how the variables are called that are in scope at the end.
-/

namespace YulInline

/-! ## Renamed expressions -/

@[simp] theorem Expr.renameAll_eq_map (f : String → String) (args : List Expr) :
    Expr.renameAll f args = args.map (Expr.rename f) := by
  induction args with
  | nil => rfl
  | cons arg args ih => rw [Expr.renameAll, ih, List.map_cons]

mutual

theorem Expr.vars_rename (f : String → String) : ∀ e : Expr, (e.rename f).vars = e.vars.map f
  | .literal value => by simp [Expr.rename, Expr.vars]
  | .ident name => by simp [Expr.rename, Expr.vars]
  | .instr op args => by
    rw [Expr.rename, Expr.renameAll_eq_map, Expr.vars, Expr.vars]
    exact Expr.varsOfArgs_rename f args
  | .call callee args => by
    rw [Expr.rename, Expr.renameAll_eq_map, Expr.vars, Expr.vars]
    exact Expr.varsOfArgs_rename f args

theorem Expr.varsOfArgs_rename (f : String → String) :
    ∀ args : List Expr, Expr.varsOfArgs (args.map (Expr.rename f)) = (Expr.varsOfArgs args).map f
  | [] => rfl
  | arg :: args => by
    rw [List.map_cons, Expr.varsOfArgs, Expr.varsOfArgs, List.map_append, Expr.vars_rename f arg,
      Expr.varsOfArgs_rename f args]

end

theorem Expr.varsOfValue_rename (f : String → String) (value : Option Expr) :
    Expr.varsOfValue (value.map (Expr.rename f)) = (Expr.varsOfValue value).map f := by
  cases value with
  | none => rfl
  | some value => exact Expr.vars_rename f value

mutual

theorem Expr.calls_rename (f : String → String) : ∀ e : Expr, (e.rename f).calls = e.calls
  | .literal value => by simp [Expr.rename, Expr.calls]
  | .ident name => by simp [Expr.rename, Expr.calls]
  | .instr op args => by
    rw [Expr.rename, Expr.renameAll_eq_map, Expr.calls, Expr.calls]
    exact Expr.callsOfArgs_rename f args
  | .call callee args => by
    rw [Expr.rename, Expr.renameAll_eq_map, Expr.calls, Expr.calls, List.length_map]
    exact congrArg _ (Expr.callsOfArgs_rename f args)

theorem Expr.callsOfArgs_rename (f : String → String) :
    ∀ args : List Expr, Expr.callsOfArgs (args.map (Expr.rename f)) = Expr.callsOfArgs args
  | [] => rfl
  | arg :: args => by
    rw [List.map_cons, Expr.callsOfArgs, Expr.callsOfArgs, Expr.calls_rename f arg,
      Expr.callsOfArgs_rename f args]

end

theorem Expr.callsOfValue_rename (f : String → String) (value : Option Expr) :
    Expr.callsOfValue (value.map (Expr.rename f)) = Expr.callsOfValue value := by
  cases value with
  | none => rfl
  | some value => exact Expr.calls_rename f value

mutual

/-- Only the variables in it matter for how an expression is renamed. -/
theorem Expr.rename_congr {f g : String → String} :
    ∀ e : Expr, (∀ name ∈ e.vars, f name = g name) → e.rename f = e.rename g
  | .literal value, _ => rfl
  | .ident name, h => by
    rw [Expr.rename, Expr.rename, h name (by simp [Expr.vars])]
  | .instr op args, h => by
    rw [Expr.vars] at h
    rw [Expr.rename, Expr.rename, Expr.renameAll_eq_map, Expr.renameAll_eq_map,
      Expr.map_rename_congr args h]
  | .call callee args, h => by
    rw [Expr.vars] at h
    rw [Expr.rename, Expr.rename, Expr.renameAll_eq_map, Expr.renameAll_eq_map,
      Expr.map_rename_congr args h]

theorem Expr.map_rename_congr {f g : String → String} :
    ∀ args : List Expr, (∀ name ∈ Expr.varsOfArgs args, f name = g name) →
      args.map (Expr.rename f) = args.map (Expr.rename g)
  | [], _ => rfl
  | arg :: args, h => by
    rw [Expr.varsOfArgs] at h
    rw [List.map_cons, List.map_cons,
      Expr.rename_congr arg fun name hname => h name (List.mem_append_left _ hname),
      Expr.map_rename_congr args fun name hname => h name (List.mem_append_right _ hname)]

end

theorem Expr.rename_value_congr {f g : String → String} {value : Option Expr}
    (h : ∀ name ∈ Expr.varsOfValue value, f name = g name) :
    value.map (Expr.rename f) = value.map (Expr.rename g) := by
  cases value with
  | none => rfl
  | some value => exact congrArg some (Expr.rename_congr value h)

/-! ## Binding names -/

/-- The renaming that maps names to others and is `f` elsewhere. -/
def rebind (f : String → String) : List String → List String → String → String
  | name :: names, new :: news => rebind (Function.update f name new) names news
  | _, _ => f

theorem rebind_of_not_mem {f : String → String} {names news : List String} {name : String}
    (h : name ∉ names) : rebind f names news name = f name := by
  induction names generalizing f news with
  | nil => simp [rebind]
  | cons head names ih =>
    rw [List.mem_cons, not_or] at h
    cases news with
    | nil => rfl
    | cons new news => rw [rebind, ih h.2, Function.update_of_ne h.1]

theorem map_rebind {f : String → String} {names news : List String} (hnodup : names.Nodup)
    (hlen : names.length = news.length) : names.map (rebind f names news) = news := by
  induction names generalizing f news with
  | nil => exact (List.eq_nil_of_length_eq_zero hlen.symm).symm
  | cons name names ih =>
    obtain ⟨hname, hnodup⟩ := List.nodup_cons.mp hnodup
    cases news with
    | nil => simp at hlen
    | cons new news =>
      have hlen' : names.length = news.length := by simpa using hlen
      rw [List.map_cons, rebind, rebind_of_not_mem hname, Function.update_self, ih hnodup hlen']

/-- Where two renamings agree, they agree after binding the same names, and on those too. -/
theorem rebind_congr {f g : String → String} {vars names news : List String}
    (hlen : names.length = news.length) (hfg : ∀ name ∈ vars, f name = g name) {name : String}
    (hname : name ∈ names ++ vars) : rebind f names news name = rebind g names news name := by
  induction names generalizing f g news vars with
  | nil => simpa [rebind] using hfg name hname
  | cons head names ih =>
    cases news with
    | nil => simp at hlen
    | cons new news =>
      have hfg' : ∀ name ∈ head :: vars, Function.update f head new name =
          Function.update g head new name := by
        intro other hother
        by_cases heq : other = head
        · rw [heq, Function.update_self, Function.update_self]
        · rw [Function.update_of_ne heq, Function.update_of_ne heq]
          exact hfg other ((List.mem_cons.mp hother).resolve_left heq)
      refine ih (by simpa using hlen) hfg' ?_
      simp only [List.cons_append, List.mem_cons, List.mem_append] at hname ⊢
      tauto

/-- `f` maps the variables `vars` to different variables in `vars'`. -/
structure Embeds (f : String → String) (vars vars' : List String) : Prop where
  mem : ∀ name ∈ vars, f name ∈ vars'
  inj : ∀ name ∈ vars, ∀ other ∈ vars, f name = f other → name = other

/-- Binding new names to new ones keeps different variables different. -/
theorem Embeds.rebind {f : String → String} {vars vars' names news : List String}
    (h : Embeds f vars vars') (hnames : names.Nodup) (hnews : news.Nodup)
    (hlen : names.length = news.length) (hfresh : ∀ new ∈ news, new ∉ vars') :
    Embeds (rebind f names news) (names ++ vars) (news ++ vars') := by
  have hmap := map_rebind (f := f) hnames hlen
  have hnew : ∀ name ∈ names, YulInline.rebind f names news name ∈ news := by
    intro name hname
    have hmem := List.mem_map_of_mem (f := YulInline.rebind f names news) hname
    rwa [hmap] at hmem
  have hold : ∀ name ∈ names ++ vars, name ∉ names →
      name ∈ vars ∧ YulInline.rebind f names news name = f name := by
    intro name hname hnot
    exact ⟨(List.mem_append.mp hname).resolve_left hnot, rebind_of_not_mem hnot⟩
  refine ⟨fun name hname => ?_, fun name hname other hother heq => ?_⟩
  · rw [List.mem_append]
    by_cases hin : name ∈ names
    · exact Or.inl (hnew name hin)
    · obtain ⟨hvars, hf⟩ := hold name hname hin
      exact Or.inr (hf ▸ h.mem name hvars)
  · by_cases hin : name ∈ names <;> by_cases hin' : other ∈ names
    · exact List.inj_on_of_nodup_map (by rwa [hmap]) hin hin' heq
    · obtain ⟨hvars, hf⟩ := hold other hother hin'
      exact absurd (h.mem other hvars) (hf ▸ heq ▸ hfresh _ (hnew name hin))
    · obtain ⟨hvars, hf⟩ := hold name hname hin
      exact absurd (h.mem name hvars) (hf ▸ heq ▸ hfresh _ (hnew other hin'))
    · obtain ⟨hvars, hf⟩ := hold name hname hin
      obtain ⟨hvars', hf'⟩ := hold other hother hin'
      exact h.inj name hvars other hvars' (by rw [← hf, ← hf', heq])

/-! ## Renamed statements -/

mutual

/-- A statement with its variables renamed: `f` before it, `g` after it. -/
inductive Stmt.Renamed : (String → String) → Stmt → Stmt → (String → String) → Prop where
  | expr (f : String → String) (value : Expr) :
    Stmt.Renamed f (.expr value) (.expr (value.rename f)) f
  | assign (f : String → String) (targets : List String) (value : Expr) :
    Stmt.Renamed f (.assign targets value) (.assign (targets.map f) (value.rename f)) f
  | declare (f : String → String) {vars vars' : List TypedName} (value : Option Expr)
    (htypes : vars'.map (·.type) = vars.map (·.type)) :
    Stmt.Renamed f (.declare vars value) (.declare vars' (value.map (Expr.rename f)))
      (rebind f (vars.map (·.name)) (vars'.map (·.name)))
  | branch {f g : String → String} (condition : Expr) {body body' : Block}
    (hbody : Block.Renamed f body body' g) :
    Stmt.Renamed f (.branch condition body) (.branch (condition.rename f) body') f
  | switch {f : String → String} (scrutinee : Expr) {cases cases' : List Case}
    (hcases : Case.Renamed f cases cases') :
    Stmt.Renamed f (.switch scrutinee cases) (.switch (scrutinee.rename f) cases') f
  | loop {f g h k : String → String} (condition : Expr) {init init' step step' body body' : Block}
    (hinit : Block.Renamed f init init' g) (hstep : Block.Renamed g step step' h)
    (hbody : Block.Renamed g body body' k) :
    Stmt.Renamed f (.loop init condition step body) (.loop init' (condition.rename g) step' body') f
  | block {f g : String → String} {body body' : Block} (hbody : Block.Renamed f body body' g) :
    Stmt.Renamed f (.block body) (.block body') f

/-- The blocks of a list of cases with their variables renamed. -/
inductive Case.Renamed : (String → String) → List Case → List Case → Prop where
  | nil (f : String → String) : Case.Renamed f [] []
  | cons {f g : String → String} (value : Option Literal) {body body' : Block}
    {cases cases' : List Case} (hbody : Block.Renamed f body body' g)
    (hcases : Case.Renamed f cases cases') :
    Case.Renamed f (⟨value, body⟩ :: cases) (⟨value, body'⟩ :: cases')

/-- A block with its variables renamed. -/
inductive Block.Renamed : (String → String) → List Stmt → List Stmt → (String → String) → Prop where
  | nil (f : String → String) : Block.Renamed f [] [] f
  | cons {f g h : String → String} {stmt stmt' : Stmt} {stmts stmts' : List Stmt}
    (hstmt : Stmt.Renamed f stmt stmt' g) (hstmts : Block.Renamed g stmts stmts' h) :
    Block.Renamed f (stmt :: stmts) (stmt' :: stmts') h

end

/-! ## Scope -/

theorem Declarable.left {taken vars front back : List String}
    (h : Declarable taken vars (front ++ back)) : Declarable taken vars front :=
  ⟨(List.nodup_append'.mp h.1).1, fun name hname => h.2 name (List.mem_append_left _ hname)⟩

theorem Declarable.right {taken vars front back : List String}
    (h : Declarable taken vars (front ++ back)) : Declarable taken vars back :=
  ⟨(List.nodup_append'.mp h.1).2.1, fun name hname => h.2 name (List.mem_append_right _ hname)⟩

/-- What is declared later is new also where what is declared first has come into scope. -/
theorem Declarable.later {taken vars front back : List String}
    (h : Declarable taken vars (front ++ back)) {names : List String} (hsub : names ⊆ front) :
    Declarable taken (names ++ vars) back :=
  h.right.weaken fun _ hname hmem => (List.nodup_append'.mp h.1).2.2 (hsub hmem) hname

/-- What is declared first is new also where what is declared later has come into scope. -/
theorem Declarable.earlier {taken vars front back : List String}
    (h : Declarable taken vars (front ++ back)) {names : List String} (hsub : names ⊆ back) :
    Declarable taken (names ++ vars) front :=
  h.left.weaken fun _ hname hmem => (List.nodup_append'.mp h.1).2.2 hname (hsub hmem)

theorem Embeds.mono {f : String → String} {vars vars' fewer more : List String}
    (h : Embeds f vars vars') (hfewer : fewer ⊆ vars) (hmore : vars' ⊆ more) :
    Embeds f fewer more :=
  ⟨fun name hname => hmore (h.mem name (hfewer hname)),
    fun name hname other hother => h.inj name (hfewer hname) other (hfewer hother)⟩

theorem Embeds.map_subset {f : String → String} {vars vars' names : List String}
    (h : Embeds f vars vars') (hnames : names ⊆ vars) : names.map f ⊆ vars' := by
  intro name hname
  obtain ⟨old, hold, rfl⟩ := List.mem_map.mp hname
  exact h.mem old (hnames hold)

variable {taken taken' : List String}

/-- Behind a statement, too, different variables in scope have different names. -/
theorem Stmt.Renamed.embeds {f g : String → String} {stmt stmt' : Stmt} {vars vars' : List String}
    (h : Stmt.Renamed f stmt stmt' g) (hscoped : stmt.Scoped taken vars) (hf : Embeds f vars vars')
    (hnew : Declarable taken' vars' stmt'.declares) :
    Embeds g (stmt.declares ++ vars) (stmt'.declares ++ vars') := by
  cases h with
  | declare _ value htypes =>
    rw [Stmt.Scoped] at hscoped
    have hlen := congrArg List.length htypes
    simp only [List.length_map] at hlen
    exact hf.rebind hscoped.1.1 hnew.1 (by simp [hlen])
      fun name hname => (hnew.2 name hname).1
  | _ => exact hf

/-- A statement does not change how the variables that are in scope already are called. -/
theorem Stmt.Renamed.eq_of_mem {f g : String → String} {stmt stmt' : Stmt} {vars : List String}
    (h : Stmt.Renamed f stmt stmt' g) (hscoped : stmt.Scoped taken vars) {name : String}
    (hname : name ∈ vars) : g name = f name := by
  cases h with
  | declare _ value htypes =>
    rw [Stmt.Scoped] at hscoped
    exact rebind_of_not_mem fun hmem => (hscoped.1.2 name hmem).1 hname
  | _ => rfl

/-- Nor does a block. -/
theorem Block.Renamed.eq_of_mem {f g : String → String} {block block' : Block}
    {vars : List String} : Block.Renamed f block block' g → Block.Scoped taken vars block →
      ∀ {name : String}, name ∈ vars → g name = f name
  | .nil f, _, _, _ => rfl
  | .cons hstmt hstmts, hscoped, _, hname => by
    rw [Block.scoped_cons] at hscoped
    rw [hstmts.eq_of_mem hscoped.2 (List.mem_append_right _ hname),
      hstmt.eq_of_mem hscoped.1 hname]

mutual

/-- If the names that a renamed statement declares are new, it is scoped where the new names of the
variables are in scope. -/
theorem Stmt.Renamed.scoped {f g : String → String} {stmt stmt' : Stmt} {vars vars' : List String} :
    Stmt.Renamed f stmt stmt' g → stmt.Scoped taken vars → Embeds f vars vars' →
      Declarable taken' vars' (stmt'.gather Stmt.introduced) → stmt'.Scoped taken' vars'
  | .expr f value, hscoped, hf, hnew => by
    rw [Stmt.Scoped] at hscoped ⊢
    rw [Expr.vars_rename]
    exact hf.map_subset hscoped
  | .assign f targets value, hscoped, hf, hnew => by
    rw [Stmt.Scoped] at hscoped ⊢
    rw [Expr.vars_rename]
    exact ⟨hf.map_subset hscoped.1, hf.map_subset hscoped.2⟩
  | .declare f value htypes, hscoped, hf, hnew => by
    rw [Stmt.Scoped] at hscoped ⊢
    rw [Expr.varsOfValue_rename]
    exact ⟨by simpa [Stmt.introduced] using hnew, hf.map_subset hscoped.2⟩
  | .branch condition hbody, hscoped, hf, hnew => by
    rw [Stmt.Scoped] at hscoped ⊢
    rw [Stmt.gather_branch] at hnew
    rw [Expr.vars_rename]
    exact ⟨hf.map_subset hscoped.1, (hbody.scoped hscoped.2 hf hnew.right).1⟩
  | .switch scrutinee hcases, hscoped, hf, hnew => by
    rw [Stmt.Scoped] at hscoped ⊢
    rw [Stmt.gather_switch] at hnew
    rw [Expr.vars_rename]
    exact ⟨hf.map_subset hscoped.1, hcases.scoped hscoped.2 hf hnew.right⟩
  | .loop condition hinit hstep hbody, hscoped, hf, hnew => by
    rw [Stmt.Scoped] at hscoped ⊢
    rw [Stmt.gather_loop] at hnew
    have hnew' := hnew.right
    obtain ⟨hinit', hg⟩ := hinit.scoped hscoped.1 hf hnew'.left.left
    have hsub := Block.declares_subset_declared
    rw [Expr.vars_rename]
    refine ⟨hinit', hg.map_subset hscoped.2.1, ?_, ?_⟩
    · exact (hstep.scoped hscoped.2.2.1 hg (hnew'.left.later (hsub _))).1
    · refine (hbody.scoped hscoped.2.2.2 hg (hnew'.later ?_)).1
      exact List.Subset.trans (hsub _) (List.subset_append_left _ _)
  | .block hbody, hscoped, hf, hnew => by
    rw [Stmt.Scoped] at hscoped ⊢
    rw [Stmt.gather_block] at hnew
    exact (hbody.scoped hscoped hf hnew.right).1

theorem Case.Renamed.scoped {f : String → String} {cases cases' : List Case}
    {vars vars' : List String} :
    Case.Renamed f cases cases' → Case.Scoped taken vars cases → Embeds f vars vars' →
      Declarable taken' vars' (Case.gather Stmt.introduced cases') →
      Case.Scoped taken' vars' cases'
  | .nil f, hscoped, hf, hnew => by simp [Case.Scoped]
  | .cons value hbody hcases, hscoped, hf, hnew => by
    rw [Case.Scoped] at hscoped ⊢
    rw [Case.gather_cons] at hnew
    exact ⟨(hbody.scoped hscoped.1 hf hnew.left).1, hcases.scoped hscoped.2 hf hnew.right⟩

/-- The same for a block, at whose end different variables in scope still have different names. -/
theorem Block.Renamed.scoped {f g : String → String} {block block' : Block}
    {vars vars' : List String} :
    Block.Renamed f block block' g → Block.Scoped taken vars block → Embeds f vars vars' →
      Declarable taken' vars' (Block.gather Stmt.introduced block') →
      Block.Scoped taken' vars' block' ∧
        Embeds g (Block.declares block ++ vars) (Block.declares block' ++ vars')
  | .nil f, hscoped, hf, hnew => ⟨Block.scoped_nil, by simpa using hf⟩
  | @Block.Renamed.cons _ _ _ stmt stmt' _ _ hstmt hstmts, hscoped, hf, hnew => by
    rw [Block.scoped_cons] at hscoped ⊢
    rw [Block.gather_cons] at hnew
    have hsub := stmt'.declares_sublist_gather.subset
    have hdeclares : Declarable taken' vars' stmt'.declares :=
      ⟨hnew.left.1.sublist stmt'.declares_sublist_gather,
        fun name hname => hnew.left.2 name (hsub hname)⟩
    have hg := hstmt.embeds hscoped.1 hf hdeclares
    obtain ⟨hscoped', hh⟩ := hstmts.scoped hscoped.2 hg (hnew.later hsub)
    refine ⟨⟨hstmt.scoped hscoped.1 hf hnew.left, hscoped'⟩, hh.mono ?_ ?_⟩
    · intro name hname
      simp only [Block.declares_cons, List.mem_append] at hname ⊢
      tauto
    · intro name hname
      simp only [Block.declares_cons, List.mem_append] at hname ⊢
      tauto

end

end YulInline
