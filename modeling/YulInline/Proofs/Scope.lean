import YulInline.Proofs.Tree
import Mathlib.Data.List.Basic
import Mathlib.Tactic.Tauto

/-!
# Scope

A variable is in scope from its declaration to the end of the block that declares it, in the blocks
inside that block too; what the first part of a loop declares is in scope in the whole loop, and the
parameters and return variables of a function in its body. `Block.Scoped taken vars` says that,
where the variables `vars` are in scope, a block refers and assigns to variables in scope only and
declares none that is in scope already. The names `taken` are those that no variable may have; they
are the names of the functions in a language where functions and variables share their names, and
none in one where they do not.
-/

namespace YulInline

/-- The variables of a function that are in scope in its body from the start. -/
def FunctionDef.interface (function : FunctionDef) : List String :=
  function.params.map (·.name) ++ function.returns.map (·.name)

/-- Names can be declared together where `vars` are in scope: they are new and pairwise different.
-/
def Declarable (taken vars names : List String) : Prop :=
  names.Nodup ∧ ∀ name ∈ names, name ∉ vars ∧ name ∉ taken

section Scoped

variable (taken : List String)

mutual

/-- Where `vars` are in scope, a statement uses variables in scope only, and declares new ones
only. -/
def Stmt.Scoped : List String → Stmt → Prop
  | vars, .expr value => value.vars ⊆ vars
  | vars, .assign targets value => targets ⊆ vars ∧ value.vars ⊆ vars
  | vars, .declare names value =>
    Declarable taken vars (names.map (·.name)) ∧ Expr.varsOfValue value ⊆ vars
  | _, .define ⟨_, params, returns, body⟩ =>
    Declarable taken [] (params.map (·.name) ++ returns.map (·.name)) ∧
      Block.Scoped (params.map (·.name) ++ returns.map (·.name)) body
  | vars, .branch condition body => condition.vars ⊆ vars ∧ Block.Scoped vars body
  | vars, .switch scrutinee cases => scrutinee.vars ⊆ vars ∧ Case.Scoped vars cases
  | vars, .loop init condition step body =>
    Block.Scoped vars init ∧ condition.vars ⊆ Block.declares init ++ vars ∧
      Block.Scoped (Block.declares init ++ vars) step ∧
      Block.Scoped (Block.declares init ++ vars) body
  | vars, .block body => Block.Scoped vars body

/-- The same for the blocks of a list of cases. -/
def Case.Scoped : List String → List Case → Prop
  | _, [] => True
  | vars, ⟨_, body⟩ :: cases => Block.Scoped vars body ∧ Case.Scoped vars cases

/-- The same for a block, in which the declarations of a statement are in scope for what follows. -/
def Block.Scoped : List String → List Stmt → Prop
  | _, [] => True
  | vars, stmt :: stmts => stmt.Scoped vars ∧ Block.Scoped (stmt.declares ++ vars) stmts

end

end Scoped

/-- A function whose parameters and return variables are new names, and whose body is scoped. -/
def FunctionDef.Scoped (taken : List String) (function : FunctionDef) : Prop :=
  Declarable taken [] function.interface ∧ Block.Scoped taken function.interface function.body

variable {taken vars more : List String}

@[simp] theorem Stmt.scoped_define {function : FunctionDef} :
    (Stmt.define function).Scoped taken vars ↔ function.Scoped taken := by
  cases function
  rw [Stmt.Scoped]
  rfl

@[simp] theorem Block.scoped_nil : Block.Scoped taken vars [] := by
  simp [Block.Scoped]

@[simp] theorem Block.scoped_cons {stmt : Stmt} {stmts : Block} :
    Block.Scoped taken vars (stmt :: stmts) ↔
      stmt.Scoped taken vars ∧ Block.Scoped taken (stmt.declares ++ vars) stmts := by
  rw [Block.Scoped]

/-! ## More variables in scope -/

theorem Declarable.weaken {names : List String} (h : Declarable taken vars names)
    (hnew : ∀ name ∈ names, name ∉ more) : Declarable taken (more ++ vars) names := by
  refine ⟨h.1, fun name hname => ⟨?_, (h.2 name hname).2⟩⟩
  rw [List.mem_append, not_or]
  exact ⟨hnew name hname, (h.2 name hname).1⟩

mutual

/-- More variables may be in scope, unless the statement declares one of them. -/
theorem Stmt.Scoped.weaken : ∀ {stmt : Stmt} {vars vars' : List String},
    stmt.Scoped taken vars → vars ⊆ vars' →
      (∀ name ∈ vars', name ∈ vars ∨ name ∉ stmt.gather Stmt.introduced) → stmt.Scoped taken vars'
  | .expr value, vars, vars', h, hsub, hnew => by
    rw [Stmt.Scoped] at h ⊢
    exact List.Subset.trans h hsub
  | .assign targets value, vars, vars', h, hsub, hnew => by
    rw [Stmt.Scoped] at h ⊢
    exact ⟨List.Subset.trans h.1 hsub, List.Subset.trans h.2 hsub⟩
  | .declare names value, vars, vars', h, hsub, hnew => by
    rw [Stmt.Scoped] at h ⊢
    refine ⟨⟨h.1.1, fun name hname => ⟨fun hmem => ?_, (h.1.2 name hname).2⟩⟩,
      List.Subset.trans h.2 hsub⟩
    rcases hnew name hmem with hin | hout
    · exact (h.1.2 name hname).1 hin
    · exact hout (by simpa [Stmt.introduced] using hname)
  | .define function, vars, vars', h, hsub, hnew => by
    rw [Stmt.scoped_define] at h ⊢
    exact h
  | .branch condition body, vars, vars', h, hsub, hnew => by
    rw [Stmt.Scoped] at h ⊢
    refine ⟨List.Subset.trans h.1 hsub, h.2.weaken hsub fun name hmem => ?_⟩
    have := hnew name hmem
    simp only [Stmt.gather_branch, List.mem_append] at this
    tauto
  | .switch scrutinee cases, vars, vars', h, hsub, hnew => by
    rw [Stmt.Scoped] at h ⊢
    refine ⟨List.Subset.trans h.1 hsub, h.2.weaken hsub fun name hmem => ?_⟩
    have := hnew name hmem
    simp only [Stmt.gather_switch, List.mem_append] at this
    tauto
  | .loop init condition step body, vars, vars', h, hsub, hnew => by
    rw [Stmt.Scoped] at h ⊢
    have hsub' : Block.declares init ++ vars ⊆ Block.declares init ++ vars' := by
      intro name hmem
      rw [List.mem_append] at hmem ⊢
      exact hmem.imp_right fun hin => hsub hin
    have hnew' : ∀ name ∈ Block.declares init ++ vars', name ∈ Block.declares init ++ vars ∨
        name ∉ (Stmt.loop init condition step body).gather Stmt.introduced := by
      intro name hmem
      rcases List.mem_append.mp hmem with hin | hin
      · exact Or.inl (List.mem_append_left _ hin)
      · exact (hnew name hin).imp_left fun h => List.mem_append_right _ h
    simp only [Stmt.gather_loop, List.mem_append] at hnew hnew'
    refine ⟨h.1.weaken hsub fun name hmem => ?_, List.Subset.trans h.2.1 hsub',
      h.2.2.1.weaken hsub' fun name hmem => ?_, h.2.2.2.weaken hsub' fun name hmem => ?_⟩
    · have := hnew name hmem
      tauto
    · have := hnew' name (List.mem_append.mp hmem)
      rw [List.mem_append]
      tauto
    · have := hnew' name (List.mem_append.mp hmem)
      rw [List.mem_append]
      tauto
  | .block body, vars, vars', h, hsub, hnew => by
    rw [Stmt.Scoped] at h ⊢
    refine h.weaken hsub fun name hmem => ?_
    have := hnew name hmem
    simp only [Stmt.gather_block, List.mem_append] at this
    tauto

theorem Case.Scoped.weaken : ∀ {cases : List Case} {vars vars' : List String},
    Case.Scoped taken vars cases → vars ⊆ vars' →
      (∀ name ∈ vars', name ∈ vars ∨ name ∉ Case.gather Stmt.introduced cases) →
      Case.Scoped taken vars' cases
  | [], vars, vars', h, hsub, hnew => by
    simp [Case.Scoped]
  | ⟨value, body⟩ :: cases, vars, vars', h, hsub, hnew => by
    rw [Case.Scoped] at h ⊢
    simp only [Case.gather_cons, List.mem_append] at hnew
    refine ⟨h.1.weaken hsub fun name hmem => ?_, h.2.weaken hsub fun name hmem => ?_⟩
    · have := hnew name hmem
      tauto
    · have := hnew name hmem
      tauto

theorem Block.Scoped.weaken : ∀ {block : Block} {vars vars' : List String},
    Block.Scoped taken vars block → vars ⊆ vars' →
      (∀ name ∈ vars', name ∈ vars ∨ name ∉ Block.gather Stmt.introduced block) →
      Block.Scoped taken vars' block
  | [], vars, vars', h, hsub, hnew => Block.scoped_nil
  | stmt :: stmts, vars, vars', h, hsub, hnew => by
    rw [Block.scoped_cons] at h ⊢
    simp only [Block.gather_cons, List.mem_append] at hnew
    refine ⟨h.1.weaken hsub fun name hmem => ?_, h.2.weaken ?_ fun name hmem => ?_⟩
    · have := hnew name hmem
      tauto
    · intro name hmem
      rw [List.mem_append] at hmem ⊢
      exact hmem.imp_right fun hin => hsub hin
    · rw [List.mem_append] at hmem ⊢
      rcases hmem with hin | hin
      · exact Or.inl (Or.inl hin)
      · have := hnew name hin
        tauto

end

/-- Only which variables are in scope matters, not their order. -/
theorem Block.scoped_congr {block : Block} {vars' : List String}
    (hiff : ∀ name, name ∈ vars ↔ name ∈ vars') :
    Block.Scoped taken vars block ↔ Block.Scoped taken vars' block :=
  ⟨fun h => h.weaken (fun name => (hiff name).mp) fun name hmem => Or.inl ((hiff name).mpr hmem),
    fun h => h.weaken (fun name => (hiff name).mpr) fun name hmem => Or.inl ((hiff name).mp hmem)⟩

theorem Block.scoped_append {front back : Block} :
    Block.Scoped taken vars (front ++ back) ↔
      Block.Scoped taken vars front ∧ Block.Scoped taken (Block.declares front ++ vars) back := by
  induction front generalizing vars with
  | nil => simp
  | cons stmt stmts ih =>
    rw [List.cons_append, Block.scoped_cons, Block.scoped_cons, ih, and_assoc]
    refine and_congr_right fun _ => and_congr_right fun _ => Block.scoped_congr fun name => ?_
    simp only [Block.declares_cons, List.mem_append]
    tauto

/-- Where nothing is declared directly, a block is scoped if its statements are. -/
theorem Block.scoped_iff_forall {block : Block} (hnone : ∀ stmt ∈ block, stmt.declares = []) :
    Block.Scoped taken vars block ↔ ∀ stmt ∈ block, stmt.Scoped taken vars := by
  induction block with
  | nil => simp
  | cons stmt stmts ih =>
    rw [List.forall_mem_cons] at hnone
    rw [Block.scoped_cons, hnone.1, List.nil_append, ih hnone.2, List.forall_mem_cons]

/-! ## New names -/

mutual

/-- What is declared in a scoped statement that defines no function is new. -/
theorem Stmt.Scoped.new : ∀ {stmt : Stmt} {vars : List String}, stmt.Scoped taken vars →
    stmt.gather Stmt.ownDefinition = [] →
    ∀ name ∈ stmt.gather Stmt.introduced, name ∉ vars ∧ name ∉ taken
  | .expr value, vars, h, hdef => by simp [Stmt.introduced]
  | .assign targets value, vars, h, hdef => by simp [Stmt.introduced]
  | .declare names value, vars, h, hdef => by
    rw [Stmt.Scoped] at h
    rw [Stmt.gather_declare]
    exact h.1.2
  | .define function, vars, h, hdef => by simp [Stmt.ownDefinition] at hdef
  | .branch condition body, vars, h, hdef => by
    rw [Stmt.Scoped] at h
    rw [Stmt.gather_branch] at hdef ⊢
    exact h.2.new (List.append_eq_nil_iff.mp hdef).2
  | .switch scrutinee cases, vars, h, hdef => by
    rw [Stmt.Scoped] at h
    rw [Stmt.gather_switch] at hdef ⊢
    exact h.2.new (List.append_eq_nil_iff.mp hdef).2
  | .loop init condition step body, vars, h, hdef => by
    rw [Stmt.Scoped] at h
    rw [Stmt.gather_loop] at hdef ⊢
    simp only [List.append_eq_nil_iff] at hdef
    have hinit := h.1.new hdef.2.1.1
    have hstep := h.2.2.1.new hdef.2.1.2
    have hbody := h.2.2.2.new hdef.2.2
    intro name hname
    simp only [Stmt.introduced, List.nil_append, List.mem_append] at hname hstep hbody
    rcases hname with (hname | hname) | hname
    · exact hinit name hname
    · exact ⟨fun hmem => (hstep name hname).1 (Or.inr hmem), (hstep name hname).2⟩
    · exact ⟨fun hmem => (hbody name hname).1 (Or.inr hmem), (hbody name hname).2⟩
  | .block body, vars, h, hdef => by
    rw [Stmt.Scoped] at h
    rw [Stmt.gather_block] at hdef ⊢
    exact h.new (List.append_eq_nil_iff.mp hdef).2

theorem Case.Scoped.new : ∀ {cases : List Case} {vars : List String},
    Case.Scoped taken vars cases → Case.gather Stmt.ownDefinition cases = [] →
    ∀ name ∈ Case.gather Stmt.introduced cases, name ∉ vars ∧ name ∉ taken
  | [], vars, h, hdef => by simp
  | ⟨value, body⟩ :: cases, vars, h, hdef => by
    rw [Case.Scoped] at h
    rw [Case.gather_cons] at hdef ⊢
    obtain ⟨hdef, hdef'⟩ := List.append_eq_nil_iff.mp hdef
    exact List.forall_mem_append.mpr ⟨h.1.new hdef, h.2.new hdef'⟩

theorem Block.Scoped.new : ∀ {block : Block} {vars : List String},
    Block.Scoped taken vars block → Block.gather Stmt.ownDefinition block = [] →
    ∀ name ∈ Block.gather Stmt.introduced block, name ∉ vars ∧ name ∉ taken
  | [], vars, h, hdef => by simp
  | stmt :: stmts, vars, h, hdef => by
    rw [Block.scoped_cons] at h
    rw [Block.gather_cons] at hdef ⊢
    obtain ⟨hdef, hdef'⟩ := List.append_eq_nil_iff.mp hdef
    refine List.forall_mem_append.mpr ⟨h.1.new hdef, fun name hname => ?_⟩
    obtain ⟨hvars, htaken⟩ := h.2.new hdef' name hname
    exact ⟨fun hmem => hvars (List.mem_append_right _ hmem), htaken⟩

end

/-! ## Variables that are used -/

mutual

/-- What a scoped statement refers or assigns to is in scope, or declared in it. -/
theorem Stmt.Scoped.mentions : ∀ {stmt : Stmt} {vars : List String}, stmt.Scoped taken vars →
    ∀ name ∈ stmt.gather Stmt.ownMentions, name ∈ vars ∨ name ∈ stmt.gather Stmt.introduced
  | .expr value, vars, h, name, hname => by
    rw [Stmt.Scoped] at h
    rw [Stmt.gather_expr] at hname
    exact Or.inl (h hname)
  | .assign targets value, vars, h, name, hname => by
    rw [Stmt.Scoped] at h
    rw [Stmt.gather_assign] at hname
    exact Or.inl ((List.mem_append.mp hname).elim (fun h' => h.1 h') fun h' => h.2 h')
  | .declare names value, vars, h, name, hname => by
    rw [Stmt.Scoped] at h
    rw [Stmt.gather_declare] at hname
    exact Or.inl (h.2 hname)
  | .define ⟨_, params, returns, body⟩, vars, h, name, hname => by
    rw [Stmt.Scoped] at h
    rw [Stmt.gather_define] at hname ⊢
    rcases h.2.mentions name hname with hin | hin
    · exact Or.inr (List.mem_append_left _ (List.mem_cons_of_mem _ hin))
    · exact Or.inr (List.mem_append_right _ hin)
  | .branch condition body, vars, h, name, hname => by
    rw [Stmt.Scoped] at h
    rw [Stmt.gather_branch, List.mem_append] at hname ⊢
    rcases hname with hname | hname
    · exact Or.inl (h.1 hname)
    · exact (h.2.mentions name hname).imp_right Or.inr
  | .switch scrutinee cases, vars, h, name, hname => by
    rw [Stmt.Scoped] at h
    rw [Stmt.gather_switch, List.mem_append] at hname ⊢
    rcases hname with hname | hname
    · exact Or.inl (h.1 hname)
    · exact (h.2.mentions name hname).imp_right Or.inr
  | .loop init condition step body, vars, h, name, hname => by
    rw [Stmt.Scoped] at h
    simp only [Stmt.gather_loop, List.mem_append] at hname ⊢
    have hinit : ∀ {other : String}, other ∈ Block.declares init ++ vars →
        other ∈ vars ∨ other ∈ Block.gather Stmt.introduced init := fun hother =>
      (List.mem_append.mp hother).symm.imp_right fun h' => Block.declares_subset_declared init h'
    rcases hname with hname | (hname | hname) | hname
    · have := hinit (h.2.1 hname)
      tauto
    · have := h.1.mentions name hname
      tauto
    · have := h.2.2.1.mentions name hname
      have := @hinit name
      tauto
    · have := h.2.2.2.mentions name hname
      have := @hinit name
      tauto
  | .block body, vars, h, name, hname => by
    rw [Stmt.Scoped] at h
    rw [Stmt.gather_block] at hname ⊢
    exact h.mentions name hname

theorem Case.Scoped.mentions : ∀ {cases : List Case} {vars : List String},
    Case.Scoped taken vars cases → ∀ name ∈ Case.gather Stmt.ownMentions cases,
      name ∈ vars ∨ name ∈ Case.gather Stmt.introduced cases
  | [], vars, h, name, hname => by simp at hname
  | ⟨value, body⟩ :: cases, vars, h, name, hname => by
    rw [Case.Scoped] at h
    rw [Case.gather_cons, List.mem_append] at hname ⊢
    rcases hname with hname | hname
    · exact (h.1.mentions name hname).imp_right Or.inl
    · exact (h.2.mentions name hname).imp_right Or.inr

theorem Block.Scoped.mentions : ∀ {block : Block} {vars : List String},
    Block.Scoped taken vars block → ∀ name ∈ Block.gather Stmt.ownMentions block,
      name ∈ vars ∨ name ∈ Block.gather Stmt.introduced block
  | [], vars, h, name, hname => by simp at hname
  | stmt :: stmts, vars, h, name, hname => by
    rw [Block.scoped_cons] at h
    rw [Block.gather_cons, List.mem_append] at hname ⊢
    rcases hname with hname | hname
    · exact (h.1.mentions name hname).imp_right Or.inl
    · have := h.2.mentions name hname
      have := stmt.declares_sublist_gather.subset (a := name)
      simp only [List.mem_append] at *
      tauto

end

/-! ## Deciding whether a block is scoped -/

instance {taken vars names : List String} : Decidable (Declarable taken vars names) :=
  inferInstanceAs (Decidable (_ ∧ _))

mutual

/-- Whether a statement is scoped. -/
def Stmt.decScoped (taken : List String) :
    ∀ (vars : List String) (stmt : Stmt), Decidable (stmt.Scoped taken vars)
  | vars, .expr value => inferInstanceAs (Decidable (value.vars ⊆ vars))
  | vars, .assign targets value =>
    inferInstanceAs (Decidable (targets ⊆ vars ∧ value.vars ⊆ vars))
  | vars, .declare names value =>
    inferInstanceAs (Decidable
      (Declarable taken vars (names.map (·.name)) ∧ Expr.varsOfValue value ⊆ vars))
  | _, .define ⟨_, params, returns, body⟩ =>
    have := Block.decScoped taken (params.map (·.name) ++ returns.map (·.name)) body
    inferInstanceAs (Decidable
      (Declarable taken [] (params.map (·.name) ++ returns.map (·.name)) ∧ _))
  | vars, .branch condition body =>
    have := Block.decScoped taken vars body
    inferInstanceAs (Decidable (condition.vars ⊆ vars ∧ _))
  | vars, .switch scrutinee cases =>
    have := Case.decScoped taken vars cases
    inferInstanceAs (Decidable (scrutinee.vars ⊆ vars ∧ _))
  | vars, .loop init condition step body =>
    have := Block.decScoped taken vars init
    have := Block.decScoped taken (Block.declares init ++ vars) step
    have := Block.decScoped taken (Block.declares init ++ vars) body
    inferInstanceAs (Decidable (Block.Scoped taken vars init ∧
      condition.vars ⊆ Block.declares init ++ vars ∧ _ ∧ _))
  | vars, .block body => Block.decScoped taken vars body

/-- Whether the blocks of a list of cases are scoped. -/
def Case.decScoped (taken : List String) :
    ∀ (vars : List String) (cases : List Case), Decidable (Case.Scoped taken vars cases)
  | _, [] => isTrue trivial
  | vars, ⟨_, body⟩ :: cases =>
    have := Block.decScoped taken vars body
    have := Case.decScoped taken vars cases
    inferInstanceAs (Decidable (_ ∧ _))

/-- Whether a block is scoped. -/
def Block.decScoped (taken : List String) :
    ∀ (vars : List String) (block : List Stmt), Decidable (Block.Scoped taken vars block)
  | _, [] => isTrue trivial
  | vars, stmt :: stmts =>
    have := Stmt.decScoped taken vars stmt
    have := Block.decScoped taken (stmt.declares ++ vars) stmts
    inferInstanceAs (Decidable (_ ∧ _))

end

instance {taken vars : List String} {block : Block} : Decidable (Block.Scoped taken vars block) :=
  Block.decScoped taken vars block

end YulInline
