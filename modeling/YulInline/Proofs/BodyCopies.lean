import YulInline.Proofs.FlatCopies
import YulInline.Proofs.FreshNames
import YulInline.Proofs.Renaming

/-!
# Copies of a body

A copy has the statements of the body that it was made from, and the same calls in them. What it
declares are exactly the names that were given out for it, and if the body is scoped it is a
renamed body in the sense of `Block.Renamed`: although the copier keeps the renames of a whole body
in one list, without scopes, every variable is found under its declaration in force.
-/

namespace YulInline

variable {rule : CopyRule}

/-! ## Declarations -/

/-- What copying declared variables does: it gives out a name for each, keeps the type tags and
records the renames. -/
theorem Copier.declare_spec (copier : Copier) (vars : List TypedName) :
    (copier.declare rule vars).1.map (·.type) = vars.map (·.type) ∧
    Dispensed copier.names ((copier.declare rule vars).1.map (·.name))
      (copier.declare rule vars).2.names ∧
    (copier.declare rule vars).2.renames =
      ((vars.map (·.name)).zip ((copier.declare rule vars).1.map (·.name))).reverse ++
        copier.renames := by
  induction vars generalizing copier with
  | nil => exact ⟨rfl, Dispensed.refl _, rfl⟩
  | cons var vars ih =>
    obtain ⟨htypes, hnames, hrenames⟩ :=
      ih ⟨(copier.names.fresh (rule.stem ++ var.name)).2,
        (var.name, (copier.names.fresh (rule.stem ++ var.name)).1) :: copier.renames⟩
    refine ⟨?_, ?_, ?_⟩
    · simp [declare, htypes]
    · exact (Dispensed.fresh copier.names (rule.stem ++ var.name)).trans hnames
    · simp [declare, hrenames]

/-- Behind a declaration the copier knows its variables by their new names. -/
theorem Copier.nameFor_declare (copier : Copier) (vars : List TypedName)
    (hsubst : ∀ name ∈ vars.map (·.name), rule.substitution.lookup name = none) :
    (copier.declare rule vars).2.nameFor rule =
      rebind (copier.nameFor rule) (vars.map (·.name))
        ((copier.declare rule vars).1.map (·.name)) := by
  induction vars generalizing copier with
  | nil => rfl
  | cons var vars ih =>
    rw [List.map_cons, List.forall_mem_cons] at hsubst
    have hhead : (⟨(copier.names.fresh (rule.stem ++ var.name)).2,
        (var.name, (copier.names.fresh (rule.stem ++ var.name)).1) :: copier.renames⟩ :
          Copier).nameFor rule = Function.update (copier.nameFor rule) var.name
            (copier.names.fresh (rule.stem ++ var.name)).1 := by
      funext name
      by_cases hname : name = var.name
      · subst hname
        simp [nameFor, hsubst.1]
      · have hbeq : (name == var.name) = false := by simpa using hname
        simp [nameFor, List.lookup_cons, hbeq, Function.update_of_ne hname]
    rw [declare, ih _ hsubst.2, hhead]
    rfl

/-- A declaration does not change what becomes of other names. -/
theorem Copier.nameFor_declare_of_not_mem (copier : Copier) (vars : List TypedName)
    {name : String} (hname : name ∉ vars.map (·.name)) :
    (copier.declare rule vars).2.nameFor rule name = copier.nameFor rule name := by
  induction vars generalizing copier with
  | nil => rfl
  | cons var vars ih =>
    rw [List.map_cons, List.mem_cons, not_or] at hname
    have hbeq : (name == var.name) = false := by simpa using hname.1
    rw [declare, ih _ hname.2]
    simp [nameFor, List.lookup_cons, hbeq]

/-! ## What a copy keeps -/

section Gather

variable {α : Type} {own : Stmt → List α}

mutual

/-- A copy has what renaming does not change. -/
theorem Stmt.gather_copy (hown : ∀ stmt copier, own (stmt.copy rule copier).1 = own stmt) :
    ∀ (stmt : Stmt) (copier : Copier),
      (stmt.copy rule copier).1.gather own = stmt.gather own
  | .expr value, copier => by
    have := hown (.expr value) copier
    simpa using this
  | .assign targets value, copier => by
    have := hown (.assign targets value) copier
    simpa using this
  | .declare vars value, copier => by
    have := hown (.declare vars value) copier
    simpa using this
  | .define function, copier => by
    rw [Stmt.copy_define]
  | .branch condition body, copier => by
    have := hown (.branch condition body) copier
    rw [Stmt.copy_branch] at this ⊢
    rw [Stmt.gather_branch, Stmt.gather_branch, this, Block.gather_copy hown]
  | .switch scrutinee cases, copier => by
    have := hown (.switch scrutinee cases) copier
    rw [Stmt.copy_switch] at this ⊢
    rw [Stmt.gather_switch, Stmt.gather_switch, this, Case.gather_copy hown]
  | .loop init condition step body, copier => by
    have := hown (.loop init condition step body) copier
    rw [Stmt.copy_loop] at this ⊢
    rw [Stmt.gather_loop, Stmt.gather_loop, this, Block.gather_copy hown, Block.gather_copy hown,
      Block.gather_copy hown]
  | .block body, copier => by
    have := hown (.block body) copier
    rw [Stmt.copy_block] at this ⊢
    rw [Stmt.gather_block, Stmt.gather_block, this, Block.gather_copy hown]

theorem Case.gather_copy (hown : ∀ stmt copier, own (stmt.copy rule copier).1 = own stmt) :
    ∀ (cases : List Case) (copier : Copier),
      Case.gather own (Case.copyCases rule cases copier).1 = Case.gather own cases
  | [], copier => by rw [Case.copyCases_nil]
  | ⟨value, body⟩ :: cases, copier => by
    rw [Case.copyCases_cons, Case.gather_cons, Case.gather_cons, Block.gather_copy hown,
      Case.gather_copy hown]

theorem Block.gather_copy (hown : ∀ stmt copier, own (stmt.copy rule copier).1 = own stmt) :
    ∀ (block : Block) (copier : Copier),
      Block.gather own (Block.copy rule block copier).1 = Block.gather own block
  | [], copier => by rw [Block.copy_nil]
  | stmt :: stmts, copier => by
    rw [Block.copy_cons, Block.gather_cons, Block.gather_cons, Stmt.gather_copy hown,
      Block.gather_copy hown]

end

end Gather

theorem Stmt.ownCalls_copy (stmt : Stmt) (copier : Copier) :
    (stmt.copy rule copier).1.ownCalls = stmt.ownCalls := by
  cases stmt <;> simp [Stmt.ownCalls, Expr.calls_rename, Expr.callsOfValue_rename]

theorem Stmt.kind_copy (stmt : Stmt) (copier : Copier) :
    (stmt.copy rule copier).1.kind = stmt.kind := by
  cases stmt <;> simp [Stmt.kind]

theorem Stmt.ownDefinition_copy (stmt : Stmt) (copier : Copier) :
    (stmt.copy rule copier).1.ownDefinition = stmt.ownDefinition := by
  cases stmt <;> simp [Stmt.ownDefinition]

theorem Block.calls_copy (block : Block) (copier : Copier) :
    Block.calls (Block.copy rule block copier).1 = Block.calls block :=
  Block.gather_copy Stmt.ownCalls_copy block copier

theorem Block.definitions_copy (block : Block) (copier : Copier) :
    Block.definitions (Block.copy rule block copier).1 = Block.definitions block :=
  Block.gather_copy Stmt.ownDefinition_copy block copier

theorem Block.size_copy (block : Block) (copier : Copier) :
    Block.size (Block.copy rule block copier).1 = Block.size block := by
  rw [Block.size, Block.gather_copy fun stmt copier => by rw [Stmt.kind_copy], Block.size]

/-! ## The names of a copy -/

mutual

/-- The names that the copy of a statement declares are those that were given out for it. -/
theorem Stmt.dispensed_copy : ∀ (stmt : Stmt) (copier : Copier),
    stmt.gather Stmt.ownDefinition = [] →
      Dispensed copier.names ((stmt.copy rule copier).1.gather Stmt.introduced)
        (stmt.copy rule copier).2.names
  | .expr value, copier, _ => by
    simpa [Stmt.introduced] using Dispensed.refl copier.names
  | .assign targets value, copier, _ => by
    simpa [Stmt.introduced] using Dispensed.refl copier.names
  | .declare vars value, copier, _ => by
    simpa [Stmt.introduced] using (copier.declare_spec vars).2.1
  | .define function, copier, h => by
    simp [Stmt.ownDefinition] at h
  | .branch condition body, copier, h => by
    rw [Stmt.gather_branch, List.append_eq_nil_iff] at h
    simpa [Stmt.introduced] using Block.dispensed_copy body copier h.2
  | .switch scrutinee cases, copier, h => by
    rw [Stmt.gather_switch, List.append_eq_nil_iff] at h
    simpa [Stmt.introduced] using Case.dispensed_copy cases copier h.2
  | .loop init condition step body, copier, h => by
    simp only [Stmt.gather_loop, List.append_eq_nil_iff] at h
    have hinit := Block.dispensed_copy init copier h.2.1.1
    have hstep := Block.dispensed_copy step (Block.copy rule init copier).2 h.2.1.2
    have hbody := Block.dispensed_copy body
      (Block.copy rule step (Block.copy rule init copier).2).2 h.2.2
    simpa [Stmt.introduced] using (hinit.trans hstep).trans hbody
  | .block body, copier, h => by
    rw [Stmt.gather_block, List.append_eq_nil_iff] at h
    simpa [Stmt.introduced] using Block.dispensed_copy body copier h.2

theorem Case.dispensed_copy : ∀ (cases : List Case) (copier : Copier),
    Case.gather Stmt.ownDefinition cases = [] →
      Dispensed copier.names (Case.gather Stmt.introduced (Case.copyCases rule cases copier).1)
        (Case.copyCases rule cases copier).2.names
  | [], copier, _ => by
    simpa using Dispensed.refl copier.names
  | ⟨value, body⟩ :: cases, copier, h => by
    rw [Case.gather_cons, List.append_eq_nil_iff] at h
    rw [Case.copyCases_cons, Case.gather_cons]
    exact (Block.dispensed_copy body copier h.1).trans (Case.dispensed_copy cases _ h.2)

theorem Block.dispensed_copy : ∀ (block : Block) (copier : Copier),
    Block.gather Stmt.ownDefinition block = [] →
      Dispensed copier.names (Block.gather Stmt.introduced (Block.copy rule block copier).1)
        (Block.copy rule block copier).2.names
  | [], copier, _ => by
    simpa using Dispensed.refl copier.names
  | stmt :: stmts, copier, h => by
    rw [Block.gather_cons, List.append_eq_nil_iff] at h
    rw [Block.copy_cons, Block.gather_cons]
    exact (Stmt.dispensed_copy stmt copier h.1).trans (Block.dispensed_copy stmts _ h.2)

end

mutual

/-- Copying a statement does not change what becomes of a name that it does not declare. -/
theorem Stmt.nameFor_copy : ∀ (stmt : Stmt) (copier : Copier) {name : String},
    name ∉ stmt.gather Stmt.introduced →
      (stmt.copy rule copier).2.nameFor rule name = copier.nameFor rule name
  | .expr value, copier, name, _ => by rw [Stmt.copy_expr]
  | .assign targets value, copier, name, _ => by rw [Stmt.copy_assign]
  | .declare vars value, copier, name, h => by
    rw [Stmt.copy_declare]
    exact Copier.nameFor_declare_of_not_mem copier vars (by simpa [Stmt.introduced] using h)
  | .define function, copier, name, _ => by rw [Stmt.copy_define]
  | .branch condition body, copier, name, h => by
    rw [Stmt.gather_branch, List.mem_append, not_or] at h
    rw [Stmt.copy_branch]
    exact Block.nameFor_copy body copier h.2
  | .switch scrutinee cases, copier, name, h => by
    rw [Stmt.gather_switch, List.mem_append, not_or] at h
    rw [Stmt.copy_switch]
    exact Case.nameFor_copy cases copier h.2
  | .loop init condition step body, copier, name, h => by
    simp only [Stmt.gather_loop, List.mem_append, not_or] at h
    rw [Stmt.copy_loop]
    exact (Block.nameFor_copy body _ h.2.2).trans
      ((Block.nameFor_copy step _ h.2.1.2).trans (Block.nameFor_copy init copier h.2.1.1))
  | .block body, copier, name, h => by
    rw [Stmt.gather_block, List.mem_append, not_or] at h
    rw [Stmt.copy_block]
    exact Block.nameFor_copy body copier h.2

theorem Case.nameFor_copy : ∀ (cases : List Case) (copier : Copier) {name : String},
    name ∉ Case.gather Stmt.introduced cases →
      (Case.copyCases rule cases copier).2.nameFor rule name = copier.nameFor rule name
  | [], copier, name, _ => by rw [Case.copyCases_nil]
  | ⟨value, body⟩ :: cases, copier, name, h => by
    rw [Case.gather_cons, List.mem_append, not_or] at h
    rw [Case.copyCases_cons]
    exact (Case.nameFor_copy cases _ h.2).trans (Block.nameFor_copy body copier h.1)

theorem Block.nameFor_copy : ∀ (block : Block) (copier : Copier) {name : String},
    name ∉ Block.gather Stmt.introduced block →
      (Block.copy rule block copier).2.nameFor rule name = copier.nameFor rule name
  | [], copier, name, _ => by rw [Block.copy_nil]
  | stmt :: stmts, copier, name, h => by
    rw [Block.gather_cons, List.mem_append, not_or] at h
    rw [Block.copy_cons]
    exact (Block.nameFor_copy stmts _ h.2).trans (Stmt.nameFor_copy stmt copier h.1)

end

mutual

/-- A variable that is used in a statement and not declared in it is used in the copy, by the name
that the copier knows it by. -/
theorem Stmt.mentions_copy : ∀ (stmt : Stmt) (copier : Copier) {name : String},
    stmt.gather Stmt.ownDefinition = [] → name ∈ stmt.gather Stmt.ownMentions →
      name ∉ stmt.gather Stmt.introduced →
      copier.nameFor rule name ∈ (stmt.copy rule copier).1.gather Stmt.ownMentions
  | .expr value, copier, name, _, h, _ => by
    rw [Stmt.gather_expr] at h
    rw [Stmt.copy_expr, Stmt.gather_expr, Stmt.ownMentions, Expr.vars_rename]
    exact List.mem_map_of_mem h
  | .assign targets value, copier, name, _, h, _ => by
    rw [Stmt.gather_assign, Stmt.ownMentions] at h
    rw [Stmt.copy_assign, Stmt.gather_assign, Stmt.ownMentions, Expr.vars_rename,
      ← List.map_append]
    exact List.mem_map_of_mem h
  | .declare vars value, copier, name, _, h, hnew => by
    rw [Stmt.gather_declare] at h hnew
    rw [Stmt.copy_declare, Stmt.gather_declare, Stmt.ownMentions, Expr.varsOfValue_rename,
      ← copier.nameFor_declare_of_not_mem vars hnew]
    exact List.mem_map_of_mem h
  | .define function, copier, name, hdef, _, _ => by
    simp [Stmt.ownDefinition] at hdef
  | .branch condition body, copier, name, hdef, h, hnew => by
    rw [Stmt.gather_branch] at hdef h hnew
    rw [List.append_eq_nil_iff] at hdef
    rw [List.mem_append, not_or] at hnew
    rw [Stmt.copy_branch, Stmt.gather_branch, Stmt.ownMentions, Expr.vars_rename]
    rcases List.mem_append.mp h with h | h
    · exact List.mem_append_left _ (List.mem_map_of_mem h)
    · exact List.mem_append_right _ (Block.mentions_copy body copier hdef.2 h hnew.2)
  | .switch scrutinee cases, copier, name, hdef, h, hnew => by
    rw [Stmt.gather_switch] at hdef h hnew
    rw [List.append_eq_nil_iff] at hdef
    rw [List.mem_append, not_or] at hnew
    rw [Stmt.copy_switch, Stmt.gather_switch, Stmt.ownMentions, Expr.vars_rename]
    rcases List.mem_append.mp h with h | h
    · exact List.mem_append_left _ (List.mem_map_of_mem h)
    · exact List.mem_append_right _ (Case.mentions_copy cases copier hdef.2 h hnew.2)
  | .loop init condition step body, copier, name, hdef, h, hnew => by
    simp only [Stmt.gather_loop, List.append_eq_nil_iff] at hdef
    simp only [Stmt.gather_loop, List.mem_append, not_or] at h hnew
    have hinit := @Block.nameFor_copy rule init copier name hnew.2.1.1
    have hstep := @Block.nameFor_copy rule step (Block.copy rule init copier).2 name hnew.2.1.2
    rw [Stmt.copy_loop, Stmt.gather_loop, Stmt.ownMentions, Expr.vars_rename]
    simp only [List.mem_append]
    rcases h with h | (h | h) | h
    · rw [← hinit]
      exact Or.inl (List.mem_map_of_mem h)
    · exact Or.inr (Or.inl (Or.inl (Block.mentions_copy init copier hdef.2.1.1 h hnew.2.1.1)))
    · rw [← hinit]
      exact Or.inr (Or.inl (Or.inr (Block.mentions_copy step _ hdef.2.1.2 h hnew.2.1.2)))
    · rw [← hinit, ← hstep]
      exact Or.inr (Or.inr (Block.mentions_copy body _ hdef.2.2 h hnew.2.2))
  | .block body, copier, name, hdef, h, hnew => by
    rw [Stmt.gather_block] at hdef h hnew
    rw [Stmt.copy_block, Stmt.gather_block]
    exact Block.mentions_copy body copier hdef h hnew

theorem Case.mentions_copy : ∀ (cases : List Case) (copier : Copier) {name : String},
    Case.gather Stmt.ownDefinition cases = [] → name ∈ Case.gather Stmt.ownMentions cases →
      name ∉ Case.gather Stmt.introduced cases →
      copier.nameFor rule name ∈
        Case.gather Stmt.ownMentions (Case.copyCases rule cases copier).1
  | [], copier, name, _, h, _ => by simp at h
  | ⟨value, body⟩ :: cases, copier, name, hdef, h, hnew => by
    rw [Case.gather_cons] at hdef h hnew
    rw [List.append_eq_nil_iff] at hdef
    rw [List.mem_append, not_or] at hnew
    rw [Case.copyCases_cons, Case.gather_cons]
    rcases List.mem_append.mp h with h | h
    · exact List.mem_append_left _ (Block.mentions_copy body copier hdef.1 h hnew.1)
    · rw [← @Block.nameFor_copy rule body copier name hnew.1]
      exact List.mem_append_right _ (Case.mentions_copy cases _ hdef.2 h hnew.2)

theorem Block.mentions_copy : ∀ (block : Block) (copier : Copier) {name : String},
    Block.gather Stmt.ownDefinition block = [] → name ∈ Block.gather Stmt.ownMentions block →
      name ∉ Block.gather Stmt.introduced block →
      copier.nameFor rule name ∈ Block.gather Stmt.ownMentions (Block.copy rule block copier).1
  | [], copier, name, _, h, _ => by simp at h
  | stmt :: stmts, copier, name, hdef, h, hnew => by
    rw [Block.gather_cons] at hdef h hnew
    rw [List.append_eq_nil_iff] at hdef
    rw [List.mem_append, not_or] at hnew
    rw [Block.copy_cons, Block.gather_cons]
    rcases List.mem_append.mp h with h | h
    · exact List.mem_append_left _ (Stmt.mentions_copy stmt copier hdef.1 h hnew.1)
    · rw [← @Stmt.nameFor_copy rule stmt copier name hnew.1]
      exact List.mem_append_right _ (Block.mentions_copy stmts _ hdef.2 h hnew.2)

end

/-! ## A copy is a renamed body -/

section Renamed

variable {taken : List String}

mutual

/-- The copy of a scoped statement is that statement renamed, if the substitution leaves alone what
the statement declares: where the copier knows the variables in scope as `f` does, it knows them as
the renaming does afterwards. -/
theorem Stmt.copy_renamed : ∀ (stmt : Stmt) (copier : Copier) {vars : List String}
    {f : String → String}, stmt.Scoped taken vars → stmt.gather Stmt.ownDefinition = [] →
      (∀ name ∈ stmt.gather Stmt.introduced, rule.substitution.lookup name = none) →
      (∀ name ∈ vars, copier.nameFor rule name = f name) →
      ∃ g, Stmt.Renamed f stmt (stmt.copy rule copier).1 g ∧
        ∀ name ∈ stmt.declares ++ vars, (stmt.copy rule copier).2.nameFor rule name = g name
  | .expr value, copier, vars, f, hscoped, hdef, hsubst, hf => by
    rw [Stmt.Scoped] at hscoped
    rw [Stmt.copy_expr, Expr.rename_congr value fun name hname => hf name (hscoped hname)]
    exact ⟨f, .expr f value, hf⟩
  | .assign targets value, copier, vars, f, hscoped, hdef, hsubst, hf => by
    rw [Stmt.Scoped] at hscoped
    rw [Stmt.copy_assign, Expr.rename_congr value fun name hname => hf name (hscoped.2 hname),
      List.map_congr_left fun name hname => hf name (hscoped.1 hname)]
    exact ⟨f, .assign f targets value, hf⟩
  | .declare names value, copier, vars, f, hscoped, hdef, hsubst, hf => by
    rw [Stmt.Scoped] at hscoped
    obtain ⟨htypes, -, -⟩ := @Copier.declare_spec rule copier names
    have hname := copier.nameFor_declare names (by simpa [Stmt.introduced] using hsubst)
    have hvalue : ∀ name ∈ Expr.varsOfValue value,
        (copier.declare rule names).2.nameFor rule name = f name := by
      intro name hmem
      rw [hname, rebind_of_not_mem fun hnew => (hscoped.1.2 name hnew).1 (hscoped.2 hmem),
        hf name (hscoped.2 hmem)]
    rw [Stmt.copy_declare, Expr.rename_value_congr hvalue]
    refine ⟨_, .declare f value htypes, fun name hmem => ?_⟩
    rw [hname]
    have hlen := congrArg List.length htypes
    exact rebind_congr (by simpa using hlen.symm) hf hmem
  | .define function, copier, vars, f, hscoped, hdef, hsubst, hf => by
    simp [Stmt.ownDefinition] at hdef
  | .branch condition body, copier, vars, f, hscoped, hdef, hsubst, hf => by
    rw [Stmt.Scoped] at hscoped
    simp only [Stmt.gather_branch, List.append_eq_nil_iff, List.mem_append] at hdef hsubst
    obtain ⟨g, hbody, hg⟩ := Block.copy_renamed body copier hscoped.2 hdef.2
      (fun name hname => hsubst name (Or.inr hname)) hf
    rw [Stmt.copy_branch, Expr.rename_congr condition fun name hname => hf name (hscoped.1 hname)]
    refine ⟨f, .branch condition hbody, fun name hname => ?_⟩
    exact (hg name (List.mem_append_right _ hname)).trans (hbody.eq_of_mem hscoped.2 hname)
  | .switch scrutinee cases, copier, vars, f, hscoped, hdef, hsubst, hf => by
    rw [Stmt.Scoped] at hscoped
    simp only [Stmt.gather_switch, List.append_eq_nil_iff, List.mem_append] at hdef hsubst
    obtain ⟨hcases, hg⟩ := Case.copy_renamed cases copier hscoped.2 hdef.2
      (fun name hname => hsubst name (Or.inr hname)) hf
    rw [Stmt.copy_switch, Expr.rename_congr scrutinee fun name hname => hf name (hscoped.1 hname)]
    exact ⟨f, .switch scrutinee hcases, hg⟩
  | .loop init condition step body, copier, vars, f, hscoped, hdef, hsubst, hf => by
    rw [Stmt.Scoped] at hscoped
    simp only [Stmt.gather_loop, List.append_eq_nil_iff, List.mem_append] at hdef hsubst
    obtain ⟨g, hinit, hg⟩ := Block.copy_renamed init copier hscoped.1 hdef.2.1.1
      (fun name hname => hsubst name (Or.inr (Or.inl (Or.inl hname)))) hf
    obtain ⟨h, hstep, hh⟩ := Block.copy_renamed step (Block.copy rule init copier).2
      hscoped.2.2.1 hdef.2.1.2 (fun name hname => hsubst name (Or.inr (Or.inl (Or.inr hname)))) hg
    have hh' : ∀ name ∈ Block.declares init ++ vars,
        (Block.copy rule step (Block.copy rule init copier).2).2.nameFor rule name = g name := by
      intro name hname
      exact (hh name (List.mem_append_right _ hname)).trans (hstep.eq_of_mem hscoped.2.2.1 hname)
    obtain ⟨k, hbody, hk⟩ := Block.copy_renamed body
      (Block.copy rule step (Block.copy rule init copier).2).2 hscoped.2.2.2 hdef.2.2
      (fun name hname => hsubst name (Or.inr (Or.inr hname))) hh'
    simp only [Stmt.copy_loop]
    rw [Expr.rename_congr condition fun name hname => hg name (hscoped.2.1 hname)]
    refine ⟨f, .loop condition hinit hstep hbody, fun name hname => ?_⟩
    have hname' := List.mem_append_right (Block.declares init) hname
    rw [hk name (List.mem_append_right _ hname'), hbody.eq_of_mem hscoped.2.2.2 hname',
      hinit.eq_of_mem hscoped.1 hname]
  | .block body, copier, vars, f, hscoped, hdef, hsubst, hf => by
    rw [Stmt.Scoped] at hscoped
    simp only [Stmt.gather_block, List.append_eq_nil_iff, List.mem_append] at hdef hsubst
    obtain ⟨g, hbody, hg⟩ := Block.copy_renamed body copier hscoped hdef.2
      (fun name hname => hsubst name (Or.inr hname)) hf
    rw [Stmt.copy_block]
    refine ⟨f, .block hbody, fun name hname => ?_⟩
    exact (hg name (List.mem_append_right _ hname)).trans (hbody.eq_of_mem hscoped hname)

theorem Case.copy_renamed : ∀ (cases : List Case) (copier : Copier) {vars : List String}
    {f : String → String}, Case.Scoped taken vars cases → Case.gather Stmt.ownDefinition cases = [] →
      (∀ name ∈ Case.gather Stmt.introduced cases, rule.substitution.lookup name = none) →
      (∀ name ∈ vars, copier.nameFor rule name = f name) →
      Case.Renamed f cases (Case.copyCases rule cases copier).1 ∧
        ∀ name ∈ vars, (Case.copyCases rule cases copier).2.nameFor rule name = f name
  | [], copier, vars, f, hscoped, hdef, hsubst, hf => by
    rw [Case.copyCases_nil]
    exact ⟨.nil f, hf⟩
  | ⟨value, body⟩ :: cases, copier, vars, f, hscoped, hdef, hsubst, hf => by
    rw [Case.Scoped] at hscoped
    simp only [Case.gather_cons, List.append_eq_nil_iff, List.mem_append] at hdef hsubst
    obtain ⟨g, hbody, hg⟩ := Block.copy_renamed body copier hscoped.1 hdef.1
      (fun name hname => hsubst name (Or.inl hname)) hf
    have hf' : ∀ name ∈ vars, (Block.copy rule body copier).2.nameFor rule name = f name := by
      intro name hname
      exact (hg name (List.mem_append_right _ hname)).trans (hbody.eq_of_mem hscoped.1 hname)
    obtain ⟨hcases, hg'⟩ := Case.copy_renamed cases (Block.copy rule body copier).2 hscoped.2 hdef.2
      (fun name hname => hsubst name (Or.inr hname)) hf'
    rw [Case.copyCases_cons]
    exact ⟨.cons value hbody hcases, hg'⟩

theorem Block.copy_renamed : ∀ (block : Block) (copier : Copier) {vars : List String}
    {f : String → String}, Block.Scoped taken vars block →
      Block.gather Stmt.ownDefinition block = [] →
      (∀ name ∈ Block.gather Stmt.introduced block, rule.substitution.lookup name = none) →
      (∀ name ∈ vars, copier.nameFor rule name = f name) →
      ∃ g, Block.Renamed f block (Block.copy rule block copier).1 g ∧
        ∀ name ∈ Block.declares block ++ vars,
          (Block.copy rule block copier).2.nameFor rule name = g name
  | [], copier, vars, f, hscoped, hdef, hsubst, hf => by
    rw [Block.copy_nil]
    exact ⟨f, .nil f, by simpa using hf⟩
  | stmt :: stmts, copier, vars, f, hscoped, hdef, hsubst, hf => by
    rw [Block.scoped_cons] at hscoped
    simp only [Block.gather_cons, List.append_eq_nil_iff, List.mem_append] at hdef hsubst
    obtain ⟨g, hstmt, hg⟩ := Stmt.copy_renamed stmt copier hscoped.1 hdef.1
      (fun name hname => hsubst name (Or.inl hname)) hf
    obtain ⟨h, hstmts, hh⟩ := Block.copy_renamed stmts (stmt.copy rule copier).2 hscoped.2 hdef.2
      (fun name hname => hsubst name (Or.inr hname)) hg
    rw [Block.copy_cons]
    refine ⟨h, .cons hstmt hstmts, fun name hname => hh name ?_⟩
    simp only [Block.declares_cons, List.mem_append] at hname ⊢
    tauto

end

end Renamed

end YulInline
