import YulInline.Proofs.Callees

/-!
# Where names come from

An expansion puts no name into the module that it has not found there, been given, or got from the
supply of names: it copies bodies of functions as they stand in the module, and what it declares it
has taken fresh names for. `Inliner.Draws` says this of two states of an inliner, and of what a
computation between them has been given (`sources`) and gives (`yield`).

Two things follow wherever the names of the module and the sources are in use at the start. They are
in use at the end; and a name that is in use but occurs nowhere in all of these does not get into
the module.
-/

namespace YulInline

/-! ## The names of a tree -/

@[simp] theorem Block.names_nil : Block.names [] = [] := by
  rw [Block.names]

@[simp] theorem Block.names_cons (stmt : Stmt) (stmts : Block) :
    Block.names (stmt :: stmts) = stmt.names ++ Block.names stmts := by
  rw [Block.names]

@[simp] theorem Block.names_append (front back : Block) :
    Block.names (front ++ back) = Block.names front ++ Block.names back := by
  induction front with
  | nil => simp
  | cons stmt stmts ih => simp [ih]

theorem Expr.namesOfArgs_append (front back : List Expr) :
    Expr.namesOfArgs (front ++ back) = Expr.namesOfArgs front ++ Expr.namesOfArgs back := by
  induction front with
  | nil => rfl
  | cons arg args ih =>
    rw [List.cons_append, Expr.namesOfArgs, Expr.namesOfArgs, ih, List.append_assoc]

theorem Expr.namesOfArgs_idents (vars : List String) :
    Expr.namesOfArgs (vars.map .ident) = vars := by
  induction vars with
  | nil => rfl
  | cons var vars ih => rw [List.map_cons, Expr.namesOfArgs, Expr.names, ih, List.singleton_append]

theorem Block.names_subset_of_mem {stmt : Stmt} {block : Block} (h : stmt ∈ block) :
    stmt.names ⊆ Block.names block := by
  obtain ⟨front, back, rfl⟩ := List.append_of_mem h
  rw [Block.names_append, Block.names_cons]
  exact List.Subset.trans (List.subset_append_left _ _) (List.subset_append_right _ _)

theorem Block.names_body_subset {function : FunctionDef} {module : Block}
    (h : function ∈ Block.functions module) : Block.names function.body ⊆ Block.names module := by
  refine List.Subset.trans ?_ (Block.names_subset_of_mem (Block.mem_functions.mp h))
  cases function
  rw [Stmt.names]
  exact List.Subset.trans (List.subset_append_right _ _) (List.subset_cons_self _ _)

theorem Stmt.names_withBody_subset (stmt : Stmt) (body : Block) :
    (stmt.withBody body).names ⊆ stmt.names ++ Block.names body := by
  cases stmt with
  | define function =>
    cases function
    simp only [Stmt.withBody, Stmt.names]
    grind
  | block original =>
    rw [Stmt.withBody, Stmt.names]
    exact List.subset_append_right _ _
  | _ => exact List.subset_append_left _ _

theorem Block.names_modify_subset (module : Block) (position : Nat) (body : Block) :
    Block.names (module.modify position (Stmt.withBody body)) ⊆
      Block.names module ++ Block.names body := by
  induction module generalizing position with
  | nil => simp
  | cons stmt stmts ih =>
    cases position with
    | zero =>
      have hstmt := stmt.names_withBody_subset body
      rw [List.modify_zero_cons, Block.names_cons, Block.names_cons]
      grind
    | succ position =>
      have hlater := ih position
      rw [List.modify_succ_cons, Block.names_cons, Block.names_cons]
      grind

/-! ## The names of a copy -/

section Copy

variable {names : List String} {rule : CopyRule}

mutual

theorem Expr.names_rename_subset {f : String → String} (hf : ∀ name ∈ names, f name ∈ names) :
    ∀ e : Expr, e.names ⊆ names → (e.rename f).names ⊆ names
  | .literal value, _ => by
    rw [Expr.rename, Expr.names]
    exact List.nil_subset _
  | .ident name, h => by
    rw [Expr.names, List.cons_subset] at h
    rw [Expr.rename, Expr.names, List.cons_subset]
    exact ⟨hf name h.1, List.nil_subset _⟩
  | .instr op args, h => by
    rw [Expr.names] at h
    rw [Expr.rename, Expr.names]
    exact Expr.namesOfArgs_rename_subset hf args h
  | .call callee args, h => by
    rw [Expr.names, List.cons_subset] at h
    rw [Expr.rename, Expr.names, List.cons_subset]
    exact ⟨h.1, Expr.namesOfArgs_rename_subset hf args h.2⟩

theorem Expr.namesOfArgs_rename_subset {f : String → String}
    (hf : ∀ name ∈ names, f name ∈ names) :
    ∀ args : List Expr, Expr.namesOfArgs args ⊆ names →
      Expr.namesOfArgs (Expr.renameAll f args) ⊆ names
  | [], _ => List.nil_subset _
  | arg :: args, h => by
    rw [Expr.namesOfArgs, List.append_subset] at h
    rw [Expr.renameAll, Expr.namesOfArgs, List.append_subset]
    exact ⟨Expr.names_rename_subset hf arg h.1, Expr.namesOfArgs_rename_subset hf args h.2⟩

end

theorem mem_of_lookup {pairs : List (String × String)} {name value : String}
    (h : pairs.lookup name = some value) : value ∈ pairs.map Prod.snd := by
  obtain ⟨front, back, rfl, -⟩ := List.lookup_eq_some_iff.mp h
  simp

/-- What becomes of a name is the name itself or what it was replaced by. -/
theorem Copier.nameFor_mem {copier : Copier} (hrule : rule.substitution.map Prod.snd ⊆ names)
    (hcopier : copier.renames.map Prod.snd ⊆ names) :
    ∀ name ∈ names, copier.nameFor rule name ∈ names := by
  intro name hname
  rw [Copier.nameFor]
  cases hsubstituted : rule.substitution.lookup name with
  | some value => exact hrule (mem_of_lookup hsubstituted)
  | none =>
    cases hrenamed : copier.renames.lookup name with
    | some value => exact hcopier (mem_of_lookup hrenamed)
    | none => exact hname

mutual

/-- In the copy of a statement occur names of the statement, those that were put for others, and
those that it declares. -/
theorem Stmt.names_copy_subset (hrule : rule.substitution.map Prod.snd ⊆ names) :
    ∀ (stmt : Stmt) (copier : Copier), stmt.names ⊆ names →
      copier.renames.map Prod.snd ⊆ names →
      (stmt.copy rule copier).1.gather Stmt.introduced ⊆ names →
      (stmt.copy rule copier).1.names ⊆ names ∧
        (stmt.copy rule copier).2.renames.map Prod.snd ⊆ names
  | .expr value, copier, hstmt, hcopier, _ => by
    rw [Stmt.names] at hstmt
    rw [Stmt.copy_expr, Stmt.names]
    exact ⟨Expr.names_rename_subset (Copier.nameFor_mem hrule hcopier) value hstmt, hcopier⟩
  | .assign targets value, copier, hstmt, hcopier, _ => by
    rw [Stmt.names, List.append_subset] at hstmt
    rw [Stmt.copy_assign, Stmt.names, List.append_subset]
    have hname := Copier.nameFor_mem hrule hcopier
    refine ⟨⟨fun name hmem => ?_, Expr.names_rename_subset hname value hstmt.2⟩, hcopier⟩
    obtain ⟨target, htarget, rfl⟩ := List.mem_map.mp hmem
    exact hname target (hstmt.1 htarget)
  | .declare vars value, copier, hstmt, hcopier, hnew => by
    rw [Stmt.copy_declare, Stmt.gather_declare, Stmt.introduced] at hnew
    rw [Stmt.copy_declare, Stmt.names, List.append_subset]
    have hrenames : (copier.declare rule vars).2.renames.map Prod.snd ⊆ names := by
      rw [(copier.declare_spec vars).2.2, List.map_append, List.append_subset]
      refine ⟨fun name hmem => ?_, hcopier⟩
      obtain ⟨pair, hpair, rfl⟩ := List.mem_map.mp hmem
      exact hnew (List.of_mem_zip (List.mem_reverse.mp hpair)).2
    refine ⟨⟨hnew, ?_⟩, hrenames⟩
    cases value with
    | none => exact List.nil_subset _
    | some value =>
      rw [Stmt.names, List.append_subset, Expr.namesOfValue] at hstmt
      exact Expr.names_rename_subset (Copier.nameFor_mem hrule hrenames) value hstmt.2
  | .define function, copier, hstmt, hcopier, _ => by
    rw [Stmt.copy_define]
    exact ⟨hstmt, hcopier⟩
  | .branch condition body, copier, hstmt, hcopier, hnew => by
    rw [Stmt.names, List.append_subset] at hstmt
    rw [Stmt.copy_branch, Stmt.gather_branch, List.append_subset] at hnew
    rw [Stmt.copy_branch, Stmt.names, List.append_subset]
    obtain ⟨hbody, hrenames⟩ := Block.names_copy_subset hrule body copier hstmt.2 hcopier hnew.2
    exact ⟨⟨Expr.names_rename_subset (Copier.nameFor_mem hrule hcopier) condition hstmt.1, hbody⟩,
      hrenames⟩
  | .switch scrutinee cases, copier, hstmt, hcopier, hnew => by
    rw [Stmt.names, List.append_subset] at hstmt
    rw [Stmt.copy_switch, Stmt.gather_switch, List.append_subset] at hnew
    rw [Stmt.copy_switch, Stmt.names, List.append_subset]
    obtain ⟨hcases, hrenames⟩ := Case.names_copy_subset hrule cases copier hstmt.2 hcopier hnew.2
    exact ⟨⟨Expr.names_rename_subset (Copier.nameFor_mem hrule hcopier) scrutinee hstmt.1, hcases⟩,
      hrenames⟩
  | .loop init condition step body, copier, hstmt, hcopier, hnew => by
    simp only [Stmt.names, List.append_subset] at hstmt
    obtain ⟨⟨⟨hinit, hcondition⟩, hstep⟩, hbody⟩ := hstmt
    simp only [Stmt.copy_loop, Stmt.gather_loop, List.append_subset] at hnew
    obtain ⟨-, ⟨hnew₁, hnew₂⟩, hnew₃⟩ := hnew
    simp only [Stmt.copy_loop, Stmt.names, List.append_subset]
    obtain ⟨hinit', hrenames₁⟩ := Block.names_copy_subset hrule init copier hinit hcopier hnew₁
    obtain ⟨hstep', hrenames₂⟩ := Block.names_copy_subset hrule step _ hstep hrenames₁ hnew₂
    obtain ⟨hbody', hrenames₃⟩ := Block.names_copy_subset hrule body _ hbody hrenames₂ hnew₃
    exact ⟨⟨⟨⟨hinit', Expr.names_rename_subset (Copier.nameFor_mem hrule hrenames₁) condition
      hcondition⟩, hstep'⟩, hbody'⟩, hrenames₃⟩
  | .block body, copier, hstmt, hcopier, hnew => by
    rw [Stmt.names] at hstmt
    rw [Stmt.copy_block, Stmt.gather_block, List.append_subset] at hnew
    rw [Stmt.copy_block, Stmt.names]
    exact Block.names_copy_subset hrule body copier hstmt hcopier hnew.2

theorem Case.names_copy_subset (hrule : rule.substitution.map Prod.snd ⊆ names) :
    ∀ (cases : List Case) (copier : Copier), Case.namesOfCases cases ⊆ names →
      copier.renames.map Prod.snd ⊆ names →
      Case.gather Stmt.introduced (Case.copyCases rule cases copier).1 ⊆ names →
      Case.namesOfCases (Case.copyCases rule cases copier).1 ⊆ names ∧
        (Case.copyCases rule cases copier).2.renames.map Prod.snd ⊆ names
  | [], copier, _, hcopier, _ => by
    rw [Case.copyCases_nil]
    exact ⟨List.nil_subset _, hcopier⟩
  | ⟨value, body⟩ :: cases, copier, hcases, hcopier, hnew => by
    rw [Case.namesOfCases, List.append_subset] at hcases
    rw [Case.copyCases_cons, Case.gather_cons, List.append_subset] at hnew
    rw [Case.copyCases_cons, Case.namesOfCases, List.append_subset]
    obtain ⟨hbody, hrenames⟩ := Block.names_copy_subset hrule body copier hcases.1 hcopier hnew.1
    obtain ⟨hcases', hrenames'⟩ :=
      Case.names_copy_subset hrule cases _ hcases.2 hrenames hnew.2
    exact ⟨⟨hbody, hcases'⟩, hrenames'⟩

theorem Block.names_copy_subset (hrule : rule.substitution.map Prod.snd ⊆ names) :
    ∀ (block : Block) (copier : Copier), Block.names block ⊆ names →
      copier.renames.map Prod.snd ⊆ names →
      Block.gather Stmt.introduced (Block.copy rule block copier).1 ⊆ names →
      Block.names (Block.copy rule block copier).1 ⊆ names ∧
        (Block.copy rule block copier).2.renames.map Prod.snd ⊆ names
  | [], copier, _, hcopier, _ => by
    rw [Block.copy_nil]
    exact ⟨List.nil_subset _, hcopier⟩
  | stmt :: stmts, copier, hblock, hcopier, hnew => by
    rw [Block.names_cons, List.append_subset] at hblock
    rw [Block.copy_cons, Block.gather_cons, List.append_subset] at hnew
    rw [Block.copy_cons, Block.names_cons, List.append_subset]
    obtain ⟨hstmt, hrenames⟩ := Stmt.names_copy_subset hrule stmt copier hblock.1 hcopier hnew.1
    obtain ⟨hstmts, hrenames'⟩ :=
      Block.names_copy_subset hrule stmts _ hblock.2 hrenames hnew.2
    exact ⟨⟨hstmt, hstmts⟩, hrenames'⟩

end

end Copy

/-! ## The names of a run -/

/-- From one state of an inliner to a later one, only bodies of the module have changed and names
have been given out. Whatever occurs in the module then, or in `yield`, occurred in the module
before or is one of `sources`, unless it has been given out in between. -/
structure Inliner.Draws (before : Inliner) (sources : List String) (after : Inliner)
    (yield : List String) : Prop where
  shells : after.module.map (Stmt.withBody []) = before.module.map (Stmt.withBody [])
  names : ∃ given, Dispensed before.names given after.names ∧
    Block.names after.module ++ yield ⊆ Block.names before.module ++ sources ++ given

namespace Inliner.Draws

variable {before between after inliner : Inliner} {sources sources' yield yield' : List String}

/-- Neither the module nor the names in use have changed. -/
theorem of_eq (hmodule : after.module = before.module) (hnames : after.names = before.names)
    (hyield : yield ⊆ sources) : before.Draws sources after yield := by
  refine ⟨by rw [hmodule], [], hnames ▸ Dispensed.refl _, ?_⟩
  rw [hmodule, List.append_nil, List.append_subset]
  exact ⟨List.subset_append_left _ _, List.subset_append_of_subset_right _ hyield⟩

theorem refl (inliner : Inliner) (hyield : yield ⊆ sources) :
    inliner.Draws sources inliner yield :=
  of_eq rfl rfl hyield

/-- What has been drawn first can be drawn on later. -/
theorem trans (h : before.Draws sources between yield)
    (h' : between.Draws (sources ++ yield) after yield') : before.Draws sources after yield' := by
  obtain ⟨given, hgiven, hsub⟩ := h.names
  obtain ⟨later, hlater, hsub'⟩ := h'.names
  refine ⟨h'.shells.trans h.shells, given ++ later, hgiven.trans hlater, fun name hname => ?_⟩
  have hbetween := hsub' hname
  rw [List.append_subset] at hsub
  simp only [List.mem_append] at hbetween ⊢
  grind

theorem mono (h : before.Draws sources after yield) (hsources : sources ⊆ sources')
    (hyield : yield' ⊆ sources' ++ yield) : before.Draws sources' after yield' := by
  obtain ⟨given, hgiven, hsub⟩ := h.names
  refine ⟨h.shells, given, hgiven, ?_⟩
  rw [List.append_subset] at hsub ⊢
  grind

/-- A name is given out. -/
theorem fresh (inliner : Inliner) (sources : List String) (stem : String) :
    inliner.Draws sources { inliner with names := (inliner.names.fresh stem).2 }
      [(inliner.names.fresh stem).1] := by
  refine ⟨rfl, _, Dispensed.fresh inliner.names stem, ?_⟩
  rw [List.append_subset]
  exact ⟨List.subset_append_of_subset_left _ (List.subset_append_left _ _),
    List.subset_append_right _ _⟩

/-- A block is copied. -/
theorem copy {rule : CopyRule} {block : Block} (hnone : Block.gather Stmt.ownDefinition block = [])
    (hblock : Block.names block ⊆ Block.names inliner.module ++ sources)
    (hrule : rule.substitution.map Prod.snd ⊆ sources) :
    inliner.Draws sources
      { inliner with names := (Block.copy rule block { names := inliner.names }).2.names }
      (Block.names (Block.copy rule block { names := inliner.names }).1) := by
  refine ⟨rfl, _, @Block.dispensed_copy rule block { names := inliner.names } hnone, ?_⟩
  rw [List.append_subset]
  refine ⟨List.subset_append_of_subset_left _ (List.subset_append_left _ _), ?_⟩
  refine (Block.names_copy_subset ?_ block { names := inliner.names } ?_ (List.nil_subset _) ?_).1
  · exact List.subset_append_of_subset_left _ (List.subset_append_of_subset_right _ hrule)
  · exact List.subset_append_of_subset_left _ hblock
  · exact List.subset_append_right _ _

/-- A body is put in place. -/
theorem setBody (inliner : Inliner) (position : Nat) {body : Block}
    (hbody : Block.names body ⊆ sources) :
    inliner.Draws sources (inliner.setBody position body) [] := by
  have hkept : Kept inliner.module (some position) inliner (inliner.setBody position body) :=
    Kept.setBody ..
  refine ⟨hkept.shells, [], Dispensed.refl _, ?_⟩
  have hmodify := Block.names_modify_subset inliner.module position body
  rw [List.append_nil, List.append_nil, Inliner.setBody]
  grind

/-! ### Names in use -/

theorem isUsed (h : before.Draws sources after yield) {name : String}
    (hused : before.names.isUsed name = true) : after.names.isUsed name = true := by
  obtain ⟨given, hgiven, -⟩ := h.names
  exact hgiven.isUsed_of_isUsed hused

/-- Where all names to draw on are in use, those that are drawn are. -/
theorem known (h : before.Draws sources after yield)
    (hknown : ∀ name ∈ Block.names before.module ++ sources, before.names.isUsed name = true) :
    ∀ name ∈ Block.names after.module ++ yield, after.names.isUsed name = true := by
  intro name hname
  obtain ⟨given, hgiven, hsub⟩ := h.names
  rcases List.mem_append.mp (hsub hname) with hmem | hmem
  · exact h.isUsed (hknown name hmem)
  · exact hgiven.isUsed_of_mem hmem

/-- A name that is in use, but is none to draw on, does not get into the module. -/
theorem absent (h : before.Draws sources after yield) {name : String}
    (hused : before.names.isUsed name = true) (hmodule : name ∉ Block.names before.module)
    (hsources : name ∉ sources) : name ∉ Block.names after.module := by
  intro hname
  obtain ⟨given, hgiven, hsub⟩ := h.names
  have hgivenName := hgiven.not_mem_of_isUsed hused
  have hmem := hsub (List.mem_append_left _ hname)
  simp only [List.mem_append] at hmem
  tauto

/-! ### Functions -/

/-- The functions of the module have changed in their bodies only. -/
theorem functions (h : before.Draws sources after yield) {function : FunctionDef}
    (hmem : function ∈ Block.functions after.module) :
    ∃ body, { function with body } ∈ Block.functions before.module := by
  obtain ⟨i, hi⟩ := List.mem_iff_getElem?.mp (Block.mem_functions.mp hmem)
  obtain ⟨body, hbody⟩ := Block.getElem?_define_of_shells h.shells hi
  exact ⟨body, Block.mem_functions.mpr (List.mem_of_getElem? hbody)⟩

/-- Under a name is found what was found under it before, up to the body. -/
theorem function? (h : before.Draws sources after yield) {name : String}
    {found found' : FunctionDef} (hbefore : before.function? name = some found)
    (hafter : after.function? name = some found') : found' = { found with body := found'.body } := by
  have hfind : ∀ inliner : Inliner, (Block.functions (inliner.module.map (Stmt.withBody []))).find?
      (fun function => function.name = name) =
        (inliner.function? name).map fun function => { function with body := [] } := by
    intro inliner
    rw [Block.functions_shells, List.find?_map]
    rfl
  have hsame := hfind after
  rw [h.shells, hfind before, hbefore, hafter] at hsame
  cases found
  cases found'
  simpa [eq_comm] using hsame

end Inliner.Draws

end YulInline
