import YulInline.Proofs.Placements

/-!
# Expansions of scoped bodies

A copy of the body of a scoped function is that body renamed, the parameters to the variables that
hold the arguments. If nothing is held back, the expansion of a scoped body is scoped, given that
the bodies that were copied were scoped when they were. If something is held back, the body refers
to a variable that is declared nowhere in it.
-/

namespace YulInline

variable {module : Block} {caller : String} {taken : List String}

/-! ## Copies -/

theorem Embeds.of_map {f : String → String} {vars names vars' : List String}
    (hmap : vars.map f = names) (hnodup : names.Nodup) (hsub : names ⊆ vars') :
    Embeds f vars vars' := by
  refine ⟨fun name hname => hsub (hmap ▸ List.mem_map_of_mem hname), fun name hname other hother => ?_⟩
  exact List.inj_on_of_nodup_map (hmap ▸ hnodup) hname hother

theorem lookup_eq_some_of_mem {pairs : List (String × String)} {name value : String}
    (hnodup : (pairs.map Prod.fst).Nodup) (hmem : (name, value) ∈ pairs) :
    pairs.lookup name = some value := by
  induction pairs with
  | nil => cases hmem
  | cons pair pairs ih =>
    obtain ⟨key, entry⟩ := pair
    rw [List.map_cons, List.nodup_cons] at hnodup
    rcases List.mem_cons.mp hmem with heq | hlater
    · obtain ⟨rfl, rfl⟩ := Prod.mk.inj heq
      simp
    · have hne : (name == key) = false := by
        rw [beq_eq_false_iff_ne]
        rintro rfl
        have hkey : name ∈ pairs.map Prod.fst := List.mem_map_of_mem (f := Prod.fst) hlater
        exact hnodup.1 hkey
      rw [List.lookup_cons, hne]
      exact ih hnodup.2 hlater

/-- What is substituted in a copy are the parameters and the return variable. -/
theorem FunctionDef.keys_copyRule {callee : FunctionDef} {result : TypedName}
    {arguments : List String} {holder : String} (hreturns : callee.returns = [result])
    (hlength : arguments.length = callee.params.length) :
    ((callee.copyRule arguments result.name holder).substitution.map Prod.fst).Perm
      callee.interface := by
  rw [FunctionDef.interface, hreturns, List.map_singleton, FunctionDef.copyRule, List.map_cons,
    List.map_reverse, List.map_fst_zip (by simp [hlength])]
  exact ((List.reverse_perm _).cons _).trans (List.perm_append_singleton ..).symm

/-- What is put for others in a copy are the variables for the arguments and the result. -/
theorem FunctionDef.values_copyRule_subset (callee : FunctionDef) (arguments : List String)
    (result holder : String) :
    (callee.copyRule arguments result holder).substitution.map Prod.snd ⊆ arguments ++ [holder] := by
  intro value hvalue
  rw [FunctionDef.copyRule, List.map_cons, List.mem_cons] at hvalue
  refine List.mem_append.mpr (hvalue.symm.imp (fun hmem => ?_) List.mem_singleton.mpr)
  obtain ⟨pair, hpair, rfl⟩ := List.mem_map.mp hmem
  exact (List.of_mem_zip (List.mem_reverse.mp hpair)).2

/-- Parameters become the variables that hold the arguments, and the return variable becomes the one
that holds the result. -/
theorem FunctionDef.lookup_copyRule {callee : FunctionDef} {result : TypedName}
    {arguments : List String} {holder : String} (hnodup : callee.interface.Nodup)
    (hreturns : callee.returns = [result]) (hlength : arguments.length = callee.params.length) :
    (callee.interface.map fun name =>
      (callee.copyRule arguments result.name holder).substitution.lookup name) =
      (arguments ++ [holder]).map some := by
  set rule := callee.copyRule arguments result.name holder with hrule
  have hsubst : ∀ name value, (name, value) ∈ rule.substitution →
      rule.substitution.lookup name = some value := fun name value =>
    lookup_eq_some_of_mem ((FunctionDef.keys_copyRule hreturns hlength).nodup_iff.mpr hnodup)
  have hresult := hsubst result.name holder (List.mem_cons_self ..)
  rw [FunctionDef.interface, hreturns, List.map_singleton, List.map_append, List.map_append,
    List.map_singleton, List.map_singleton, hresult, List.append_cancel_right_eq]
  refine List.ext_getElem (by simp [hlength]) fun i hi hi' => ?_
  rw [List.getElem_map, List.getElem_map, List.getElem_map]
  refine hsubst _ _ (List.mem_cons_of_mem _ (List.mem_reverse.mpr ?_))
  have hlt : i < ((callee.params.map (·.name)).zip arguments).length := by
    rw [List.length_zip]
    simp only [List.length_map] at hi ⊢
    omega
  have hmem := List.getElem_mem hlt
  rwa [List.getElem_zip, List.getElem_map] at hmem

/-- The copy of the body of a scoped function is the body renamed, its parameters and its return
variable to those that hold the arguments and the result. -/
theorem FunctionDef.Copied.renamed {callee : FunctionDef} {result : TypedName}
    {arguments : List String} {holder : String} {copy : Block}
    (h : callee.Copied arguments result.name holder copy) (hscoped : callee.Scoped taken)
    (hreturns : callee.returns = [result]) (hlength : arguments.length = callee.params.length) :
    ∃ f g, Block.Renamed f callee.body copy g ∧
      callee.interface.map f = arguments ++ [holder] := by
  obtain ⟨hdefinitions, names, rfl⟩ := h
  obtain ⟨⟨hnodup, -⟩, hbody⟩ := hscoped
  set rule := callee.copyRule arguments result.name holder with hrule
  set f := ({ names } : Copier).nameFor rule with hf
  have hnone : ∀ name ∈ Block.gather Stmt.introduced callee.body,
      rule.substitution.lookup name = none := by
    intro name hname
    rw [List.lookup_eq_none_iff]
    rintro ⟨key, value⟩ hmem
    have hne : name ≠ key := by
      rintro rfl
      exact (hbody.new hdefinitions name hname).1
        ((FunctionDef.keys_copyRule hreturns hlength).subset
          (List.mem_map_of_mem (f := Prod.fst) hmem))
    simpa using hne
  obtain ⟨g, hrenamed, -⟩ := Block.copy_renamed callee.body { names } hbody hdefinitions hnone
    fun name _ => rfl
  refine ⟨f, g, hrenamed, ?_⟩
  have hlookup : (callee.interface.map fun name => rule.substitution.lookup name) =
      (arguments ++ [holder]).map some :=
    FunctionDef.lookup_copyRule hnodup hreturns hlength
  refine List.map_injective_iff.mpr (fun _ _ => Option.some.inj) ?_
  rw [← hlookup, List.map_map]
  refine List.map_congr_left fun name hname => ?_
  obtain ⟨value, -, hvalue⟩ := List.mem_map.mp (hlookup ▸ List.mem_map_of_mem hname)
  rw [Function.comp_apply, hf, Copier.nameFor, ← hvalue]
  rfl

/-! ## Expressions -/

mutual

/-- What is hoisted out of a scoped expression is scoped, and what remains of it is scoped behind
that. -/
theorem Expr.Expands.scoped {e e' : Expr} {hoisted : List Stmt} {t : Trace} :
    Expr.Expands module caller e hoisted e' t → ∀ {vars : List String}, e.vars ⊆ vars →
      (∀ expansion ∈ t.expansions, expansion.callee.Scoped taken) →
      Declarable taken vars t.names →
      Block.Scoped taken vars hoisted ∧ e'.vars ⊆ Block.declares hoisted ++ vars
  | .literal _, vars, hvars, _, _ => ⟨Block.scoped_nil, hvars⟩
  | .ident _, vars, hvars, _, _ => ⟨Block.scoped_nil, hvars⟩
  | .instr _ hargs, vars, hvars, hcopies, hnew => hargs.scoped hvars hcopies hnew
  | .kept _ _ _ hargs, vars, hvars, hcopies, hnew => hargs.scoped hvars hcopies hnew
  | @Expr.Expands.expanded _ _ callee result args arguments hoisted t holder copy hform hresult
      hcount hargs hcopy, vars, hvars, hcopies, hnew => by
    rw [Trace.expansions_append, List.forall_mem_append, List.forall_mem_singleton] at hcopies
    rw [Trace.names_append] at hnew
    obtain ⟨hhoisted, -⟩ := hargs.scoped hvars hcopies.1 hnew.left
    obtain ⟨hsublist, hdeclared, hlength⟩ := hargs.idents_spec
    obtain ⟨hreturns, -⟩ := FunctionDef.result?_eq_some.mp hresult
    obtain ⟨f, g, hrenamed, hmap⟩ :=
      hcopy.renamed hcopies.2 hreturns (hlength.trans hcount)
    have hlater := hnew.later hargs.declares_subset
    have hholder : Declarable taken (Block.declares hoisted ++ vars) [holder] :=
      @Declarable.left _ _ [holder] (Block.declared copy) hlater
    have hnames : (arguments ++ [holder]).Nodup :=
      hnew.1.sublist (hsublist.append ((List.nil_sublist _).cons_cons holder))
    have hembeds : Embeds f callee.interface (holder :: (Block.declares hoisted ++ vars)) := by
      refine Embeds.of_map hmap hnames fun name hname => ?_
      rcases List.mem_append.mp hname with hname | hname
      · exact List.mem_cons_of_mem _ (List.mem_append_left _ (hdeclared name hname))
      · rw [List.mem_singleton.mp hname]
        exact List.mem_cons_self ..
    have hcopy' := (hrenamed.scoped hcopies.2.2 hembeds
      (@Declarable.later _ _ [holder] (Block.declared copy) hlater [holder] (List.Subset.refl _))).1
    refine ⟨?_, ?_⟩
    · rw [Block.scoped_append, Block.scoped_cons, Block.scoped_cons, Stmt.Scoped, Stmt.Scoped]
      exact ⟨hhoisted, ⟨hholder, by simp [Expr.varsOfValue]⟩, hcopy', Block.scoped_nil⟩
    · simp [Expr.vars, Stmt.declares]

theorem Expr.ExpandsArgs.scoped {types : List String} {toFront : Bool} {args args' : List Expr}
    {hoisted : List Stmt} {t : Trace} :
    Expr.ExpandsArgs module caller types toFront args hoisted args' t →
      ∀ {vars : List String}, Expr.varsOfArgs args ⊆ vars →
      (∀ expansion ∈ t.expansions, expansion.callee.Scoped taken) →
      Declarable taken vars t.names →
      Block.Scoped taken vars hoisted ∧ Expr.varsOfArgs args' ⊆ Block.declares hoisted ++ vars
  | .nil _ _, vars, hvars, _, _ => ⟨Block.scoped_nil, hvars⟩
  | .stays harg hargs, vars, hvars, hcopies, hnew => by
    rw [Trace.expansions_append, List.forall_mem_append] at hcopies
    rw [Trace.names_append] at hnew
    obtain ⟨hvars, hvars'⟩ := List.append_subset.mp hvars
    obtain ⟨-, harg'⟩ := harg.scoped hvars hcopies.1 hnew.left
    obtain ⟨hhoisted, hargs'⟩ := hargs.scoped hvars' hcopies.2 hnew.right
    refine ⟨hhoisted, List.append_subset.mpr ⟨fun name hname => ?_, hargs'⟩⟩
    exact List.mem_append_right _ (harg' hname)
  | @Expr.ExpandsArgs.holder _ _ _ _ _ name _ _ hoisted later _ _ harg hfront hargs, vars, hvars,
      hcopies, hnew => by
    rw [Trace.expansions_append, List.forall_mem_append] at hcopies
    rw [Trace.names_append] at hnew
    obtain ⟨hvars, hvars'⟩ := List.append_subset.mp hvars
    obtain ⟨hlater, hargs'⟩ := hargs.scoped hvars' hcopies.2 hnew.right
    obtain ⟨hhoisted, -⟩ := harg.scoped (List.Subset.trans hvars (List.subset_append_right ..))
      hcopies.1 (hnew.earlier hargs.declares_subset)
    rw [Block.scoped_append, Block.declares_append]
    refine ⟨⟨hlater, hhoisted⟩, List.append_subset.mpr ⟨?_, fun other hother => ?_⟩⟩
    · rw [Expr.vars, List.cons_subset]
      simp [(harg.ident_mem hfront).2]
    · have := hargs' hother
      simp only [List.mem_append] at this ⊢
      tauto
  | @Expr.ExpandsArgs.bound _ _ _ _ _ arg' name _ _ hoisted later _ _ harg hmoved hargs, vars,
      hvars, hcopies, hnew => by
    rw [Trace.expansions_append, Trace.expansions_append, List.append_nil,
      List.forall_mem_append] at hcopies
    rw [Trace.names_append, Trace.names_append] at hnew
    obtain ⟨hvars, hvars'⟩ := List.append_subset.mp hvars
    obtain ⟨hlater, hargs'⟩ := hargs.scoped hvars' hcopies.2 hnew.right
    have hfront := hnew.earlier hargs.declares_subset
    obtain ⟨hhoisted, harg'⟩ := harg.scoped (List.Subset.trans hvars (List.subset_append_right ..))
      hcopies.1 hfront.left
    have hname := hfront.later harg.declares_subset
    rw [Block.scoped_append, Block.scoped_append, Block.scoped_cons, Stmt.Scoped]
    refine ⟨⟨hlater, hhoisted, ⟨hname, harg'⟩, Block.scoped_nil⟩,
      List.append_subset.mpr ⟨?_, fun other hother => ?_⟩⟩
    · simp [Expr.vars, Stmt.declares]
    · have := hargs' hother
      simp only [Block.declares_append, List.mem_append] at this ⊢
      tauto

end

/-! ## Statements -/

/-- A statement with what was hoisted out of it in front of a scoped block: the hoisted names may
come into scope there, since they are new. -/
theorem Block.scoped_expanded {stmt stmt' : Stmt} {hoisted stmts stmts' : List Stmt}
    {vars names names' : List String} (hhoisted : Block.declares hoisted ⊆ names)
    (hdeclares : stmt'.declares = stmt.declares)
    (hstmt : Block.Scoped taken vars hoisted ∧ stmt'.Scoped taken (Block.declares hoisted ++ vars))
    (hscoped : Block.Scoped taken (stmt.declares ++ vars) stmts)
    (hnew : Declarable taken vars (names ++ names'))
    (hapart : ∀ name ∈ names ++ names',
      name ∉ stmt.gather Stmt.introduced ++ Block.gather Stmt.introduced stmts)
    (hstmts : ∀ {vars : List String}, Block.Scoped taken vars stmts →
      Declarable taken vars names' → Block.Scoped taken vars stmts') :
    Block.Scoped taken vars (hoisted ++ stmt' :: stmts') := by
  rw [Block.scoped_append, Block.scoped_cons, hdeclares]
  refine ⟨hstmt.1, hstmt.2, hstmts (hscoped.weaken ?_ fun name hname => ?_) ?_⟩
  · intro name hname
    simp only [List.mem_append] at hname ⊢
    tauto
  · simp only [List.mem_append] at hname hapart ⊢
    rcases hname with hname | hname | hname
    · exact Or.inl (Or.inl hname)
    · exact Or.inr fun hmem => hapart name (Or.inl (hhoisted hname)) (Or.inr hmem)
    · exact Or.inl (Or.inr hname)
  · refine (hnew.later hhoisted).weaken fun name hname hmem => ?_
    exact hapart name (List.mem_append_right _ hname)
      (List.mem_append_left _ (stmt.declares_sublist_gather.subset hmem))

mutual

/-- If nothing is held back, what is hoisted out of a scoped statement is scoped, and so is, behind
that, what the statement becomes. -/
theorem Stmt.Expands.scoped {stmt stmt' : Stmt} {hoisted : List Stmt} {t : Trace} :
    Stmt.Expands module caller stmt hoisted stmt' t → t.held = [] → ∀ {vars : List String},
      stmt.Scoped taken vars → (∀ expansion ∈ t.expansions, expansion.callee.Scoped taken) →
      Declarable taken vars t.names → (∀ name ∈ t.names, name ∉ stmt.gather Stmt.introduced) →
      Block.Scoped taken vars hoisted ∧ stmt'.Scoped taken (Block.declares hoisted ++ vars)
  | .untouched _, _, vars, hscoped, _, _, _ => ⟨Block.scoped_nil, hscoped⟩
  | .expr hvalue, _, vars, hscoped, hcopies, hnew, _ => by
    rw [Stmt.Scoped] at hscoped ⊢
    exact hvalue.scoped hscoped hcopies hnew
  | .assign targets hvalue, _, vars, hscoped, hcopies, hnew, _ => by
    rw [Stmt.Scoped] at hscoped ⊢
    obtain ⟨hhoisted, hvars⟩ := hvalue.scoped hscoped.2 hcopies hnew
    exact ⟨hhoisted, List.Subset.trans hscoped.1 (List.subset_append_right ..), hvars⟩
  | .empty _, _, vars, hscoped, _, _, _ => ⟨Block.scoped_nil, hscoped⟩
  | .declare names hvalue, _, vars, hscoped, hcopies, hnew, hapart => by
    rw [Stmt.Scoped] at hscoped ⊢
    rw [Stmt.gather_declare] at hapart
    obtain ⟨hhoisted, hvars⟩ := hvalue.scoped hscoped.2 hcopies hnew
    refine ⟨hhoisted, hscoped.1.weaken fun name hname hmem => ?_, hvars⟩
    exact hapart name (hvalue.declares_subset hmem) hname
  | @Stmt.Expands.branch _ _ _ _ body _ hoisted t t' hcondition hbody, h, vars, hscoped, hcopies,
      hnew, hapart => by
    rw [Stmt.Scoped] at hscoped ⊢
    obtain ⟨-, hheld⟩ := List.append_eq_nil_iff.mp h
    rw [Trace.expansions_append, List.forall_mem_append] at hcopies
    rw [Trace.names_append] at hnew hapart
    simp only [Stmt.gather_branch, Stmt.introduced, List.nil_append,
      List.forall_mem_append] at hapart
    obtain ⟨hhoisted, hvars⟩ := hcondition.scoped hscoped.1 hcopies.1 hnew.left
    have hlater := hnew.later hcondition.declares_subset
    have hbody' : Block.Scoped taken (Block.declares hoisted ++ vars) body :=
      hscoped.2.weaken (List.subset_append_right ..) fun name hname =>
        (List.mem_append.mp hname).symm.imp_right fun hmem =>
          hapart.1 name (hcondition.declares_subset hmem)
    exact ⟨hhoisted, hvars, hbody.scoped hheld hbody' hcopies.2 hlater hapart.2⟩
  | @Stmt.Expands.switch _ _ _ _ cases _ hoisted t t' hscrutinee hcases, h, vars, hscoped, hcopies,
      hnew, hapart => by
    rw [Stmt.Scoped] at hscoped ⊢
    obtain ⟨-, hheld⟩ := List.append_eq_nil_iff.mp h
    rw [Trace.expansions_append, List.forall_mem_append] at hcopies
    rw [Trace.names_append] at hnew hapart
    simp only [Stmt.gather_switch, Stmt.introduced, List.nil_append,
      List.forall_mem_append] at hapart
    obtain ⟨hhoisted, hvars⟩ := hscrutinee.scoped hscoped.1 hcopies.1 hnew.left
    have hlater := hnew.later hscrutinee.declares_subset
    have hcases' : Case.Scoped taken (Block.declares hoisted ++ vars) cases :=
      hscoped.2.weaken (List.subset_append_right ..) fun name hname =>
        (List.mem_append.mp hname).symm.imp_right fun hmem =>
          hapart.1 name (hscrutinee.declares_subset hmem)
    exact ⟨hhoisted, hvars, hcases.scoped hheld hcases' hcopies.2 hlater hapart.2⟩
  | @Stmt.Expands.loop _ _ condition init init' step _ body _ t t' t'' hinit hstep hbody, h, vars,
      hscoped, hcopies, hnew, hapart => by
    rw [Stmt.Scoped] at hscoped ⊢
    obtain ⟨h, hheld₃⟩ := List.append_eq_nil_iff.mp h
    obtain ⟨hheld₁, hheld₂⟩ := List.append_eq_nil_iff.mp h
    simp only [Trace.expansions_append, List.forall_mem_append] at hcopies
    rw [Trace.names_append, Trace.names_append] at hnew hapart
    simp only [Stmt.gather_loop, Stmt.introduced, List.nil_append] at hapart
    obtain ⟨hscoped₁, hcondition, hscoped₂, hscoped₃⟩ := hscoped
    obtain ⟨hkept, hmore⟩ := hinit.declares
    have hinit' := hinit.scoped hheld₁ hscoped₁ hcopies.1.1 hnew.left.left fun name hname hmem =>
      hapart name (by simp [hname]) (by simp [hmem])
    have hsub : Block.declares init ++ vars ⊆ Block.declares init' ++ vars :=
      List.append_subset.mpr ⟨List.Subset.trans hkept (List.subset_append_left ..),
        List.subset_append_right ..⟩
    -- What the first part declares now is what it declared, and names that were given out for it.
    have hfrom : ∀ name ∈ Block.declares init' ++ vars,
        name ∈ Block.declares init ++ vars ∨ name ∈ t.names := by
      intro name hname
      rcases List.mem_append.mp hname with hname | hname
      · have := List.mem_append.mp (hmore hname)
        simp only [List.mem_append]
        tauto
      · exact Or.inl (List.mem_append_right _ hname)
    have hdeclares : ∀ name ∈ Block.declares init, name ∈ Block.gather Stmt.introduced init :=
      fun name hname => Block.declares_subset_declared init hname
    have hlater : ∀ {names : List String}, Declarable taken (t.names ++ vars) names →
        (∀ name ∈ names, name ∉ Block.gather Stmt.introduced init) →
        Declarable taken (Block.declares init' ++ vars) names := by
      intro names hnames hinit
      refine ⟨hnames.1, fun name hname => ⟨fun hmem => ?_, (hnames.2 name hname).2⟩⟩
      have hvars := (hnames.2 name hname).1
      rw [List.mem_append, not_or] at hvars
      rcases hfrom name hmem with hmem | hmem
      · rcases List.mem_append.mp hmem with hmem | hmem
        · exact hinit name hname (hdeclares name hmem)
        · exact hvars.2 hmem
      · exact hvars.1 hmem
    have hstep' : Block.Scoped taken (Block.declares init' ++ vars) step :=
      hscoped₂.weaken hsub fun name hname => (hfrom name hname).imp_right fun hmem hstep =>
        hapart name (by simp [hmem]) (by simp [hstep])
    have hbody' : Block.Scoped taken (Block.declares init' ++ vars) body :=
      hscoped₃.weaken hsub fun name hname => (hfrom name hname).imp_right fun hmem hbody =>
        hapart name (by simp [hmem]) (by simp [hbody])
    refine ⟨Block.scoped_nil, hinit', List.Subset.trans hcondition hsub, ?_, ?_⟩
    · refine hstep.scoped hheld₂ hstep' hcopies.1.2 (hlater ?_ ?_) ?_
      · exact hnew.left.later (List.Subset.refl _)
      · exact fun name hname hmem => hapart name (by simp [hname]) (by simp [hmem])
      · exact fun name hname hmem => hapart name (by simp [hname]) (by simp [hmem])
    · refine hbody.scoped hheld₃ hbody' hcopies.2 (hlater ?_ ?_) ?_
      · exact hnew.later (List.subset_append_left ..)
      · exact fun name hname hmem => hapart name (by simp [hname]) (by simp [hmem])
      · exact fun name hname hmem => hapart name (by simp [hname]) (by simp [hmem])
  | .block hbody, h, vars, hscoped, hcopies, hnew, hapart => by
    rw [Stmt.Scoped] at hscoped ⊢
    rw [Stmt.gather_block] at hapart
    exact ⟨Block.scoped_nil, hbody.scoped h hscoped hcopies hnew hapart⟩

theorem Case.Expands.scoped {cases cases' : List Case} {t : Trace} :
    Case.Expands module caller cases cases' t → t.held = [] → ∀ {vars : List String},
      Case.Scoped taken vars cases → (∀ expansion ∈ t.expansions, expansion.callee.Scoped taken) →
      Declarable taken vars t.names → (∀ name ∈ t.names, name ∉ Case.gather Stmt.introduced cases) →
      Case.Scoped taken vars cases'
  | .nil, _, vars, hscoped, _, _, _ => hscoped
  | .cons _ hbody hcases, h, vars, hscoped, hcopies, hnew, hapart => by
    rw [Case.Scoped] at hscoped ⊢
    obtain ⟨hheld, hheld'⟩ := List.append_eq_nil_iff.mp h
    rw [Trace.expansions_append, List.forall_mem_append] at hcopies
    rw [Trace.names_append] at hnew hapart
    rw [Case.gather_cons] at hapart
    exact ⟨hbody.scoped hheld hscoped.1 hcopies.1 hnew.left fun name hname hmem =>
        hapart name (List.mem_append_left _ hname) (List.mem_append_left _ hmem),
      hcases.scoped hheld' hscoped.2 hcopies.2 hnew.right fun name hname hmem =>
        hapart name (List.mem_append_right _ hname) (List.mem_append_right _ hmem)⟩

/-- If nothing is held back, the expansion of a scoped block is scoped. -/
theorem Block.Expands.scoped {block block' : Block} {t : Trace} :
    Block.Expands module caller block block' t → t.held = [] → ∀ {vars : List String},
      Block.Scoped taken vars block → (∀ expansion ∈ t.expansions, expansion.callee.Scoped taken) →
      Declarable taken vars t.names →
      (∀ name ∈ t.names, name ∉ Block.gather Stmt.introduced block) →
      Block.Scoped taken vars block'
  | .nil, _, vars, _, _, _, _ => Block.scoped_nil
  | .cons hstmt hstmts, h, vars, hscoped, hcopies, hnew, hapart => by
    rw [Block.scoped_cons] at hscoped
    obtain ⟨hheld, hheld'⟩ := List.append_eq_nil_iff.mp h
    rw [Trace.expansions_append, List.forall_mem_append] at hcopies
    rw [Trace.names_append] at hnew hapart
    rw [Block.gather_cons] at hapart
    have hstmt' := hstmt.scoped hheld hscoped.1 hcopies.1 hnew.left fun name hname hmem =>
      hapart name (List.mem_append_left _ hname) (List.mem_append_left _ hmem)
    refine Block.scoped_expanded hstmt.declares_hoisted hstmt.declares hstmt' hscoped.2 hnew hapart
      fun hscoped' hnew' => hstmts.scoped hheld' hscoped' hcopies.2 hnew' fun name hname hmem => ?_
    exact hapart name (List.mem_append_right _ hname) (List.mem_append_right _ hmem)
  | @Block.Expands.hold _ _ _ _ hoisted _ _ _ _ hstmt hstmts, h, vars, hscoped, hcopies, hnew,
      hapart => by
    rw [Block.scoped_cons] at hscoped
    obtain ⟨h, hheld'⟩ := List.append_eq_nil_iff.mp h
    obtain ⟨hheld, hhoisted⟩ := List.append_eq_nil_iff.mp h
    obtain rfl : hoisted = [] := hhoisted
    simp only [Trace.expansions_append, List.forall_mem_append] at hcopies
    rw [Trace.names_append, Trace.names_append, Trace.onHold, List.append_nil] at hnew hapart
    rw [Block.gather_cons] at hapart
    have hstmt' := hstmt.scoped hheld hscoped.1 hcopies.1.1 hnew.left fun name hname hmem =>
      hapart name (List.mem_append_left _ hname) (List.mem_append_left _ hmem)
    refine Block.scoped_expanded hstmt.declares_hoisted hstmt.declares hstmt' hscoped.2 hnew hapart
      fun hscoped' hnew' => hstmts.scoped hheld' hscoped' hcopies.2 hnew' fun name hname hmem => ?_
    exact hapart name (List.mem_append_right _ hname) (List.mem_append_right _ hmem)

end

/-! ## What is held back -/

/-- If something is hoisted out of a statement, what the statement becomes refers to a variable that
is declared there. -/
theorem Stmt.Expands.refers {stmt stmt' : Stmt} {hoisted : List Stmt} {t : Trace}
    (h : Stmt.Expands module caller stmt hoisted stmt' t) (hhoisted : hoisted ≠ []) :
    ∃ name ∈ stmt'.gather Stmt.ownMentions, name ∈ Block.declares hoisted := by
  cases h with
  | expr hvalue =>
    rw [Stmt.gather_expr]
    exact hvalue.refers hhoisted
  | assign targets hvalue =>
    obtain ⟨name, hname, hdeclared⟩ := hvalue.refers hhoisted
    rw [Stmt.gather_assign]
    exact ⟨name, List.mem_append_right _ hname, hdeclared⟩
  | declare vars hvalue =>
    rw [Stmt.gather_declare]
    exact hvalue.refers hhoisted
  | branch hcondition hbody =>
    obtain ⟨name, hname, hdeclared⟩ := hcondition.refers hhoisted
    rw [Stmt.gather_branch]
    exact ⟨name, List.mem_append_left _ hname, hdeclared⟩
  | switch hscrutinee hcases =>
    obtain ⟨name, hname, hdeclared⟩ := hscrutinee.refers hhoisted
    rw [Stmt.gather_switch]
    exact ⟨name, List.mem_append_left _ hname, hdeclared⟩
  | _ => exact absurd rfl hhoisted

mutual

/-- If something is held back in a statement, the statement refers to a variable that is declared
there, and that was given out. -/
theorem Stmt.Expands.dangling {stmt stmt' : Stmt} {hoisted : List Stmt} {t : Trace} :
    Stmt.Expands module caller stmt hoisted stmt' t → t.held ≠ [] →
      ∃ name ∈ stmt'.gather Stmt.ownMentions, name ∈ Block.declares t.held ∧ name ∈ t.names
  | .untouched _, h => absurd rfl h
  | .expr hvalue, h => absurd hvalue.trace.1 h
  | .assign _ hvalue, h => absurd hvalue.trace.1 h
  | .empty _, h => absurd rfl h
  | .declare _ hvalue, h => absurd hvalue.trace.1 h
  | .branch hcondition hbody, h => by
    rw [Trace.held_append, hcondition.trace.1, List.nil_append] at h
    obtain ⟨name, hname, hheld, hgiven⟩ := hbody.dangling h
    rw [Stmt.gather_branch, Trace.held_append, Trace.names_append, hcondition.trace.1]
    exact ⟨name, List.mem_append_right _ hname, hheld, List.mem_append_right _ hgiven⟩
  | .switch hscrutinee hcases, h => by
    rw [Trace.held_append, hscrutinee.trace.1, List.nil_append] at h
    obtain ⟨name, hname, hheld, hgiven⟩ := hcases.dangling h
    rw [Stmt.gather_switch, Trace.held_append, Trace.names_append, hscrutinee.trace.1]
    exact ⟨name, List.mem_append_right _ hname, hheld, List.mem_append_right _ hgiven⟩
  | @Stmt.Expands.loop _ _ _ _ _ _ _ _ _ t t' t'' hinit hstep hbody, h => by
    simp only [Stmt.gather_loop, Trace.held_append, Trace.names_append, Block.declares_append,
      List.mem_append]
    by_cases h₁ : t.held = []
    · by_cases h₂ : t'.held = []
      · rw [Trace.held_append, Trace.held_append, h₁, h₂, List.nil_append, List.nil_append] at h
        obtain ⟨name, hname, hheld, hgiven⟩ := hbody.dangling h
        exact ⟨name, Or.inr (Or.inr hname), Or.inr hheld, Or.inr hgiven⟩
      · obtain ⟨name, hname, hheld, hgiven⟩ := hstep.dangling h₂
        exact ⟨name, Or.inr (Or.inl (Or.inr hname)), Or.inl (Or.inr hheld), Or.inl (Or.inr hgiven)⟩
    · obtain ⟨name, hname, hheld, hgiven⟩ := hinit.dangling h₁
      exact ⟨name, Or.inr (Or.inl (Or.inl hname)), Or.inl (Or.inl hheld), Or.inl (Or.inl hgiven)⟩
  | .block hbody, h => by
    rw [Stmt.gather_block]
    exact hbody.dangling h

theorem Case.Expands.dangling {cases cases' : List Case} {t : Trace} :
    Case.Expands module caller cases cases' t → t.held ≠ [] →
      ∃ name ∈ Case.gather Stmt.ownMentions cases',
        name ∈ Block.declares t.held ∧ name ∈ t.names
  | .nil, h => absurd rfl h
  | @Case.Expands.cons _ _ _ _ _ _ _ t t' hbody hcases, h => by
    simp only [Case.gather_cons, Trace.held_append, Trace.names_append, Block.declares_append,
      List.mem_append]
    by_cases h₁ : t.held = []
    · rw [Trace.held_append, h₁, List.nil_append] at h
      obtain ⟨name, hname, hheld, hgiven⟩ := hcases.dangling h
      exact ⟨name, Or.inr hname, Or.inr hheld, Or.inr hgiven⟩
    · obtain ⟨name, hname, hheld, hgiven⟩ := hbody.dangling h₁
      exact ⟨name, Or.inl hname, Or.inl hheld, Or.inl hgiven⟩

theorem Block.Expands.dangling {block block' : Block} {t : Trace} :
    Block.Expands module caller block block' t → t.held ≠ [] →
      ∃ name ∈ Block.gather Stmt.ownMentions block',
        name ∈ Block.declares t.held ∧ name ∈ t.names
  | .nil, h => absurd rfl h
  | @Block.Expands.cons _ _ _ _ _ _ _ t t' hstmt hstmts, h => by
    simp only [Block.gather_append, Block.gather_cons, Trace.held_append, Trace.names_append,
      Block.declares_append, List.mem_append]
    by_cases h₁ : t.held = []
    · rw [Trace.held_append, h₁, List.nil_append] at h
      obtain ⟨name, hname, hheld, hgiven⟩ := hstmts.dangling h
      exact ⟨name, Or.inr (Or.inr hname), Or.inr hheld, Or.inr hgiven⟩
    · obtain ⟨name, hname, hheld, hgiven⟩ := hstmt.dangling h₁
      exact ⟨name, Or.inr (Or.inl hname), Or.inl hheld, Or.inl hgiven⟩
  | @Block.Expands.hold _ _ _ _ hoisted _ _ t t' hstmt hstmts, h => by
    simp only [Block.gather_cons, Trace.onHold, Trace.held_append, Trace.names_append,
      Block.declares_append, List.mem_append]
    by_cases h₁ : t.held = []
    · by_cases h₂ : hoisted = []
      · rw [Trace.held_append, Trace.held_append, h₁, Trace.onHold, h₂, List.nil_append,
          List.nil_append] at h
        obtain ⟨name, hname, hheld, hgiven⟩ := hstmts.dangling h
        exact ⟨name, Or.inr hname, Or.inr hheld, Or.inr hgiven⟩
      · obtain ⟨name, hname, hheld⟩ := hstmt.refers h₂
        exact ⟨name, Or.inl hname, Or.inl (Or.inr hheld),
          Or.inl (Or.inl (hstmt.declares_hoisted hheld))⟩
    · obtain ⟨name, hname, hheld, hgiven⟩ := hstmt.dangling h₁
      exact ⟨name, Or.inl hname, Or.inl (Or.inl hheld), Or.inl (Or.inl hgiven)⟩

end

end YulInline
