import YulInline.Proofs.NameIndependence

/-!
# The names in use after inlining

When a module has been inlined, the supply knows what it knew before and the names of the result,
and nothing else. What it has given out is declared in the result, so that no name is lost; and a
name that occurs in the result was there at the start or has been given out. The latter is read off
a run in step with itself: the names of trees that are alike correspond to each other, and names
that correspond to each other are in use.
-/

namespace YulInline

variable {twins : Twins}

/-! ## The names of alike trees -/

theorem Twins.Names.subset {names names' : List String} (h : twins.Names names names') :
    names ⊆ twins.map Prod.fst := by
  induction h with
  | nil => exact List.nil_subset _
  | cons hname _ ih => exact List.cons_subset.mpr ⟨List.mem_map_of_mem hname, ih⟩

theorem TypedName.Alike.names_subset {vars vars' : List TypedName}
    (h : List.Forall₂ (TypedName.Alike twins) vars vars') :
    vars.map (·.name) ⊆ twins.map Prod.fst := by
  induction h with
  | nil => exact List.nil_subset _
  | cons hvar _ ih => exact List.cons_subset.mpr ⟨List.mem_map_of_mem hvar.name, ih⟩

theorem FunctionDef.OwnTwins.vars_subset {function : FunctionDef} (h : function.OwnTwins twins) :
    function.params.map (·.name) ++ function.returns.map (·.name) ⊆ twins.map Prod.fst := by
  rw [← List.map_append]
  intro name hname
  obtain ⟨var, hvar, rfl⟩ := List.mem_map.mp hname
  exact List.mem_map_of_mem (h.2 var hvar)

mutual

/-- Every name in a tree corresponds to one in each tree that is like it. -/
theorem Expr.Alike.names_subset {e e' : Expr} :
    Expr.Alike twins e e' → e.names ⊆ twins.map Prod.fst
  | .literal _ => by
    rw [Expr.names]
    exact List.nil_subset _
  | .ident hname => by
    rw [Expr.names]
    exact List.cons_subset.mpr ⟨List.mem_map_of_mem hname, List.nil_subset _⟩
  | .instr _ hargs => by
    rw [Expr.names]
    exact hargs.names_subset
  | .call hcallee hargs => by
    rw [Expr.names, List.cons_subset]
    exact ⟨List.mem_map_of_mem hcallee, hargs.names_subset⟩

theorem Expr.AlikeArgs.names_subset {args args' : List Expr} :
    Expr.AlikeArgs twins args args' → Expr.namesOfArgs args ⊆ twins.map Prod.fst
  | .nil => List.nil_subset _
  | .cons harg hargs => by
    rw [Expr.namesOfArgs, List.append_subset]
    exact ⟨harg.names_subset, hargs.names_subset⟩

end

mutual

theorem Stmt.Alike.names_subset {stmt stmt' : Stmt} :
    Stmt.Alike twins stmt stmt' → stmt.names ⊆ twins.map Prod.fst
  | .expr hvalue => by
    rw [Stmt.names]
    exact hvalue.names_subset
  | .assign htargets hvalue => by
    rw [Stmt.names, List.append_subset]
    exact ⟨htargets.subset, hvalue.names_subset⟩
  | .empty hvars => by
    rw [Stmt.names, List.append_subset]
    exact ⟨TypedName.Alike.names_subset hvars, List.nil_subset _⟩
  | .declare hvars hvalue => by
    rw [Stmt.names, List.append_subset]
    exact ⟨TypedName.Alike.names_subset hvars, hvalue.names_subset⟩
  | @Stmt.Alike.define _ ⟨_, _, _, _⟩ _ hown hbody => by
    rw [Stmt.names, List.cons_subset, List.append_subset]
    exact ⟨List.mem_map_of_mem hown.1, hown.vars_subset, hbody.names_subset⟩
  | .branch hcondition hbody => by
    rw [Stmt.names, List.append_subset]
    exact ⟨hcondition.names_subset, hbody.names_subset⟩
  | .switch hscrutinee hcases => by
    rw [Stmt.names, List.append_subset]
    exact ⟨hscrutinee.names_subset, hcases.names_subset⟩
  | .loop hinit hcondition hstep hbody => by
    simp only [Stmt.names, List.append_subset]
    exact ⟨⟨⟨hinit.names_subset, hcondition.names_subset⟩, hstep.names_subset⟩, hbody.names_subset⟩
  | .block hbody => by
    rw [Stmt.names]
    exact hbody.names_subset

theorem Case.Alike.names_subset {cases cases' : List Case} :
    Case.Alike twins cases cases' → Case.namesOfCases cases ⊆ twins.map Prod.fst
  | .nil => List.nil_subset _
  | .cons _ hbody hcases => by
    rw [Case.namesOfCases, List.append_subset]
    exact ⟨hbody.names_subset, hcases.names_subset⟩

theorem Block.Alike.names_subset {block block' : Block} :
    Block.Alike twins block block' → Block.names block ⊆ twins.map Prod.fst
  | .nil => List.nil_subset _
  | .cons hstmt hstmts => by
    rw [Block.names, List.append_subset]
    exact ⟨hstmt.names_subset, hstmts.names_subset⟩

end

/-! ## What is in use in the end -/

variable {module result : Block} {names after : NameSupply}

/-- The names of the result are in use, if those of the module were. -/
theorem inline_names_used (hknown : ∀ name ∈ Block.names module, names.isUsed name = true)
    (hinline : inline module names = .ok (result, after)) :
    ∀ name ∈ Block.names result, after.isUsed name = true := by
  have hmodule : Block.Alike (Twins.self (Block.names module)) module module :=
    Block.alike_self module fun _ => Twins.mem_self
  have halike := inline_alike hmodule (Twins.Fit.self hknown hknown)
  rw [hinline] at halike
  cases halike with
  | ok _ hrel =>
    obtain ⟨hresult, hfit⟩ := hrel
    intro name hname
    obtain ⟨p, hp, rfl⟩ := List.mem_map.mp (hresult.names_subset hname)
    exact hfit.used p hp

/-- After inlining exactly those names are in use that were in use before or occur in the result. -/
theorem inline_isUsed_iff (hknown : ∀ name ∈ Block.names module, names.isUsed name = true)
    (hinline : inline module names = .ok (result, after)) (name : String) :
    after.isUsed name = true ↔ names.isUsed name = true ∨ name ∈ Block.nameSet result := by
  obtain ⟨fresh, hfresh, hdeclared⟩ := inline_declared hinline
  rw [Block.mem_nameSet]
  constructor
  · intro hused
    rcases (hfresh.used name).mp hused with hmem | hbefore
    · -- A name that was given out is declared in the result.
      have hmem' : name ∈ Block.declared result :=
        hdeclared.symm.subset (List.mem_append_right _ hmem)
      exact Or.inr (Block.introduced_subset_names result hmem')
    · exact Or.inl hbefore
  · rintro (hbefore | hmem)
    · exact hfresh.isUsed_of_isUsed hbefore
    · exact inline_names_used hknown hinline name hmem

theorem inline_isUsed_iff_identityCall :
    ∃ after, (∀ name ∈ Block.names identityCall,
        (NameSupply.ofList ["f", "x", "r", "y", "q"]).isUsed name = true) ∧
      inline identityCall (.ofList ["f", "x", "r", "y", "q"]) = .ok (identityCallInlined, after) ∧
      ∀ name, after.isUsed name = true ↔
        (NameSupply.ofList ["f", "x", "r", "y", "q"]).isUsed name = true ∨
          name ∈ Block.nameSet identityCallInlined := by
  have hknown : ∀ name ∈ Block.names identityCall,
      (NameSupply.ofList ["f", "x", "r", "y", "q"]).isUsed name = true := by decide +kernel
  have hrun : (inline identityCall (.ofList ["f", "x", "r", "y", "q"])).map Prod.fst =
      .ok identityCallInlined := by rfl
  cases hinline : inline identityCall (.ofList ["f", "x", "r", "y", "q"]) with
  | error error =>
    rw [hinline] at hrun
    cases hrun
  | ok output =>
    rw [hinline] at hrun
    obtain ⟨result, after⟩ := output
    obtain rfl : result = identityCallInlined := Except.ok.inj hrun
    exact ⟨after, hknown, rfl, inline_isUsed_iff hknown hinline⟩

end YulInline
