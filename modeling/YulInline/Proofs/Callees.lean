import YulInline.Proofs.ScopePreservation
import YulInline.Proofs.WellFormed

/-!
# Where the copies come from

If no two functions of a module call each other, every body that is copied is expanded completely by
then, and is the body of a function of the result. The copies in it are smaller, so that what holds
of a function of the result whenever it holds of the functions that were copied into it holds of all
of them (`Inliner.Finished.induction`).
-/

namespace YulInline

variable {module : Block}

/-! ## Functions that call each other -/

/-- No two functions of a module lead to each other by calls outside the conditions of loops. -/
def Block.NoMutualRecursion (module : Block) : Prop :=
  ∀ f g, module.Reaches f g → module.Reaches g f → f = g

/-- It is enough that functions can be ranked such that each calls itself and lower ones only. -/
theorem Block.noMutualRecursion_of_rank (rank : String → Nat)
    (h : ∀ function ∈ Block.functions module, ∀ call ∈ Block.calls function.body,
      call.1 = function.name ∨ rank call.1 < rank function.name) : module.NoMutualRecursion := by
  have hlower : ∀ f g, module.Reaches f g → f = g ∨ rank g < rank f := by
    intro f g hreach
    induction hreach with
    | refl => exact Or.inl rfl
    | tail _ hcalls ih =>
      obtain ⟨function, hmem, rfl, hcallee⟩ := hcalls
      obtain ⟨call, hcall, rfl⟩ := List.mem_map.mp hcallee
      rcases h function hmem call hcall with heq | hlt
      · rwa [heq]
      · rcases ih with rfl | hlt'
        · exact Or.inr hlt
        · exact Or.inr (hlt.trans hlt')
  intro f g hfg hgf
  rcases hlower f g hfg with heq | hlt
  · exact heq
  · rcases hlower g f hgf with heq | hlt'
    · exact heq.symm
    · omega

/-- The function of a given name, in a module where names are different. -/
theorem Block.function?_eq_some (hnodup : module.functionNames.Nodup) {name : String}
    {function : FunctionDef} : module.function? name = some function ↔
      .define function ∈ module ∧ function.name = name := by
  rw [Block.function?, ← Block.mem_functions]
  refine ⟨fun h => ⟨List.mem_of_find?_eq_some h, by simpa using List.find?_some h⟩, ?_⟩
  rintro ⟨hmem, rfl⟩
  cases hfind : (Block.functions module).find? fun other => other.name = function.name with
  | none =>
    have hnone := List.find?_eq_none.mp hfind function hmem
    simp at hnone
  | some other =>
    have hname : other.name = function.name := by simpa using List.find?_some hfind
    rw [List.inj_on_of_nodup_map hnodup (List.mem_of_find?_eq_some hfind) hmem hname]

/-- The signature of a module describes its functions. -/
theorem Block.signature_describes (hnodup : module.functionNames.Nodup) :
    module.signature.Describes module := by
  rintro function ⟨original, hmem, heq⟩
  have hfound : module.function? function.name = some original :=
    (Block.function?_eq_some hnodup).mpr ⟨Block.mem_functions.mp hmem, by rw [heq]⟩
  rw [Block.signature, hfound, heq]
  rfl

/-! ## Smaller bodies -/

/-- The body of a function is smaller than any block that a copy of it was put into. -/
theorem Expansion.Placed.size_lt {caller : String} {block : Block} {expansion : Expansion}
    (h : expansion.Placed module caller block) :
    Block.size expansion.callee.body < Block.size block := by
  obtain ⟨-, -, result, copy, -, ⟨-, names, hcopy⟩, hplaced⟩ := h
  have hsize : Block.size copy = Block.size expansion.callee.body := by
    rw [hcopy, Block.size_copy]
  have hlength := (hplaced _ fun stmt => [stmt.kind]).length_le
  rw [Stmt.gather_block, List.length_append, List.length_singleton] at hlength
  rw [← hsize, Block.size, Block.size]
  omega

/-! ## Finished runs -/

theorem Stmt.RootExpands.shell {stmt stmt' : Stmt} {t : Trace} (h : stmt.RootExpands module stmt' t) :
    stmt'.withBody [] = stmt.withBody [] := by
  cases h <;> rfl

/-- A function of the module at a position, and what it has become. -/
structure Inliner.Becomes (final : Inliner) (module : Block) (own : Nat → Trace) (position : Nat)
    (function function' : FunctionDef) : Prop where
  /-- The function was there at the start. -/
  before : module[position]? = some (.define function)
  /-- What it has become is there in the end. -/
  after : final.module[position]? = some (.define function')
  /-- Only its body has changed. -/
  same : function' = { function with body := function'.body }
  /-- The new body is an expansion of the old one. -/
  expands : Block.Expands module function.name function.body function'.body (own position)
  /-- The expansion is complete. -/
  complete : (own position).complete = true

namespace Inliner.Finished

variable {final : Inliner} {names : NameSupply} {own : Nat → Trace}

/-- The statements at a position of the root block, at the start and in the end. -/
theorem root_at (h : final.Finished module names own) {i : Nat} {stmt stmt' : Stmt}
    (hstmt : module[i]? = some stmt) (hstmt' : final.module[i]? = some stmt') :
    stmt.RootExpands module stmt' (own i) ∧ (own i).complete = true := by
  obtain ⟨hlt, -⟩ := List.getElem?_eq_some_iff.mp hstmt
  obtain ⟨other, other', hother, hother', hroot, hcomplete⟩ := h.complete i hlt
  obtain rfl : stmt = other := Option.some.inj (hstmt.symm.trans hother)
  obtain rfl : stmt' = other' := Option.some.inj (hstmt'.symm.trans hother')
  exact ⟨hroot, hcomplete⟩

/-- Every function of the module has become one of the result. -/
theorem exists_becomes (h : final.Finished module names own) {i : Nat} {function : FunctionDef}
    (hi : module[i]? = some (.define function)) :
    ∃ function', final.Becomes module own i function function' := by
  obtain ⟨hlt, -⟩ := List.getElem?_eq_some_iff.mp hi
  obtain ⟨stmt, stmt', hstmt, hstmt', hroot, hcomplete⟩ := h.complete i hlt
  obtain rfl : .define function = stmt := Option.some.inj (hi.symm.trans hstmt)
  generalize ht : own i = t at hroot hcomplete
  cases hroot with
  | define hbody => exact ⟨_, hi, hstmt', rfl, ht ▸ hbody, ht ▸ hcomplete⟩
  | other hbody => cases hbody

/-- Every function of the result was one of the module. -/
theorem becomes_of_mem (h : final.Finished module names own) {function' : FunctionDef}
    (hmem : .define function' ∈ final.module) :
    ∃ i function, final.Becomes module own i function function' := by
  obtain ⟨i, hi⟩ := List.mem_iff_getElem?.mp hmem
  obtain ⟨hlt, -⟩ := List.getElem?_eq_some_iff.mp hi
  rw [h.length] at hlt
  obtain ⟨stmt, stmt', hstmt, hstmt', hroot, hcomplete⟩ := h.complete i hlt
  obtain rfl : .define function' = stmt' := Option.some.inj (hi.symm.trans hstmt')
  generalize ht : own i = t at hroot hcomplete
  cases hroot with
  | define hbody => exact ⟨i, _, hstmt, hi, rfl, ht ▸ hbody, ht ▸ hcomplete⟩
  | other hbody => cases hbody

/-- Without mutual recursion, every body that was copied is that of a function of the result. -/
theorem callee_mem (h : final.Finished module names own) (hnone : module.NoMutualRecursion) {i : Nat}
    (hi : i < module.length) {expansion : Expansion} (hmem : expansion ∈ (own i).expansions) :
    .define expansion.callee ∈ final.module := by
  refine (h.final i expansion hmem).resolve_left ?_
  rintro ⟨function, hfunction, hreach⟩
  obtain ⟨stmt, stmt', hstmt, hstmt', hroot, hcomplete⟩ := h.complete i hi
  obtain rfl : .define function = stmt := Option.some.inj (hfunction.symm.trans hstmt)
  obtain ⟨-, -, result, copy, hresult, -⟩ :=
    hroot.placed (hroot.held_eq_nil hcomplete) expansion hmem
  have hcall : (expansion.callee.name, expansion.callee.params.length) ∈
      Block.calls function.body := by
    have horigin := hroot.origin expansion hmem
    rw [Stmt.gather_define] at horigin
    exact horigin
  have hcalls : module.Calls function.name expansion.callee.name :=
    ⟨function, Block.mem_functions.mpr (List.mem_of_getElem? hfunction), rfl,
      List.mem_map_of_mem hcall⟩
  exact (FunctionDef.result?_eq_some.mp hresult).2 (hnone _ _ hreach (.single hcalls))

/-- What holds of a function of the result whenever it holds of the functions that were copied into
it holds of all functions of the result. -/
theorem induction (h : final.Finished module names own) (hnone : module.NoMutualRecursion)
    {p : FunctionDef → Prop}
    (hstep : ∀ i function function', final.Becomes module own i function function' →
      (∀ expansion ∈ (own i).expansions, p expansion.callee) → p function')
    {function' : FunctionDef} (hmem : .define function' ∈ final.module) : p function' := by
  induction hsize : Block.size function'.body using Nat.strong_induction_on
    generalizing function' with
  | h size ih =>
    obtain ⟨i, function, hbecomes⟩ := h.becomes_of_mem hmem
    refine hstep i function function' hbecomes fun expansion hexpansion => ?_
    obtain ⟨hlt, -⟩ := List.getElem?_eq_some_iff.mp hbecomes.before
    have hheld := hbecomes.expands.held_eq_nil hbecomes.complete
    have hsmaller := (hbecomes.expands.placed hheld expansion hexpansion).size_lt
    exact ih _ (hsize ▸ hsmaller) (h.callee_mem hnone hlt hexpansion) rfl

/-- What holds of all functions of the result holds of all that were copied. -/
theorem forall_callees (h : final.Finished module names own) (hnone : module.NoMutualRecursion)
    {p : FunctionDef → Prop} (hp : ∀ function', .define function' ∈ final.module → p function')
    {i : Nat} (hi : i < module.length) : ∀ expansion ∈ (own i).expansions, p expansion.callee :=
  fun _ hexpansion => hp _ (h.callee_mem hnone hi hexpansion)

/-! ## What the result keeps -/

/-- Apart from bodies, the root block is the same. -/
theorem shells (h : final.Finished module names own) :
    final.module.map (Stmt.withBody []) = module.map (Stmt.withBody []) := by
  refine List.ext_getElem (by simp [h.length]) fun i hi hi' => ?_
  rw [List.length_map] at hi hi'
  obtain ⟨hroot, -⟩ := h.root_at (List.getElem?_eq_getElem hi') (List.getElem?_eq_getElem hi)
  rw [List.getElem_map, List.getElem_map]
  exact hroot.shell

end Inliner.Finished

/-- The functions of a module without their bodies. -/
theorem Block.functions_shells (module : Block) :
    Block.functions (module.map (Stmt.withBody [])) =
      (Block.functions module).map fun function => { function with body := [] } := by
  induction module with
  | nil => rfl
  | cons stmt stmts ih =>
    rw [Block.functions] at ih ⊢
    cases stmt with
    | define function => exact congrArg _ ih
    | _ => exact ih

theorem Block.functionNames_shells (module : Block) :
    Block.functionNames (module.map (Stmt.withBody [])) = module.functionNames := by
  rw [Block.functionNames, Block.functions_shells, List.map_map]
  rfl

/-- Modules that differ in bodies only have the same functions. -/
theorem Block.functionNames_of_shells {module' : Block}
    (h : module'.map (Stmt.withBody []) = module.map (Stmt.withBody [])) :
    module'.functionNames = module.functionNames := by
  rw [← functionNames_shells, h, functionNames_shells]

theorem Block.signature_shells (module : Block) :
    Block.signature (module.map (Stmt.withBody [])) = module.signature := by
  funext name
  rw [Block.signature, Block.function?, Block.functions_shells, List.find?_map, Option.map_map]
  rfl

namespace Inliner.Finished

variable {final : Inliner} {names : NameSupply} {own : Nat → Trace}

theorem functionNames (h : final.Finished module names own) :
    final.module.functionNames = module.functionNames :=
  Block.functionNames_of_shells h.shells

theorem signature (h : final.Finished module names own) :
    final.module.signature = module.signature := by
  rw [← Block.signature_shells, h.shells, Block.signature_shells]

end Inliner.Finished

end YulInline
