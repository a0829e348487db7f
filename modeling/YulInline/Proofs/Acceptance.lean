import YulInline.Proofs.Runs

/-!
# Which modules are inlined

The checks of the inliner are spread over its work: some are made at the start, some when a
statement or a call is reached, some when a body is copied. Together they accept a module exactly if
it is `Block.Inlinable`. One direction is that a finished run has visited everything, the other that
an error is only ever raised because of something in the module as it was at the start: the copies
that are made on the way do not bring about errors of their own.
-/

namespace YulInline

/-- What the inliner relies on: functions are defined at the top level, once each, with nothing but
blocks beside them, and calls fit their functions. The calls in the conditions of loops do not
matter. -/
structure Block.Inlinable (module : Block) : Prop where
  /-- No two functions have the same name. -/
  distinct : module.functionNames.Nodup
  /-- The root block consists of blocks and definitions. -/
  topLevel : ∀ stmt ∈ module, stmt.kind = .block ∨ stmt.kind = .definition
  /-- No function is defined inside a top-level block or a function. -/
  flat : ∀ body ∈ module.bodies, Block.definitions body = []
  /-- Every call is one of a function of the module, with as many arguments as it has parameters. -/
  calls : ∀ body ∈ module.bodies, ∀ call ∈ Block.calls body,
    ∃ function ∈ Block.functions module, call = (function.name, function.params.length)

theorem Stmt.body?_eq_none {stmt : Stmt} (h : stmt.body? = none) :
    stmt.kind ≠ .block ∧ stmt.kind ≠ .definition := by
  cases stmt with
  | define function => cases h
  | block body => cases h
  | _ => simp [Stmt.kind]

/-- Nothing in a module that can be inlined justifies an error. -/
theorem Block.Inlinable.not_justified {module : Block} (h : module.Inlinable)
    (error : InlineError) : ¬ error.Justified module := by
  cases error with
  | nestedDefinition name =>
    rintro ⟨body, hbody, hname⟩
    rw [h.flat body hbody] at hname
    exact List.not_mem_nil hname
  | invalidTopLevel kind =>
    rintro ⟨stmt, hstmt, hnone, -⟩
    obtain ⟨hblock, hdefinition⟩ := Stmt.body?_eq_none hnone
    exact (h.topLevel stmt hstmt).elim hblock hdefinition
  | unknownFunction name =>
    rintro ⟨hunknown, body, hbody, count, hcall⟩
    obtain ⟨function, hmem, heq⟩ := h.calls body hbody _ hcall
    obtain ⟨rfl, -⟩ := Prod.mk.inj heq
    exact hunknown (List.mem_map_of_mem hmem)
  | arityMismatch name expected found =>
    rintro ⟨hne, ⟨body, hbody, hcall⟩, function, hmem, rfl, rfl⟩
    obtain ⟨other, hother, heq⟩ := h.calls body hbody _ hcall
    obtain ⟨hname, rfl⟩ := Prod.mk.inj heq
    obtain rfl := List.inj_on_of_nodup_map h.distinct hmem hother hname
    exact hne rfl
  | unhoistedArgument name => exact id
  | duplicateFunction name =>
    intro hduplicate
    exact List.nodup_iff_forall_not_duplicate.mp h.distinct name hduplicate
  | invalidBlockPath root => exact id

/-- A module that was expanded completely could be inlined. -/
theorem Inliner.Finished.inlinable {final : Inliner} {module : Block} {names : NameSupply}
    {own : Nat → Trace} (h : final.Finished module names own) : module.Inlinable := by
  have hfits : ∀ body ∈ module.bodies, Block.definitions body = [] ∧
      ∀ call ∈ Block.calls body, ∃ function ∈ Block.functions module,
        call = (function.name, function.params.length) := by
    intro body hbody
    obtain ⟨stmt, hstmt, hbody⟩ := List.mem_filterMap.mp hbody
    obtain ⟨i, hi⟩ := List.mem_iff_getElem?.mp hstmt
    obtain ⟨hlt, -⟩ := List.getElem?_eq_some_iff.mp hi
    obtain ⟨stmt', final', hi', -, hroot, hcomplete⟩ := h.complete i hlt
    obtain rfl : stmt = stmt' := Option.some.inj (hi.symm.trans hi')
    generalize own i = t at hroot hcomplete
    cases hroot with
    | define hexpands =>
      rw [← Option.some.inj hbody]
      exact hexpands.fits hcomplete
    | block hexpands =>
      rw [← Option.some.inj hbody]
      exact hexpands.fits hcomplete
    | other hnone =>
      rw [hnone] at hbody
      cases hbody
  refine ⟨h.nodup, fun stmt hstmt => ?_, fun body hbody => (hfits body hbody).1,
    fun body hbody => (hfits body hbody).2⟩
  obtain ⟨body, hbody⟩ := h.bodies stmt hstmt
  cases stmt with
  | define function => exact Or.inr rfl
  | block body => exact Or.inl rfl
  | _ => cases hbody

end YulInline
