import YulInline.Proofs.ScopedExpansion
import YulInline.Proofs.IntroducedNames

/-!
# When scoping is preserved

Inlining keeps a scoped module scoped exactly if every body that was copied was scoped at that time.
A body that is not has been copied in the midst of its own expansion: what was hoisted out of the
condition of a statement is in front of that statement only after the blocks inside it have been
visited, while the condition has been replaced before. A copy that is made in between refers to
variables that are declared in another function, and `reentrantBranch` is a module for which such a
copy is made.
-/

namespace YulInline

variable {module : Block} {taken : List String}

/-! ## Statements of the root block -/

theorem Stmt.RootExpands.scoped {stmt stmt' : Stmt} {t : Trace}
    (h : stmt.RootExpands module stmt' t) (hheld : t.held = []) (hscoped : stmt.Scoped taken [])
    (hcopies : ∀ expansion ∈ t.expansions, expansion.callee.Scoped taken)
    (hnodup : t.names.Nodup)
    (hfresh : ∀ name ∈ t.names, name ∉ taken ∧ name ∉ stmt.gather Stmt.introduced) :
    stmt'.Scoped taken [] := by
  cases h with
  | block hbody =>
    rw [Stmt.Scoped] at hscoped ⊢
    rw [Stmt.gather_block] at hfresh
    exact hbody.scoped hheld hscoped hcopies
      ⟨hnodup, fun name hname => ⟨List.not_mem_nil, (hfresh name hname).1⟩⟩
      fun name hname => (hfresh name hname).2
  | @define function body t hbody =>
    rw [Stmt.scoped_define] at hscoped ⊢
    rw [Stmt.gather_define, Stmt.introduced] at hfresh
    refine ⟨hscoped.1, hbody.scoped hheld hscoped.2 hcopies
      ⟨hnodup, fun name hname => ⟨fun hmem => ?_, (hfresh name hname).1⟩⟩
      fun name hname hmem => (hfresh name hname).2 (List.mem_append_right _ hmem)⟩
    exact (hfresh name hname).2 (List.mem_append_left _ (List.mem_cons_of_mem _ hmem))
  | other hbody => exact hscoped

theorem Stmt.RootExpands.callerName {stmt stmt' : Stmt} {t : Trace}
    (h : stmt.RootExpands module stmt' t) : stmt'.callerName = stmt.callerName := by
  cases h <;> rfl

theorem Stmt.RootExpands.declares {stmt stmt' : Stmt} {t : Trace}
    (h : stmt.RootExpands module stmt' t) : stmt'.declares = stmt.declares := by
  cases h <;> rfl

theorem Stmt.RootExpands.held_eq_nil {stmt stmt' : Stmt} {t : Trace}
    (h : stmt.RootExpands module stmt' t) (hcomplete : t.complete = true) : t.held = [] := by
  cases h with
  | block hbody => exact hbody.held_eq_nil hcomplete
  | define hbody => exact hbody.held_eq_nil hcomplete
  | other hbody => rfl

theorem Stmt.RootExpands.origin {stmt stmt' : Stmt} {t : Trace}
    (h : stmt.RootExpands module stmt' t) :
    ∀ expansion ∈ t.expansions, expansion.OneOf (stmt.gather Stmt.ownCalls) := by
  cases h with
  | block hbody =>
    rw [Stmt.gather_block]
    exact hbody.origin
  | define hbody =>
    rw [Stmt.gather_define]
    exact hbody.origin
  | other hbody => simp

theorem Stmt.RootExpands.dangling {stmt stmt' : Stmt} {t : Trace}
    (h : stmt.RootExpands module stmt' t) (hheld : t.held ≠ []) :
    ∃ name ∈ stmt'.gather Stmt.ownMentions, name ∈ Block.declares t.held ∧ name ∈ t.names := by
  cases h with
  | block hbody =>
    rw [Stmt.gather_block]
    exact hbody.dangling hheld
  | define hbody =>
    rw [Stmt.gather_define]
    exact hbody.dangling hheld
  | other hbody => exact absurd rfl hheld

theorem Stmt.RootExpands.count_declared {stmt stmt' : Stmt} {t : Trace}
    (h : stmt.RootExpands module stmt' t) (name : String) :
    (stmt'.gather Stmt.introduced ++ Block.declared t.held).count name =
      (stmt.gather Stmt.introduced ++ t.names).count name := by
  cases h with
  | block hbody =>
    rw [Stmt.gather_block, Stmt.gather_block]
    exact hbody.count_declared name
  | define hbody =>
    have hcount := hbody.count_declared name
    simp only [Block.declared, Stmt.gather_define, Stmt.introduced, List.count_append] at hcount ⊢
    omega
  | other hbody => simp [Block.declared]

theorem Stmt.RootExpands.placed {stmt stmt' : Stmt} {t : Trace}
    (h : stmt.RootExpands module stmt' t) (hheld : t.held = []) :
    ∀ expansion ∈ t.expansions, expansion.Placed module stmt.callerName [stmt'] := by
  cases h with
  | block hbody =>
    intro expansion hmem
    refine (hbody.placed hheld expansion hmem).inside fun α own => ?_
    rw [Stmt.gather_block]
    exact List.sublist_append_right ..
  | define hbody =>
    intro expansion hmem
    refine (hbody.placed hheld expansion hmem).inside fun α own => ?_
    rw [Stmt.gather_define]
    exact List.sublist_append_right ..
  | other hbody => simp

/-! ## Variables that stay as they are -/

/-- A name that is neither a parameter nor the return variable is no key of the substitution. -/
theorem FunctionDef.lookup_copyRule_eq_none {function : FunctionDef} {arguments : List String}
    {result holder name : String} (hparams : name ∉ function.params.map (·.name))
    (hresult : name ≠ result) :
    (function.copyRule arguments result holder).substitution.lookup name = none := by
  rw [List.lookup_eq_none_iff]
  rintro ⟨key, value⟩ hmem
  have hne : name ≠ key := by
    rcases List.mem_cons.mp hmem with heq | hmem
    · rw [(Prod.mk.inj heq).1]
      exact hresult
    · rintro rfl
      exact hparams (List.of_mem_zip (List.mem_reverse.mp hmem)).1
  simpa using hne

/-- A variable that a body uses without declaring it, and that the function does not declare either,
is used in every copy. -/
theorem FunctionDef.Copied.mentions {callee : FunctionDef} {result : TypedName}
    {arguments : List String} {holder name : String} {copy : Block}
    (h : callee.Copied arguments result.name holder copy) (hreturns : callee.returns = [result])
    (hname : name ∈ (Stmt.define callee).gather Stmt.ownMentions)
    (hnew : name ∉ (Stmt.define callee).gather Stmt.introduced) :
    name ∈ Block.gather Stmt.ownMentions copy := by
  obtain ⟨hdefinitions, names, rfl⟩ := h
  rw [Stmt.gather_define, Stmt.ownMentions, List.nil_append] at hname
  rw [Stmt.gather_define, Stmt.introduced, hreturns] at hnew
  simp only [List.map_cons, List.map_nil, List.cons_append, List.mem_cons, List.mem_append,
    List.not_mem_nil, or_false, not_or] at hnew
  obtain ⟨-, ⟨hparams, hresult⟩, hbody⟩ := hnew
  have hcopy := @Block.mentions_copy (callee.copyRule arguments result.name holder) callee.body
    { names } name hdefinitions hname hbody
  rwa [Copier.nameFor, FunctionDef.lookup_copyRule_eq_none hparams hresult] at hcopy

/-! ## Finished runs -/

namespace Inliner.Finished

variable {final : Inliner} {names : NameSupply} {own : Nat → Trace}

theorem nodup_names (h : final.Finished module names own) {i : Nat} (hi : i < module.length) :
    (own i).names.Nodup :=
  (List.nodup_flatMap.mp h.names.nodup).1 i (List.mem_range.mpr hi)

/-- No name was given out for two positions. -/
theorem position_unique (h : final.Finished module names own) {i j : Nat} (hi : i < module.length)
    (hj : j < module.length) {name : String} (hname : name ∈ (own i).names)
    (hname' : name ∈ (own j).names) : i = j := by
  have hdisjoint := (List.nodup_flatMap.mp h.names.nodup).2
  by_contra hne
  have hpair : ∀ {i j : Nat}, i < j → j < module.length →
      List.Disjoint (own i).names (own j).names := by
    intro i j hlt hj
    have hget := List.pairwise_iff_getElem.mp hdisjoint i j (by simpa using hlt.trans hj)
      (by simpa using hj) hlt
    simpa using hget
  rcases Nat.lt_or_gt_of_ne hne with hlt | hgt
  · exact hpair hlt hj hname hname'
  · exact hpair hgt hi hname' hname

/-- A name that was given out is new to the module and not taken. -/
theorem fresh (h : final.Finished module names own)
    (hknown : ∀ name ∈ Block.names module ++ taken, names.isUsed name = true) {i : Nat}
    (hi : i < module.length) {name : String} (hname : name ∈ (own i).names) :
    name ∉ taken ∧ name ∉ Block.declared module := by
  have hgiven : name ∈ (List.range module.length).flatMap fun i => (own i).names :=
    List.mem_flatMap.mpr ⟨i, List.mem_range.mpr hi, hname⟩
  refine ⟨fun hmem => ?_, fun hmem => ?_⟩
  · exact h.names.not_mem_of_isUsed (hknown name (List.mem_append_right _ hmem)) hgiven
  · have hmem' := Block.introduced_subset_names module hmem
    exact h.names.not_mem_of_isUsed (hknown name (List.mem_append_left _ hmem')) hgiven

theorem fresh_at (h : final.Finished module names own)
    (hknown : ∀ name ∈ Block.names module ++ taken, names.isUsed name = true) {i : Nat} {stmt : Stmt}
    (hstmt : module[i]? = some stmt) {name : String} (hname : name ∈ (own i).names) :
    name ∉ taken ∧ name ∉ stmt.gather Stmt.introduced := by
  obtain ⟨hlt, -⟩ := List.getElem?_eq_some_iff.mp hstmt
  obtain ⟨htaken, hdeclared⟩ := h.fresh hknown hlt hname
  exact ⟨htaken, fun hin =>
    hdeclared (Block.mem_gather_of_mem (List.mem_of_getElem? hstmt) hin)⟩

/-- The statement at a position of the result, and what it was. -/
theorem exists_root (h : final.Finished module names own) {stmt' : Stmt}
    (hstmt' : stmt' ∈ final.module) : ∃ i stmt, i < module.length ∧ module[i]? = some stmt ∧
      stmt.RootExpands module stmt' (own i) ∧ (own i).held = [] := by
  obtain ⟨i, hi⟩ := List.mem_iff_getElem?.mp hstmt'
  obtain ⟨hlt, -⟩ := List.getElem?_eq_some_iff.mp hi
  rw [h.length] at hlt
  obtain ⟨stmt, other, hstmt, hother, hroot, hcomplete⟩ := h.complete i hlt
  obtain rfl : stmt' = other := Option.some.inj (hi.symm.trans hother)
  exact ⟨i, stmt, hlt, hstmt, hroot, hroot.held_eq_nil hcomplete⟩

theorem declares_eq_nil (h : final.Finished module names own) {stmt : Stmt}
    (hstmt : stmt ∈ module) : stmt.declares = [] := by
  obtain ⟨body, hbody⟩ := h.bodies stmt hstmt
  cases stmt with
  | define function => rfl
  | block body => rfl
  | _ => cases hbody

theorem scoped_module (h : final.Finished module names own) :
    Block.Scoped taken [] module ↔ ∀ stmt ∈ module, stmt.Scoped taken [] :=
  Block.scoped_iff_forall fun _ hstmt => h.declares_eq_nil hstmt

theorem scoped_result (h : final.Finished module names own) :
    Block.Scoped taken [] final.module ↔ ∀ stmt ∈ final.module, stmt.Scoped taken [] := by
  refine Block.scoped_iff_forall fun stmt' hstmt' => ?_
  obtain ⟨i, stmt, -, hstmt, hroot, -⟩ := h.exists_root hstmt'
  rw [hroot.declares]
  exact h.declares_eq_nil (List.mem_of_getElem? hstmt)

/-- If the bodies that were copied into a statement were scoped, it is scoped in the result. -/
theorem scoped_root (h : final.Finished module names own)
    (hknown : ∀ name ∈ Block.names module ++ taken, names.isUsed name = true)
    (hscoped : Block.Scoped taken [] module) {i : Nat} {stmt stmt' : Stmt}
    (hstmt : module[i]? = some stmt) (hroot : stmt.RootExpands module stmt' (own i))
    (hheld : (own i).held = [])
    (hcopies : ∀ expansion ∈ (own i).expansions, expansion.callee.Scoped taken) :
    stmt'.Scoped taken [] := by
  obtain ⟨hlt, -⟩ := List.getElem?_eq_some_iff.mp hstmt
  have hold := h.scoped_module.mp hscoped stmt (List.mem_of_getElem? hstmt)
  exact hroot.scoped hheld hold hcopies (h.nodup_names hlt)
    fun name hname => h.fresh_at hknown hstmt hname

/-- If all bodies were scoped when they were copied, the result is scoped. -/
theorem scoped_of_copies (h : final.Finished module names own)
    (hknown : ∀ name ∈ Block.names module ++ taken, names.isUsed name = true)
    (hscoped : Block.Scoped taken [] module)
    (hcopies : ∀ expansion ∈ final.expansions, expansion.callee.Scoped taken) :
    Block.Scoped taken [] final.module := by
  rw [h.scoped_result]
  intro stmt' hstmt'
  obtain ⟨i, stmt, hlt, hstmt, hroot, hheld⟩ := h.exists_root hstmt'
  refine h.scoped_root hknown hscoped hstmt hroot hheld fun expansion hexpansion => ?_
  refine hcopies expansion (h.log.mem_iff.mpr ?_)
  exact List.mem_flatMap.mpr ⟨i, List.mem_range.mpr hlt, hexpansion⟩

/-- A body with something held back leaves a trace where it is copied to: the result refers to a
variable there that is declared in another statement of the root block. -/
theorem not_scoped_of_held (h : final.Finished module names own)
    (hknown : ∀ name ∈ Block.names module ++ taken, names.isUsed name = true)
    {expansion : Expansion} (hexpansion : expansion ∈ final.expansions) {i : Nat}
    {function : FunctionDef} {t : Trace} (hi : module[i]? = some (.define function))
    (hroot : (Stmt.define function).RootExpands module (.define expansion.callee) t)
    (hnames : t.names.Sublist (own i).names) (hheld : t.held ≠ []) :
    ¬ Block.Scoped taken [] final.module := by
  rw [h.scoped_result]
  intro hscoped
  obtain ⟨hlt, -⟩ := List.getElem?_eq_some_iff.mp hi
  obtain ⟨name, hmention, hname, hgiven⟩ := hroot.dangling hheld
  obtain ⟨-, hdeclared⟩ := h.fresh hknown hlt (hnames.subset hgiven)
  -- The name is declared once, in what is held back, and so not in what was copied.
  have hnew : name ∉ (Stmt.define expansion.callee).gather Stmt.introduced := by
    have hcount := hroot.count_declared name
    have hone := List.nodup_iff_count_le_one.mp ((h.nodup_names hlt).sublist hnames) name
    have hzero : ((Stmt.define function).gather Stmt.introduced).count name = 0 :=
      List.count_eq_zero.mpr fun hin =>
        hdeclared (Block.mem_gather_of_mem (List.mem_of_getElem? hi) hin)
    have hheld' : 0 < (Block.declared t.held).count name :=
      List.count_pos_iff.mpr (Block.declares_subset_declared _ hname)
    rw [List.count_append, List.count_append] at hcount
    exact List.count_eq_zero.mp (by omega)
  obtain ⟨j, hj, hplaced⟩ := List.mem_flatMap.mp (h.log.mem_iff.mp hexpansion)
  rw [List.mem_range] at hj
  obtain ⟨stmt, stmt', hstmt, hstmt', hroot', hcomplete⟩ := h.complete j hj
  obtain ⟨hcaller, hform, result, copy, hresult, hcopied, hsub⟩ :=
    hroot'.placed (hroot'.held_eq_nil hcomplete) expansion hplaced
  obtain ⟨hreturns, hne⟩ := FunctionDef.result?_eq_some.mp hresult
  have hused : name ∈ stmt'.gather Stmt.ownMentions := by
    have hcopy := hcopied.mentions hreturns hmention hnew
    have hin := (hsub String Stmt.ownMentions).subset (a := name) (by simp [hcopy])
    simpa using hin
  have hstmtScoped := hscoped stmt' (List.mem_of_getElem? hstmt')
  have hin := (hstmtScoped.mentions name hused).resolve_left List.not_mem_nil
  have hgiven' : name ∈ (own j).names := by
    have hin' := (hroot'.declared_perm hcomplete).subset hin
    refine (List.mem_append.mp hin').resolve_left fun hold => hdeclared ?_
    exact Block.mem_gather_of_mem (List.mem_of_getElem? hstmt) hold
  obtain rfl := h.position_unique hlt hj (hnames.subset hgiven) hgiven'
  -- Both would belong to one function, whose calls of itself are not expanded.
  obtain rfl : .define function = stmt := Option.some.inj (hi.symm.trans hstmt)
  exact hne hroot.callerName

/-- If the result is scoped, all bodies were scoped when they were copied. -/
theorem copies_of_scoped (h : final.Finished module names own)
    (hknown : ∀ name ∈ Block.names module ++ taken, names.isUsed name = true)
    (hscoped : Block.Scoped taken [] module) (hresult : Block.Scoped taken [] final.module) :
    ∀ expansion ∈ final.expansions, expansion.callee.Scoped taken := by
  have hlog : ∀ log : List Expansion, Chronicle module own log → log ⊆ final.expansions →
      ∀ expansion ∈ log, expansion.callee.Scoped taken := by
    intro log
    induction log with
    | nil => simp
    | cons expansion earlier ih =>
      rintro ⟨hchronicle, i, function, t, hi, hroot, hnames, hexpansions⟩ hsub
      have hearlier := ih hchronicle fun other hother => hsub (List.mem_cons_of_mem _ hother)
      rw [List.forall_mem_cons]
      refine ⟨?_, hearlier⟩
      obtain ⟨hlt, -⟩ := List.getElem?_eq_some_iff.mp hi
      by_cases hheld : t.held = []
      · have hold := h.scoped_module.mp hscoped _ (List.mem_of_getElem? hi)
        exact Stmt.scoped_define.mp (hroot.scoped hheld hold
          (fun other hother => hearlier other (hexpansions hother))
          ((h.nodup_names hlt).sublist hnames)
          fun name hname => h.fresh_at hknown hi (hnames.subset hname))
      · exact absurd hresult
          (h.not_scoped_of_held hknown (hsub (List.mem_cons_self ..)) hi hroot hnames hheld)
  exact hlog final.expansions h.chronicle (List.Subset.refl _)

end Inliner.Finished

/-! ## Whole runs -/

/-- The names of a module, and any among them, are in use from the start. -/
theorem NameSupply.isUsed_ofBlock_append (htaken : taken ⊆ Block.names module) :
    ∀ name ∈ Block.names module ++ taken, (NameSupply.ofBlock module).isUsed name = true := by
  intro name hname
  rw [NameSupply.isUsed_ofBlock]
  exact (List.mem_append.mp hname).elim id fun hmem => htaken hmem

/-- Two functions that call each other, the first from inside a conditional whose condition is a
call that gets expanded. -/
def reentrantBranch : Block :=
  [.define ⟨"h", [], [⟨"r", ""⟩], []⟩,
    .define ⟨"a", [], [⟨"s", ""⟩], [.branch (.call "h" []) [.assign ["s"] (.call "b" [])]]⟩,
    .define ⟨"b", [], [⟨"t", ""⟩], [.assign ["t"] (.call "a" [])]⟩]

/-- The condition of the copy that `b` is given refers to a variable of `a`. -/
theorem inline_reentrantBranch_not_scoped : Block.Scoped [] [] reentrantBranch ∧
    ∃ result names, inline reentrantBranch (.ofBlock reentrantBranch) = .ok (result, names) ∧
      ¬ Block.Scoped [] [] result := by
  have hrun : ((inline reentrantBranch (.ofBlock reentrantBranch)).toOption.any
      fun result => ¬ Block.Scoped [] [] result.1) = true := by
    decide +kernel
  refine ⟨by decide +kernel, ?_⟩
  cases hinline : inline reentrantBranch (.ofBlock reentrantBranch) with
  | error error =>
    rw [hinline] at hrun
    cases hrun
  | ok result =>
    rw [hinline] at hrun
    exact ⟨result.1, result.2, rfl, of_decide_eq_true hrun⟩

/-- A module that is scoped, and whose names are in use from the start, stays scoped exactly if
every body was scoped when it was copied. -/
theorem inline_scoped_iff_copies_scoped {start final : Inliner}
    (hscoped : Block.Scoped taken [] module) (htaken : taken ⊆ Block.names module)
    (hstart : Inliner.ofModule? module (.ofBlock module) = .ok start)
    (hrun : InlineM.expandModule.run start = .ok () final) :
    inline module (.ofBlock module) = .ok (final.module, final.names) ∧
      (Block.Scoped taken [] final.module ↔
        ∀ expansion ∈ final.expansions, expansion.callee.Scoped taken) := by
  have hinline := inline_eq_ok hstart hrun
  have hspec := inline_spec module (.ofBlock module)
  have hof := ofModule?_spec module (.ofBlock module)
  rw [hinline] at hspec
  rw [hstart] at hof
  obtain ⟨other, own, hfinal, -, -, hrun'⟩ := hspec
  obtain ⟨-, rfl⟩ := hof
  obtain rfl : final = other := by
    have hsame := hrun.symm.trans hrun'
    injection hsame
  have hknown := NameSupply.isUsed_ofBlock_append htaken
  exact ⟨hinline, hfinal.copies_of_scoped hknown hscoped, hfinal.scoped_of_copies hknown hscoped⟩

theorem inline_scoped_iff_copies_scoped_reentrantBranch :
    ∃ start final, Block.Scoped ["a", "b"] [] reentrantBranch ∧
      ["a", "b"] ⊆ Block.names reentrantBranch ∧
      Inliner.ofModule? reentrantBranch (.ofBlock reentrantBranch) = .ok start ∧
      InlineM.expandModule.run start = .ok () final ∧
      inline reentrantBranch (.ofBlock reentrantBranch) = .ok (final.module, final.names) ∧
      (Block.Scoped ["a", "b"] [] final.module ↔
        ∀ expansion ∈ final.expansions, expansion.callee.Scoped ["a", "b"]) := by
  have hscoped : Block.Scoped ["a", "b"] [] reentrantBranch := by decide +kernel
  have htaken : ["a", "b"] ⊆ Block.names reentrantBranch := by decide +kernel
  have hstart : Inliner.ofModule? reentrantBranch (.ofBlock reentrantBranch) =
      .ok ⟨reentrantBranch, ["h", "a", "b"], .ofBlock reentrantBranch, []⟩ := rfl
  have hsucceeds : (match InlineM.expandModule.run
      ⟨reentrantBranch, ["h", "a", "b"], .ofBlock reentrantBranch, []⟩ with
      | .ok _ _ => true
      | .error _ _ => false) = true := by
    decide +kernel
  cases hrun : InlineM.expandModule.run
      ⟨reentrantBranch, ["h", "a", "b"], .ofBlock reentrantBranch, []⟩ with
  | ok _ final =>
    exact ⟨_, final, hscoped, htaken, hstart, hrun,
      inline_scoped_iff_copies_scoped hscoped htaken hstart hrun⟩
  | error error final =>
    rw [hrun] at hsucceeds
    cases hsucceeds

end YulInline
