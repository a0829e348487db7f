import YulInline.Proofs.Acceptance
import YulInline.Proofs.AlikeExpansions
import YulInline.Proofs.Callees
import YulInline.Proofs.NameIndependence

/-!
# The order of the work does not matter

The statements of a root block may stand in another order, and functions may be demanded by hand
before the module is expanded: both change the order in which bodies are visited, and hence in which
names are given out. Without mutual recursion the result is the same module, up to that order and up
to the spelling of the names that are introduced.

For then every body that is copied is complete (`Inliner.Finished.callee_mem`). So what two runs
have made of a function is alike if what they have made of the functions copied into it is, and the
latter are smaller. The names that correspond are those that the runs have given out in the same
places (`Twins.ofRuns`).
-/

namespace YulInline

open InlineM

variable {module module' : Block}

/-! ## Modules in another order -/

/-- The statements of a root block in another order: `order` lists the positions they come from. -/
def Block.reorder (order : List Nat) (module : Block) : Block :=
  order.filterMap fun i => module[i]?

/-- A statement stands where `order` puts it. -/
theorem Block.getElem?_reorder {order : List Nat} (h : ∀ i ∈ order, i < module.length) (j : Nat) :
    (module.reorder order)[j]? = order[j]?.bind fun i => module[i]? := by
  induction order generalizing j with
  | nil => rfl
  | cons i order ih =>
    rw [List.forall_mem_cons] at h
    rw [reorder, List.filterMap_cons_some (List.getElem?_eq_getElem h.1)]
    cases j with
    | zero => exact (List.getElem?_eq_getElem h.1).symm
    | succ j => exact ih h.2 j

section Order

variable {order : List Nat} (horder : order.Perm (List.range module.length))

include horder

theorem Block.lt_of_mem_order : ∀ i ∈ order, i < module.length := fun _ hi =>
  List.mem_range.mp (horder.mem_iff.mp hi)

theorem Block.reorder_perm : (module.reorder order).Perm module := by
  have hall : (List.range module.length).filterMap (fun i => module[i]?) = module := by
    refine List.ext_getElem? fun j => ?_
    have hat : (module.reorder (List.range module.length))[j]? = _ :=
      Block.getElem?_reorder (fun _ => List.mem_range.mp) j
    rw [reorder] at hat
    rw [hat]
    by_cases hj : j < module.length
    · rw [List.getElem?_range hj]
      rfl
    · rw [List.getElem?_eq_none (by simpa using hj), List.getElem?_eq_none (by simpa using hj)]
      rfl
  have hperm := horder.filterMap fun i => module[i]?
  rwa [hall] at hperm

end Order

section Perm

variable (hperm : module'.Perm module)

include hperm

theorem Block.mem_functions_perm {function : FunctionDef} :
    function ∈ Block.functions module' ↔ function ∈ Block.functions module := by
  rw [Block.mem_functions, Block.mem_functions, hperm.mem_iff]

theorem Block.functionNames_perm : module'.functionNames.Perm module.functionNames :=
  (hperm.filterMap _).map _

theorem FunctionDef.formIn_perm {function : FunctionDef} :
    function.FormIn module' ↔ function.FormIn module := by
  rw [FunctionDef.FormIn, FunctionDef.FormIn]
  simp only [Block.mem_functions_perm hperm]

theorem Block.reaches_perm : module'.Reaches = module.Reaches := by
  have hcalls : module'.Calls = module.Calls := by
    funext f g
    rw [Block.Calls, Block.Calls]
    simp only [Block.mem_functions_perm hperm]
  rw [Block.Reaches, hcalls]

theorem Block.NoMutualRecursion.perm (h : module.NoMutualRecursion) :
    module'.NoMutualRecursion := by
  rw [Block.NoMutualRecursion, Block.reaches_perm hperm]
  exact h

theorem Block.Inlinable.perm (h : module.Inlinable) : module'.Inlinable := by
  have hbodies : ∀ body, body ∈ module'.bodies ↔ body ∈ module.bodies := fun body =>
    (hperm.filterMap _).mem_iff
  refine ⟨(Block.functionNames_perm hperm).nodup_iff.mpr h.distinct, fun stmt hstmt => ?_,
    fun body hbody => h.flat body ((hbodies body).mp hbody), fun body hbody call hcall => ?_⟩
  · exact h.topLevel stmt (hperm.mem_iff.mp hstmt)
  · obtain ⟨function, hmem, heq⟩ := h.calls body ((hbodies body).mp hbody) call hcall
    exact ⟨function, (Block.mem_functions_perm hperm).mpr hmem, heq⟩

end Perm

/-! ## Demands in front of a run -/

/-- A module that can be inlined is expanded after any of its functions have been demanded. -/
theorem Block.Inlinable.expands_after_demands (h : module.Inlinable) (names : NameSupply)
    {wanted : List String} (hwanted : ∀ name ∈ wanted, name ∈ module.functionNames) :
    ∃ start final own, Inliner.ofModule? module names = .ok start ∧
      (do wanted.forM demand; expandModule : InlineM Unit) start = .ok () final ∧
      final.Finished module names own := by
  have hstart := ofModule?_spec module names
  cases hof : Inliner.ofModule? module names with
  | error error =>
    rw [hof] at hstart
    exact absurd hstart (h.not_justified error)
  | ok start =>
    rw [hof] at hstart
    obtain ⟨hnodup, rfl⟩ := hstart
    have hrun : (wanted.forM demand >>= fun _ => expandModule).Outcome
        { module, pending := module.functionNames, names }
        (fun _ final => ∃ own, final.Finished module names own)
        (fun error _ => error.Justified module) := by
      refine (demand_all hnodup wanted (Inliner.Sound.start module names hnodup) hwanted).bind ?_
        fun error _ herror => herror
      rintro - between ⟨hkept, -, own, hsound, hown⟩
      refine expandModule_of_sound hnodup hsound (fun name hname => hkept.pending.subset hname) ?_
      intro i body hblock
      have hwaits : ¬ Inliner.Waits { module, pending := module.functionNames, names } module i :=
        Stmt.not_waits_of_block hblock
      exact ⟨(hkept.bodies i (by simp) hwaits).trans hblock, hown i hwaits⟩
    rw [InlineM.Outcome] at hrun
    cases hresult : (wanted.forM demand >>= fun _ => expandModule)
        { module, pending := module.functionNames, names } with
    | error error after =>
      rw [hresult] at hrun
      exact absurd hrun (h.not_justified error)
    | ok _ final =>
      rw [hresult] at hrun
      obtain ⟨own, hfinal⟩ := hrun
      exact ⟨_, final, own, rfl, hresult, hfinal⟩

/-! ## Names in the same places -/

/-- The names of a module, and the names that two runs have given out in the same places: at a
position of the module, and where `order` has put it. -/
def Twins.ofRuns (known : List String) (order : List Nat) (own own' : Nat → Trace) : Twins :=
  (order.zipIdx.flatMap fun entry => (own entry.1).names.zip (own' entry.2).names) ++
    Twins.self known

/-- On both sides the pairs of names are some of the names that were given out, in their order. -/
theorem Twins.ofRuns_sublist (own own' : Nat → Trace) (order : List Nat) (k : Nat) :
    (((order.zipIdx k).flatMap fun entry =>
      (own entry.1).names.zip (own' entry.2).names).map Prod.fst).Sublist
        (order.flatMap fun i => (own i).names) ∧
    (((order.zipIdx k).flatMap fun entry =>
      (own entry.1).names.zip (own' entry.2).names).map Prod.snd).Sublist
        ((List.range' k order.length).flatMap fun j => (own' j).names) := by
  induction order generalizing k with
  | nil => exact ⟨List.Sublist.refl _, List.Sublist.refl _⟩
  | cons i order ih =>
    obtain ⟨hfst, hsnd⟩ := ih (k + 1)
    rw [List.zipIdx_cons, List.flatMap_cons, List.map_append, List.map_append, List.flatMap_cons,
      List.length_cons, List.range'_succ, List.flatMap_cons]
    exact ⟨(map_fst_zip_sublist ..).append hfst, (map_snd_zip_sublist ..).append hsnd⟩

namespace Inliner.Finished

variable {final final' : Inliner} {names names' : NameSupply} {own own' : Nat → Trace}
  {order : List Nat}

/-- The correspondence is faithful, since no run gives out a name twice, or one of the module. -/
theorem faithful_ofRuns (h : final.Finished module names own)
    (h' : final'.Finished (module.reorder order) names' own')
    (horder : order.Perm (List.range module.length)) {known : List String}
    (hknown : ∀ name ∈ known, names.isUsed name = true)
    (hknown' : ∀ name ∈ known, names'.isUsed name = true) :
    (Twins.ofRuns known order own own').Faithful := by
  obtain ⟨hfst, hsnd⟩ := Twins.ofRuns_sublist own own' order 0
  have hlength : order.length = (module.reorder order).length := by
    rw [horder.length_eq, (Block.reorder_perm horder).length_eq, List.length_range]
  have hgiven := h.names.perm (horder.symm.flatMap_right fun i => (own i).names)
  have hgiven' := h'.names
  rw [← hlength, List.range_eq_range'] at hgiven'
  have hself := Twins.Fit.self hknown hknown'
  refine hself.faithful.append (hgiven.nodup.sublist hfst) (hgiven'.nodup.sublist hsnd) ?_
  refine fun p hp q hq => ⟨fun heq => ?_, fun heq => ?_⟩
  · refine hgiven.not_mem_of_isUsed (hself.used q hq) (heq ▸ hfst.subset ?_)
    exact List.mem_map_of_mem hp
  · refine hgiven'.not_mem_of_isUsed (hself.used' q hq) (heq ▸ hsnd.subset ?_)
    exact List.mem_map_of_mem hp

/-! ## Results that are alike -/

section Alike

variable (h : final.Finished module names own)
  (h' : final'.Finished (module.reorder order) names' own')
  (horder : order.Perm (List.range module.length))
  (hfaithful : (Twins.ofRuns (Block.names module) order own own').Faithful)

include h h' horder hfaithful

/-- What the two runs have made of a statement is alike, if the bodies that were copied are. -/
theorem alike_at {i j : Nat} (hij : order[j]? = some i)
    (hmeets : (own i).Meets (Twins.ofRuns (Block.names module) order own own') (own' j))
    {stmt stmt' : Stmt} (hstmt : final.module[i]? = some stmt)
    (hstmt' : final'.module[j]? = some stmt') :
    Stmt.Alike (Twins.ofRuns (Block.names module) order own own') stmt stmt' := by
  set twins := Twins.ofRuns (Block.names module) order own own' with htwins
  have hi : i < module.length := Block.lt_of_mem_order horder i (List.mem_of_getElem? hij)
  have hbefore := List.getElem?_eq_getElem hi
  have hbefore' : (module.reorder order)[j]? = some module[i] := by
    rw [Block.getElem?_reorder (Block.lt_of_mem_order horder), hij]
    exact hbefore
  obtain ⟨hroot, hcomplete⟩ := h.root_at hbefore hstmt
  obtain ⟨hroot', hcomplete'⟩ := h'.root_at hbefore' hstmt'
  have hacross : twins.Across module (module.reorder order) :=
    ⟨hfaithful, h'.nodup, fun _ =>
      (FunctionDef.formIn_perm (Block.reorder_perm horder)).mpr⟩
  have hself : Block.Alike twins module module :=
    Block.alike_self module fun _ hname => List.mem_append_right _ (Twins.mem_self hname)
  have halike : Stmt.Alike twins module[i] module[i] :=
    List.forall₂_same.mp (Block.alike_iff_forall₂.mp hself) _ (List.getElem_mem hi)
  refine (halike.rootExpands_joins hacross hroot hroot' hcomplete hcomplete' hmeets ?_).2
  refine List.Subset.trans ?_ (List.subset_append_left ..)
  intro p hp
  exact List.mem_flatMap.mpr ⟨(i, j), List.mem_zipIdx_iff_getElem?.mpr hij, hp⟩

/-- Without mutual recursion, what the two runs have made of a function is alike. -/
theorem alike_functions (hnone : module.NoMutualRecursion) {function function' : FunctionDef}
    (hmem : .define function ∈ final.module) (hmem' : .define function' ∈ final'.module)
    (hname : function'.name = function.name) :
    function.Alike (Twins.ofRuns (Block.names module) order own own') function' := by
  have hnone' := hnone.perm (Block.reorder_perm horder)
  refine h.induction (p := fun function => ∀ function', .define function' ∈ final'.module →
    function'.name = function.name →
      function.Alike (Twins.ofRuns (Block.names module) order own own') function') hnone ?_ hmem
    function' hmem' hname
  intro i original function hbecomes hcallees function' hmem' hname
  obtain ⟨j, original', hbecomes'⟩ := h'.becomes_of_mem hmem'
  -- Both were the same function of the module.
  have hbefore' := hbecomes'.before
  rw [Block.getElem?_reorder (Block.lt_of_mem_order horder), Option.bind_eq_some_iff] at hbefore'
  obtain ⟨i', hij, hbefore'⟩ := hbefore'
  have hsame : original'.name = original.name := by
    rw [hbecomes.same, hbecomes'.same] at hname
    exact hname
  obtain rfl : i' = i := Block.position_unique h.nodup hbefore' hbecomes.before hsame
  obtain ⟨hlt', -⟩ := List.getElem?_eq_some_iff.mp hbecomes'.before
  refine h.alike_at h' horder hfaithful hij ?_ hbecomes.after hbecomes'.after
  intro expansion hexpansion expansion' hexpansion' hcallee
  exact hcallees expansion hexpansion expansion'.callee (h'.callee_mem hnone' hlt' hexpansion')
    hcallee

/-- Without mutual recursion, the results of the two runs are alike, up to the order of the root
block. -/
theorem alike_module (hnone : module.NoMutualRecursion) :
    Block.Alike (Twins.ofRuns (Block.names module) order own own') (final.module.reorder order)
      final'.module := by
  have hlt : ∀ i ∈ order, i < final.module.length := by
    rw [h.length]
    exact Block.lt_of_mem_order horder
  have hlength : (final.module.reorder order).length = final'.module.length := by
    have horder' : order.Perm (List.range final.module.length) := h.length ▸ horder
    rw [h'.length, (Block.reorder_perm horder).length_eq, (Block.reorder_perm horder').length_eq,
      h.length]
  refine Block.alike_iff_forall₂.mpr (List.forall₂_iff_get.mpr ⟨hlength, fun j hj hj' => ?_⟩)
  have hstmt := List.getElem?_eq_getElem hj
  rw [Block.getElem?_reorder hlt, Option.bind_eq_some_iff] at hstmt
  obtain ⟨i, hij, hstmt⟩ := hstmt
  refine h.alike_at h' horder hfaithful hij ?_ hstmt (List.getElem?_eq_getElem hj')
  intro expansion hexpansion expansion' hexpansion' hcallee
  have hi : i < module.length := Block.lt_of_mem_order horder i (List.mem_of_getElem? hij)
  exact h.alike_functions h' horder hfaithful hnone (h.callee_mem hnone hi hexpansion)
    (h'.callee_mem (hnone.perm (Block.reorder_perm horder)) (h'.length ▸ hj') hexpansion') hcallee

end Alike

end Inliner.Finished

/-- Without mutual recursion it makes no difference to the result in which order the statements of
the root block stand, and which functions are demanded beforehand: the module that comes out is the
same, in the new order, up to a bijection of names that leaves the names of the module alone. -/
theorem inline_order_irrelevant {result : Block} {names names' after : NameSupply}
    {order : List Nat} {wanted : List String} (hnone : module.NoMutualRecursion)
    (hinline : inline module names = .ok (result, after))
    (hknown : ∀ name ∈ Block.names module, names.isUsed name = true)
    (hknown' : ∀ name ∈ Block.names module, names'.isUsed name = true)
    (horder : order.Perm (List.range module.length))
    (hwanted : ∀ name ∈ wanted, name ∈ module.functionNames) :
    ∃ start final, Inliner.ofModule? (module.reorder order) names' = .ok start ∧
      (do wanted.forM demand; expandModule : InlineM Unit) start = .ok () final ∧
      ∃ π : Equiv.Perm String, (∀ name ∈ Block.names module, π name = name) ∧
        final.module = Block.mapNames π (result.reorder order) := by
  have hspec := inline_spec module names
  rw [hinline] at hspec
  obtain ⟨first, own, h, rfl, -, -⟩ := hspec
  have hperm := Block.reorder_perm horder
  have hwanted' : ∀ name ∈ wanted, name ∈ (module.reorder order).functionNames := fun name hname =>
    (Block.functionNames_perm hperm).mem_iff.mpr (hwanted name hname)
  obtain ⟨start, final, own', hstart, hrun, h'⟩ :=
    (h.inlinable.perm hperm).expands_after_demands names' hwanted'
  have hfaithful := h.faithful_ofRuns h' horder hknown hknown'
  exact ⟨start, final, hstart, hrun,
    (h.alike_module h' horder hfaithful hnone).exists_perm hfaithful (List.subset_append_right ..)⟩

/-- A block that calls two functions, of which one calls itself. -/
def squareOfSum : Block :=
  [.block [.expr (.instr "pop" [.call "square" [.call "sum" [.literal ⟨.number, "3", ""⟩]]])],
    .define ⟨"square", [⟨"x", ""⟩], [⟨"y", ""⟩],
      [.assign ["y"] (.instr "mul" [.ident "x", .ident "x"])]⟩,
    .define ⟨"sum", [⟨"n", ""⟩], [⟨"r", ""⟩],
      [.branch (.ident "n")
        [.assign ["r"] (.instr "add"
          [.ident "n", .call "sum" [.instr "sub" [.ident "n", .literal ⟨.number, "1", ""⟩]]])]]⟩]

theorem inline_order_irrelevant_squareOfSum :
    ∃ result after, squareOfSum.NoMutualRecursion ∧
      inline squareOfSum (.ofBlock squareOfSum) = .ok (result, after) ∧
      [2, 0, 1].Perm (List.range squareOfSum.length) ∧
      (∀ name ∈ ["sum", "square"], name ∈ squareOfSum.functionNames) ∧
      ∃ start final,
        Inliner.ofModule? (squareOfSum.reorder [2, 0, 1]) (.ofBlock squareOfSum) = .ok start ∧
        (do ["sum", "square"].forM demand; expandModule : InlineM Unit) start = .ok () final ∧
        ∃ π : Equiv.Perm String, (∀ name ∈ Block.names squareOfSum, π name = name) ∧
          final.module = Block.mapNames π (result.reorder [2, 0, 1]) := by
  have hnone : squareOfSum.NoMutualRecursion :=
    Block.noMutualRecursion_of_rank (fun _ => 0) (by decide +kernel)
  have hknown : ∀ name ∈ Block.names squareOfSum,
      (NameSupply.ofBlock squareOfSum).isUsed name = true := fun _ => NameSupply.isUsed_ofBlock.mpr
  have horder : [2, 0, 1].Perm (List.range squareOfSum.length) := by decide +kernel
  have hwanted : ∀ name ∈ ["sum", "square"], name ∈ squareOfSum.functionNames := by decide +kernel
  have hsucceeds : (inline squareOfSum (.ofBlock squareOfSum)).isOk = true := by decide +kernel
  cases hinline : inline squareOfSum (.ofBlock squareOfSum) with
  | error error =>
    rw [hinline] at hsucceeds
    cases hsucceeds
  | ok output =>
    obtain ⟨result, after⟩ := output
    exact ⟨result, after, hnone, rfl, horder, hwanted,
      inline_order_irrelevant hnone hinline hknown hknown horder hwanted⟩

end YulInline
