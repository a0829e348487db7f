import YulInline.Proofs.Callees
import YulInline.Proofs.ExpandedMeaning
import YulInline.Proofs.Meaning

/-!
# When the meaning is preserved

In a module without mutual recursion all copies come from functions of the result. By induction on
their size, a call of any of them does what its new body does, also when the calls in it are
answered by the functions of the module at the start; and what is copied is scoped, so that an
expansion does what the body did that it was made from. It follows that module and result have the
same calls: the calls of each are answered as the functions of the other do.
-/

namespace YulInline

variable {module : Block} {dialect : Dialect}

/-! ## Statements of the root block -/

theorem Block.functionNames_subset_names : module.functionNames ⊆ Block.names module := by
  intro name hname
  obtain ⟨function, hmem, rfl⟩ := List.mem_map.mp hname
  refine Block.introduced_subset_names module ?_
  refine Block.mem_gather_of_mem (Block.mem_functions.mp hmem) ?_
  rw [Stmt.gather_define]
  exact List.mem_append_left _ (List.mem_cons_self ..)

theorem Block.takenNames_subset_names : module.takenNames dialect ⊆ Block.names module := by
  rw [Block.takenNames]
  split
  · exact Block.functionNames_subset_names
  · exact List.nil_subset _

theorem Block.counted_iff_forall {functions : Signature} {block : Block} :
    Block.Counted dialect functions block ↔ ∀ stmt ∈ block, stmt.Counted dialect functions := by
  induction block with
  | nil => simp
  | cons stmt stmts ih => rw [Block.counted_cons, ih, List.forall_mem_cons]

theorem Stmt.RootExpands.counted {functions : Signature} (hfunctions : functions.Describes module)
    {stmt stmt' : Stmt} {t : Trace} (h : stmt.RootExpands module stmt' t)
    (hstmt : stmt.Counted dialect functions)
    (hcopies : ∀ expansion ∈ t.expansions, Block.Counted dialect functions expansion.callee.body) :
    stmt'.Counted dialect functions := by
  cases h with
  | block hbody =>
    rw [Stmt.counted_block] at hstmt ⊢
    exact hbody.counted hfunctions hstmt hcopies
  | define hbody =>
    rw [Stmt.counted_define] at hstmt ⊢
    exact hbody.counted hfunctions hstmt hcopies
  | other hbody => exact hstmt

theorem Stmt.RootExpands.definitions {stmt stmt' : Stmt} {t : Trace} {body' : Block}
    (h : stmt.RootExpands module stmt' t) (hbody' : stmt'.body? = some body') :
    ∃ body, stmt.body? = some body ∧ Block.definitions body' = Block.definitions body := by
  cases h with
  | block hbody =>
    obtain rfl := Option.some.inj hbody'
    exact ⟨_, rfl, hbody.definitions⟩
  | define hbody =>
    obtain rfl := Option.some.inj hbody'
    exact ⟨_, rfl, hbody.definitions⟩
  | other hbody => exact ⟨body', hbody', rfl⟩

/-! ## The result is well-formed -/

namespace Inliner.Finished

variable {final : Inliner} {own : Nat → Trace}

theorem scoped_functions (h : final.Finished module (.ofBlock module) own)
    (hmodule : module.WellFormed dialect) (hnone : module.NoMutualRecursion) :
    ∀ function', .define function' ∈ final.module → function'.Scoped (module.takenNames dialect) := by
  intro function' hmem
  refine h.induction hnone (fun i function function' hbecomes hcopies => ?_) hmem
  obtain ⟨hroot, hcomplete⟩ := h.root_at hbecomes.before hbecomes.after
  exact Stmt.scoped_define.mp (h.scoped_root
    (NameSupply.isUsed_ofBlock_append Block.takenNames_subset_names) hmodule.scope hbecomes.before
    hroot (hroot.held_eq_nil hcomplete) hcopies)

theorem counted_functions (h : final.Finished module (.ofBlock module) own)
    (hmodule : module.WellFormed dialect) (hnone : module.NoMutualRecursion) :
    ∀ function', .define function' ∈ final.module →
      Block.Counted dialect module.signature function'.body := by
  intro function' hmem
  refine h.induction (p := fun function' => Block.Counted dialect module.signature function'.body)
    hnone (fun i function function' hbecomes hcopies => ?_) hmem
  obtain ⟨hroot, -⟩ := h.root_at hbecomes.before hbecomes.after
  refine Stmt.counted_define.mp (hroot.counted (Block.signature_describes h.nodup) ?_ hcopies)
  exact Block.counted_iff_forall.mp hmodule.counted _ (List.mem_of_getElem? hbecomes.before)

/-- What a well-formed module without mutual recursion has become is well-formed. -/
theorem wellFormed (h : final.Finished module (.ofBlock module) own)
    (hmodule : module.WellFormed dialect) (hnone : module.NoMutualRecursion) :
    final.module.WellFormed dialect := by
  have htaken : final.module.takenNames dialect = module.takenNames dialect := by
    rw [Block.takenNames, h.functionNames, Block.takenNames]
  refine ⟨h.functionNames ▸ h.nodup, fun body' hbody' => ?_, ?_, ?_⟩
  · obtain ⟨stmt', hstmt', hbody'⟩ := List.mem_filterMap.mp hbody'
    obtain ⟨i, stmt, -, hstmt, hroot, -⟩ := h.exists_root hstmt'
    obtain ⟨body, hbody, hdefinitions⟩ := hroot.definitions hbody'
    rw [hdefinitions]
    exact hmodule.flat body (List.mem_filterMap.mpr ⟨stmt, List.mem_of_getElem? hstmt, hbody⟩)
  · rw [htaken]
    refine h.scoped_of_copies (NameSupply.isUsed_ofBlock_append Block.takenNames_subset_names)
      hmodule.scope fun expansion hexpansion => ?_
    obtain ⟨i, hi, hmem⟩ := List.mem_flatMap.mp (h.log.mem_iff.mp hexpansion)
    exact h.forall_callees hnone (h.scoped_functions hmodule hnone) (List.mem_range.mp hi) expansion
      hmem
  · rw [h.signature, Block.counted_iff_forall]
    intro stmt' hstmt'
    obtain ⟨i, stmt, hlt, hstmt, hroot, -⟩ := h.exists_root hstmt'
    refine hroot.counted (Block.signature_describes h.nodup) ?_
      (h.forall_callees hnone (h.counted_functions hmodule hnone) hlt)
    exact Block.counted_iff_forall.mp hmodule.counted stmt (List.mem_of_getElem? hstmt)

end Inliner.Finished

/-! ## Calls of the module and of the result -/

section Calls

variable {State Value : Type} [DecidableEq Value] {machine : Machine State Value}
  {call : String → List Value → Comp State (List Value)}

/-- Where calls are answered by running the functions of a module, calls of them do what they do. -/
theorem Block.called (hnodup : module.functionNames.Nodup)
    (hcall : call = module.answer machine (.ofCalls call)) {function : FunctionDef}
    (hmem : .define function ∈ module) : function.Called machine call := by
  have hfound := (Block.function?_eq_some hnodup).mpr ⟨hmem, rfl⟩
  rw [FunctionDef.Called]
  nth_rewrite 1 [hcall]
  funext arguments
  rw [Block.answer, hfound]

namespace Inliner.Finished

variable {final : Inliner} {own : Nat → Trace}

/-- What has become of a function does what the function does, if that holds for the functions that
were copied. -/
theorem run_eq (h : final.Finished module (.ofBlock module) own) (hmodule : module.WellFormed dialect)
    (hnone : module.NoMutualRecursion) {i : Nat} {function function' : FunctionDef}
    (hbecomes : final.Becomes module own i function function')
    (hcalled : ∀ expansion ∈ (own i).expansions, expansion.callee.Called machine call) :
    function'.run machine (.ofCalls call) = function.run machine (.ofCalls call) := by
  obtain ⟨hlt, -⟩ := List.getElem?_eq_some_iff.mp hbecomes.before
  have hscoped : function.Scoped (module.takenNames dialect) := Stmt.scoped_define.mp
    (h.scoped_module.mp hmodule.scope _ (List.mem_of_getElem? hbecomes.before))
  have hfresh : ∀ name ∈ (own i).names, name ∉ module.takenNames dialect ∧
      name ∉ (Stmt.define function).gather Stmt.introduced := fun name hname => h.fresh_at
    (NameSupply.isUsed_ofBlock_append Block.takenNames_subset_names) hbecomes.before hname
  simp only [Stmt.gather_define, Stmt.introduced, List.mem_append, List.mem_cons, not_or] at hfresh
  rw [hbecomes.same]
  refine FunctionDef.run_expands hbecomes.expands hbecomes.complete hscoped
    (fun expansion hexpansion => ⟨?_, hcalled expansion hexpansion⟩)
    ⟨h.nodup_names hlt, fun name hname => ⟨?_, (hfresh name hname).1⟩⟩
    fun name hname => (hfresh name hname).2.2
  · exact h.forall_callees hnone (h.scoped_functions hmodule hnone) hlt expansion hexpansion
  · rw [FunctionDef.interface, List.mem_append, not_or]
    exact (hfresh name hname).2.1.2

/-- What has become of a top-level block does what the block does, if calls of the functions that
were copied do what these do. -/
theorem run_block_eq (h : final.Finished module (.ofBlock module) own)
    (hmodule : module.WellFormed dialect) (hnone : module.NoMutualRecursion) {i : Nat}
    {body body' : Block} (hbody : module[i]? = some (.block body))
    (hexpands : Block.Expands module "" body body' (own i)) (hcomplete : (own i).complete = true)
    (hcalled : ∀ expansion ∈ (own i).expansions, expansion.callee.Called machine call) :
    body'.run machine (.ofCalls call) = body.run machine (.ofCalls call) := by
  obtain ⟨hlt, -⟩ := List.getElem?_eq_some_iff.mp hbody
  have hscoped : (Stmt.block body).Scoped (module.takenNames dialect) [] :=
    h.scoped_module.mp hmodule.scope _ (List.mem_of_getElem? hbody)
  rw [Stmt.Scoped] at hscoped
  have hfresh : ∀ name ∈ (own i).names, name ∉ module.takenNames dialect ∧
      name ∉ (Stmt.block body).gather Stmt.introduced := fun name hname => h.fresh_at
    (NameSupply.isUsed_ofBlock_append Block.takenNames_subset_names) hbody hname
  rw [Stmt.gather_block] at hfresh
  refine Block.run_expands hexpands hcomplete hscoped
    (fun expansion hexpansion => ⟨?_, hcalled expansion hexpansion⟩)
    ⟨h.nodup_names hlt, fun name hname => ⟨List.not_mem_nil, (hfresh name hname).1⟩⟩
    fun name hname => (hfresh name hname).2
  exact h.forall_callees hnone (h.scoped_functions hmodule hnone) hlt expansion hexpansion

/-- Two modules answer calls alike if their functions do the same. -/
theorem answer_eq (h : final.Finished module (.ofBlock module) own)
    (hrun : ∀ i function function', final.Becomes module own i function function' →
      function'.run machine (.ofCalls call) = function.run machine (.ofCalls call)) :
    final.module.answer machine (.ofCalls call) = module.answer machine (.ofCalls call) := by
  have hnodup : final.module.functionNames.Nodup := h.functionNames ▸ h.nodup
  funext name arguments
  rw [Block.answer, Block.answer]
  cases hfound : module.function? name with
  | some function =>
    obtain ⟨hmem, rfl⟩ := (Block.function?_eq_some h.nodup).mp hfound
    obtain ⟨i, hi⟩ := List.mem_iff_getElem?.mp hmem
    obtain ⟨function', hbecomes⟩ := h.exists_becomes hi
    have hfound' : final.module.function? function.name = some function' :=
      (Block.function?_eq_some hnodup).mpr
        ⟨List.mem_of_getElem? hbecomes.after, by rw [hbecomes.same]⟩
    rw [hfound']
    exact congrFun (hrun i function function' hbecomes) arguments
  | none =>
    cases hfound' : final.module.function? name with
    | none => rfl
    | some function' =>
      obtain ⟨hmem, rfl⟩ := (Block.function?_eq_some hnodup).mp hfound'
      obtain ⟨i, function, hbecomes⟩ := h.becomes_of_mem hmem
      have hsome := (Block.function?_eq_some h.nodup).mpr
        ⟨List.mem_of_getElem? hbecomes.before, rfl⟩
      rw [hbecomes.same, hsome] at hfound
      cases hfound

/-- The module and what it has become have the same calls. -/
theorem call_eq (h : final.Finished module (.ofBlock module) own)
    (hmodule : module.WellFormed dialect) (hnone : module.NoMutualRecursion) :
    final.module.call machine = module.call machine := by
  have hnodup : final.module.functionNames.Nodup := h.functionNames ▸ h.nodup
  refine Block.call_congr ?_ ?_
  · have hcalled : ∀ function', .define function' ∈ final.module →
        function'.Called machine (final.module.call machine) := fun _ hmem =>
      Block.called hnodup Block.call_eq hmem
    have hanswer := h.answer_eq fun i function function' hbecomes =>
      h.run_eq hmodule hnone hbecomes (h.forall_callees hnone hcalled
        (List.getElem?_eq_some_iff.mp hbecomes.before).1)
    exact Block.call_eq.trans hanswer
  · have hcalled : ∀ function', .define function' ∈ final.module →
        function'.Called machine (module.call machine) := by
      intro function' hmem
      refine h.induction hnone (fun i function function' hbecomes hcopies => ?_) hmem
      have hold : function.Called machine (module.call machine) :=
        Block.called h.nodup Block.call_eq (List.mem_of_getElem? hbecomes.before)
      rw [FunctionDef.Called, h.run_eq hmodule hnone hbecomes hcopies, hbecomes.same]
      exact hold
    have hanswer := h.answer_eq fun i function function' hbecomes =>
      h.run_eq hmodule hnone hbecomes (h.forall_callees hnone hcalled
        (List.getElem?_eq_some_iff.mp hbecomes.before).1)
    exact Block.call_eq.trans hanswer.symm

end Inliner.Finished

/-! ## Whole runs -/

/-- If a well-formed module without mutual recursion is inlined, the result is well-formed, and its
functions and top-level blocks end as those of the module do: with the same values and states, or
halted in the same states, or never. -/
theorem inline_preserves_meaning {State : Type} (machine : Machine State Value) {result : Block}
    {names : NameSupply} (hmodule : module.WellFormed dialect) (hnone : module.NoMutualRecursion)
    (hinline : inline module (.ofBlock module) = .ok (result, names)) :
    result.WellFormed dialect ∧
    (∀ name arguments state outcome, result.CallEnds machine name arguments state outcome ↔
      module.CallEnds machine name arguments state outcome) ∧
    ∀ (i : Nat) (body : Block), module[i]? = some (.block body) →
      ∃ body', result[i]? = some (.block body') ∧
      ∀ state outcome, result.RunEnds machine body' state outcome ↔
        module.RunEnds machine body state outcome := by
  have hspec := inline_spec module (.ofBlock module)
  rw [hinline] at hspec
  obtain ⟨final, own, h, rfl, -, -⟩ := hspec
  have hcall : final.module.call machine = module.call machine := h.call_eq hmodule hnone
  refine ⟨h.wellFormed hmodule hnone, fun name arguments state outcome => ?_, fun i body hbody => ?_⟩
  · rw [Block.callEnds_iff, Block.callEnds_iff, hcall]
  · obtain ⟨hlt, -⟩ := List.getElem?_eq_some_iff.mp hbody
    obtain ⟨stmt, stmt', hstmt, hstmt', hroot, hcomplete⟩ := h.complete i hlt
    obtain rfl : .block body = stmt := Option.some.inj (hbody.symm.trans hstmt)
    generalize ht : own i = t at hroot hcomplete
    cases hroot with
    | @block _ body' _ hexpands =>
      refine ⟨body', hstmt', fun state outcome => ?_⟩
      have hnodup : final.module.functionNames.Nodup := h.functionNames ▸ h.nodup
      have hrun : body'.run machine (.ofCalls (final.module.call machine)) =
          body.run machine (.ofCalls (final.module.call machine)) :=
        h.run_block_eq hmodule hnone hbody (ht ▸ hexpands) (ht ▸ hcomplete)
          (h.forall_callees hnone (fun _ => Block.called hnodup Block.call_eq) hlt)
      rw [Block.runEnds_iff, Block.runEnds_iff, Block.engine, Block.engine, hrun, hcall]
    | other hnone => cases hnone

end Calls

/-- A function that calls itself and another one, and a block that calls it. -/
def countdown : Block :=
  [.define ⟨"next", [⟨"x", ""⟩], [⟨"y", ""⟩],
      [.assign ["y"] (.instr "add" [.ident "x", .literal ⟨.number, "1", ""⟩])]⟩,
    .define ⟨"count", [⟨"n", ""⟩], [⟨"r", ""⟩],
      [.branch (.ident "n")
        [.expr (.instr "log" [.ident "n"]),
          .assign ["r"] (.call "next"
            [.call "count" [.instr "sub" [.ident "n", .literal ⟨.number, "1", ""⟩]]])]]⟩,
    .block
      [.declare [⟨"z", ""⟩] (some (.call "next" [.call "count" [.literal ⟨.number, "1", ""⟩]])),
        .expr (.instr "log" [.ident "z"])]]

/-- A machine with numbers for values, which adds, subtracts, keeps a log and stops. -/
def Machine.tally : Machine (List Nat) Nat where
  zero := 0
  literal value := value.value.length
  isTrue value := value != 0
  instr op operands log :=
    match op, operands with
    | "add", [left, right] => .done [left + right] log
    | "sub", [left, right] => .done [left - right] log
    | "log", [value] => .done [] (log ++ [value])
    | "stop", [] => .halted log
    | _, _ => .done [] log

/-- The instructions of `Machine.tally`. -/
def Dialect.tally : Dialect where
  instr
    | "add" => some (2, 1)
    | "sub" => some (2, 1)
    | "log" => some (1, 0)
    | "stop" => some (0, 0)
    | _ => none
  drops count := count == 0
  sharesNames := true

theorem inline_preserves_meaning_countdown :
    ∃ result names, countdown.WellFormed .tally ∧ countdown.NoMutualRecursion ∧
      inline countdown (.ofBlock countdown) = .ok (result, names) ∧
      result.WellFormed .tally ∧ result.CallEnds .tally "count" [2] [] (.done [2] [2, 1]) ∧
      (∀ name arguments state outcome, result.CallEnds .tally name arguments state outcome ↔
        countdown.CallEnds .tally name arguments state outcome) ∧
      ∀ (i : Nat) (body : Block), countdown[i]? = some (.block body) →
        ∃ body', result[i]? = some (.block body') ∧
          ∀ state outcome, result.RunEnds .tally body' state outcome ↔
            countdown.RunEnds .tally body state outcome := by
  have hmodule : countdown.WellFormed .tally :=
    ⟨by decide +kernel, by decide +kernel, by decide +kernel, by decide +kernel⟩
  have hnone : countdown.NoMutualRecursion :=
    Block.noMutualRecursion_of_rank (fun name => if name = "next" then 0 else 1) (by decide +kernel)
  have hends : countdown.CallEnds .tally "count" [2] [] (.done [2] [2, 1]) := ⟨4, by rfl⟩
  have hsucceeds : (inline countdown (.ofBlock countdown)).isOk = true := by decide +kernel
  cases hinline : inline countdown (.ofBlock countdown) with
  | error error =>
    rw [hinline] at hsucceeds
    cases hsucceeds
  | ok output =>
    obtain ⟨hresult, hcalls, hblocks⟩ :=
      inline_preserves_meaning Machine.tally hmodule hnone hinline
    exact ⟨output.1, output.2, hmodule, hnone, rfl, hresult, (hcalls ..).mpr hends, hcalls, hblocks⟩

end YulInline
