import YulInline.Proofs.Callees

/-!
# The calls that remain

What an expansion keeps are the calls of functions with no return variable or several, and those of
the function whose body is expanded; all other calls in the result are in copies. If no two
functions of a module call each other, a body is complete by the time it is copied. Thus a call that
remains anywhere in the result is one of a function whose calls are never expanded, or of a function
that called itself at the start.
-/

namespace YulInline

variable {module : Block} {caller : String}

/-- A call stays where it is in the body of `caller`: its function has no return variable or
several, or is `caller` itself. -/
def Block.Keeps (module : Block) (caller : String) (call : String × Nat) : Prop :=
  ∃ callee : FunctionDef, callee.FormIn module ∧ callee.result? caller = none ∧
    call = (callee.name, callee.params.length)

theorem FunctionDef.Copied.calls {function : FunctionDef} {arguments : List String}
    {result holder : String} {copy : Block} (h : function.Copied arguments result holder copy) :
    Block.calls copy = Block.calls function.body := by
  obtain ⟨-, names, rfl⟩ := h
  exact Block.calls_copy function.body { names }

theorem Expr.ExpandsArgs.length {types : List String} {toFront : Bool} {args args' : List Expr}
    {hoisted : List Stmt} {t : Trace}
    (h : Expr.ExpandsArgs module caller types toFront args hoisted args' t) :
    args'.length = args.length := by
  induction args generalizing types toFront args' hoisted t with
  | nil =>
    cases h
    rfl
  | cons arg args ih =>
    cases h with
    | stays _ hargs => rw [List.length_cons, List.length_cons, ih hargs]
    | holder _ _ hargs => rw [List.length_cons, List.length_cons, ih hargs]
    | bound _ _ hargs => rw [List.length_cons, List.length_cons, ih hargs]

section Expands

variable {p : String × Nat → Prop}

mutual

/-- What holds of the calls in an expression that stay, and of those in the bodies that are copied,
holds of all calls that remain. -/
theorem Expr.Expands.remaining {e e' : Expr} {hoisted : List Stmt} {t : Trace} :
    Expr.Expands module caller e hoisted e' t →
      (∀ call ∈ e.calls, module.Keeps caller call → p call) →
      (∀ expansion ∈ t.expansions, ∀ call ∈ Block.calls expansion.callee.body, p call) →
      (∀ call ∈ e'.calls, p call) ∧ ∀ call ∈ Block.calls hoisted, p call
  | .literal _, _, _ => by simp [Expr.calls, Block.calls]
  | .ident _, _, _ => by simp [Expr.calls, Block.calls]
  | .instr _ hargs, hkept, hcopies => by
    rw [Expr.calls] at hkept ⊢
    exact hargs.remaining hkept hcopies
  | .kept hform hresult hcount hargs, hkept, hcopies => by
    rw [Expr.calls, List.forall_mem_cons] at hkept ⊢
    obtain ⟨hrest, hhoisted⟩ := hargs.remaining hkept.2 hcopies
    refine ⟨⟨?_, hrest⟩, hhoisted⟩
    rw [hcount] at hkept
    rw [hargs.length, hcount]
    exact hkept.1 ⟨_, hform, hresult, rfl⟩
  | .expanded _ _ _ hargs hcopy, hkept, hcopies => by
    rw [Expr.calls, List.forall_mem_cons] at hkept
    rw [Trace.expansions_append, List.forall_mem_append, List.forall_mem_singleton] at hcopies
    obtain ⟨-, hhoisted⟩ := hargs.remaining hkept.2 hcopies.1
    refine ⟨by simp [Expr.calls], ?_⟩
    rw [Block.calls] at hhoisted ⊢
    simp only [Block.gather_append, Block.gather_cons, Block.gather_nil, Stmt.gather_declare,
      Stmt.gather_block, Stmt.ownCalls, Expr.callsOfValue, List.nil_append, List.append_nil,
      List.forall_mem_append]
    refine ⟨hhoisted, fun call hcall => hcopies.2 call ?_⟩
    rw [← FunctionDef.Copied.calls hcopy]
    exact hcall

theorem Expr.ExpandsArgs.remaining {types : List String} {toFront : Bool} {args args' : List Expr}
    {hoisted : List Stmt} {t : Trace} :
    Expr.ExpandsArgs module caller types toFront args hoisted args' t →
      (∀ call ∈ Expr.callsOfArgs args, module.Keeps caller call → p call) →
      (∀ expansion ∈ t.expansions, ∀ call ∈ Block.calls expansion.callee.body, p call) →
      (∀ call ∈ Expr.callsOfArgs args', p call) ∧ ∀ call ∈ Block.calls hoisted, p call
  | .nil _ _, _, _ => by simp [Expr.callsOfArgs, Block.calls]
  | .stays harg hargs, hkept, hcopies => by
    rw [Expr.callsOfArgs, List.forall_mem_append] at hkept ⊢
    rw [Trace.expansions_append, List.forall_mem_append] at hcopies
    obtain ⟨hfirst, -⟩ := harg.remaining hkept.1 hcopies.1
    obtain ⟨hrest, hlater⟩ := hargs.remaining hkept.2 hcopies.2
    exact ⟨⟨hfirst, hrest⟩, hlater⟩
  | .holder harg _ hargs, hkept, hcopies => by
    rw [Expr.callsOfArgs, List.forall_mem_append] at hkept ⊢
    rw [Trace.expansions_append, List.forall_mem_append] at hcopies
    obtain ⟨hfirst, hfront⟩ := harg.remaining hkept.1 hcopies.1
    obtain ⟨hrest, hlater⟩ := hargs.remaining hkept.2 hcopies.2
    rw [Block.calls] at hfront hlater ⊢
    rw [Block.gather_append, List.forall_mem_append]
    exact ⟨⟨hfirst, hrest⟩, hlater, hfront⟩
  | .bound harg _ hargs, hkept, hcopies => by
    rw [Expr.callsOfArgs, List.forall_mem_append] at hkept ⊢
    rw [Trace.expansions_append, Trace.expansions_append, List.append_nil,
      List.forall_mem_append] at hcopies
    obtain ⟨hfirst, hfront⟩ := harg.remaining hkept.1 hcopies.1
    obtain ⟨hrest, hlater⟩ := hargs.remaining hkept.2 hcopies.2
    rw [Block.calls] at hfront hlater ⊢
    simp only [Block.gather_append, Block.gather_cons, Block.gather_nil, Stmt.gather_declare,
      Stmt.ownCalls, Expr.callsOfValue, List.append_nil, List.forall_mem_append]
    exact ⟨⟨by simp [Expr.calls], hrest⟩, hlater, hfront, hfirst⟩

end

mutual

/-- The same for a statement that is expanded completely. -/
theorem Stmt.Expands.remaining {stmt stmt' : Stmt} {hoisted : List Stmt} {t : Trace} :
    Stmt.Expands module caller stmt hoisted stmt' t → t.complete = true →
      (∀ call ∈ stmt.gather Stmt.ownCalls, module.Keeps caller call → p call) →
      (∀ expansion ∈ t.expansions, ∀ call ∈ Block.calls expansion.callee.body, p call) →
      (∀ call ∈ stmt'.gather Stmt.ownCalls, p call) ∧ ∀ call ∈ Block.calls hoisted, p call
  | .untouched _, h, _, _ => by simp at h
  | .expr hvalue, _, hkept, hcopies => by
    rw [Stmt.gather_expr] at hkept ⊢
    exact hvalue.remaining hkept hcopies
  | .assign _ hvalue, _, hkept, hcopies => by
    rw [Stmt.gather_assign] at hkept ⊢
    exact hvalue.remaining hkept hcopies
  | .empty _, _, _, _ => by simp [Stmt.ownCalls, Expr.callsOfValue, Block.calls]
  | .declare _ hvalue, _, hkept, hcopies => by
    rw [Stmt.gather_declare] at hkept ⊢
    exact hvalue.remaining hkept hcopies
  | .branch hcondition hbody, h, hkept, hcopies => by
    rw [Trace.complete_append] at h
    rw [Stmt.gather_branch, List.forall_mem_append] at hkept ⊢
    rw [Trace.expansions_append, List.forall_mem_append] at hcopies
    obtain ⟨hown, hhoisted⟩ := hcondition.remaining hkept.1 hcopies.1
    exact ⟨⟨hown, hbody.remaining h.2 hkept.2 hcopies.2⟩, hhoisted⟩
  | .switch hscrutinee hcases, h, hkept, hcopies => by
    rw [Trace.complete_append] at h
    rw [Stmt.gather_switch, List.forall_mem_append] at hkept ⊢
    rw [Trace.expansions_append, List.forall_mem_append] at hcopies
    obtain ⟨hown, hhoisted⟩ := hscrutinee.remaining hkept.1 hcopies.1
    exact ⟨⟨hown, hcases.remaining h.2 hkept.2 hcopies.2⟩, hhoisted⟩
  | .loop _ hinit hstep hbody, h, hkept, hcopies => by
    rw [Trace.complete_append, Trace.complete_append] at h
    simp only [Stmt.gather_loop, List.forall_mem_append] at hkept ⊢
    simp only [Trace.expansions_append, List.forall_mem_append] at hcopies
    refine ⟨⟨by simp [Stmt.ownCalls], ⟨?_, ?_⟩, ?_⟩, by simp [Block.calls]⟩
    · exact hinit.remaining h.1.1 hkept.2.1.1 hcopies.1.1
    · exact hstep.remaining h.1.2 hkept.2.1.2 hcopies.1.2
    · exact hbody.remaining h.2 hkept.2.2 hcopies.2
  | .block hbody, h, hkept, hcopies => by
    rw [Stmt.gather_block, List.forall_mem_append] at hkept ⊢
    exact ⟨⟨by simp [Stmt.ownCalls], hbody.remaining h hkept.2 hcopies⟩, by simp [Block.calls]⟩

theorem Case.Expands.remaining {cases cases' : List Case} {t : Trace} :
    Case.Expands module caller cases cases' t → t.complete = true →
      (∀ call ∈ Case.gather Stmt.ownCalls cases, module.Keeps caller call → p call) →
      (∀ expansion ∈ t.expansions, ∀ call ∈ Block.calls expansion.callee.body, p call) →
      ∀ call ∈ Case.gather Stmt.ownCalls cases', p call
  | .nil, _, _, _ => by simp
  | .cons _ hbody hcases, h, hkept, hcopies => by
    rw [Trace.complete_append] at h
    rw [Case.gather_cons, List.forall_mem_append] at hkept ⊢
    rw [Trace.expansions_append, List.forall_mem_append] at hcopies
    exact ⟨hbody.remaining h.1 hkept.1 hcopies.1, hcases.remaining h.2 hkept.2 hcopies.2⟩

theorem Block.Expands.remaining {block block' : Block} {t : Trace} :
    Block.Expands module caller block block' t → t.complete = true →
      (∀ call ∈ Block.gather Stmt.ownCalls block, module.Keeps caller call → p call) →
      (∀ expansion ∈ t.expansions, ∀ call ∈ Block.calls expansion.callee.body, p call) →
      ∀ call ∈ Block.gather Stmt.ownCalls block', p call
  | .nil, _, _, _ => by simp
  | .cons hstmt hstmts, h, hkept, hcopies => by
    rw [Trace.complete_append] at h
    rw [Block.gather_cons, List.forall_mem_append] at hkept
    rw [Trace.expansions_append, List.forall_mem_append] at hcopies
    obtain ⟨hown, hhoisted⟩ := hstmt.remaining h.1 hkept.1 hcopies.1
    rw [Block.gather_append, Block.gather_cons, List.forall_mem_append, List.forall_mem_append]
    exact ⟨hhoisted, hown, hstmts.remaining h.2 hkept.2 hcopies.2⟩
  | .hold _ _, h, _, _ => by
    simp [Trace.onHold] at h

end

/-- The same for a statement of the root block. -/
theorem Stmt.RootExpands.remaining {stmt stmt' : Stmt} {t : Trace}
    (h : stmt.RootExpands module stmt' t) (hcomplete : t.complete = true)
    (hbody : ∃ body, stmt.body? = some body)
    (hkept : ∀ call ∈ stmt.gather Stmt.ownCalls, module.Keeps stmt.callerName call → p call)
    (hcopies : ∀ expansion ∈ t.expansions, ∀ call ∈ Block.calls expansion.callee.body, p call) :
    ∀ call ∈ stmt'.gather Stmt.ownCalls, p call := by
  cases h with
  | block hexpands =>
    rw [Stmt.gather_block] at hkept ⊢
    exact hexpands.remaining hcomplete hkept hcopies
  | define hexpands =>
    rw [Stmt.gather_define] at hkept ⊢
    exact hexpands.remaining hcomplete hkept hcopies
  | other hnone =>
    obtain ⟨body, hsome⟩ := hbody
    rw [hnone] at hsome
    cases hsome

end Expands

/-! ## Whole runs -/

/-- A call is of a function whose calls are never expanded, or of one that calls itself. -/
def Block.Remains (module : Block) (call : String × Nat) : Prop :=
  ∃ function ∈ Block.functions module, function.name = call.1 ∧
    (function.returns.length ≠ 1 ∨ module.Calls function.name function.name)

/-- A call that stays where it is remains. -/
theorem Block.Keeps.remains {stmt : Stmt} (hstmt : stmt ∈ module)
    (hnamed : "" ∉ module.functionNames) {call : String × Nat}
    (hcall : call ∈ stmt.gather Stmt.ownCalls) (h : module.Keeps stmt.callerName call) :
    module.Remains call := by
  obtain ⟨callee, ⟨original, hmem, heq⟩, hresult, rfl⟩ := h
  have hname : callee.name = original.name := by rw [heq]
  have hreturns : callee.returns = original.returns := by rw [heq]
  refine ⟨original, hmem, hname.symm, ?_⟩
  by_cases hone : original.returns.length = 1
  · -- The call is one of the function that it stands in.
    right
    obtain ⟨result, hsingle⟩ := List.length_eq_one_iff.mp hone
    have hsame : original.name = stmt.callerName := by
      by_contra hne
      have hsome : callee.result? stmt.callerName = some result :=
        FunctionDef.result?_eq_some.mpr ⟨hreturns.trans hsingle, hname ▸ hne⟩
      rw [hresult] at hsome
      cases hsome
    cases stmt with
    | define function =>
      rw [Stmt.gather_define] at hcall
      refine ⟨function, Block.mem_functions.mpr hstmt, hsame.symm, ?_⟩
      rw [← hname]
      exact List.mem_map_of_mem (f := Prod.fst) hcall
    | _ =>
      have hempty : original.name = "" := hsame
      exact absurd (List.mem_map.mpr ⟨original, hmem, hempty⟩) hnamed
  · exact Or.inl hone

namespace Inliner.Finished

variable {final : Inliner} {names : NameSupply} {own : Nat → Trace}

/-- Without mutual recursion, the calls in a statement of the result remain, if those in the bodies
that were copied do. -/
theorem remains_at (h : final.Finished module names own) (hnamed : "" ∉ module.functionNames) {i : Nat}
    {stmt stmt' : Stmt} (hstmt : module[i]? = some stmt) (hstmt' : final.module[i]? = some stmt')
    (hcopies : ∀ expansion ∈ (own i).expansions, ∀ call ∈ Block.calls expansion.callee.body,
      module.Remains call) :
    ∀ call ∈ stmt'.gather Stmt.ownCalls, module.Remains call := by
  have hmem := List.mem_of_getElem? hstmt
  obtain ⟨hroot, hcomplete⟩ := h.root_at hstmt hstmt'
  exact hroot.remaining hcomplete (h.bodies stmt hmem)
    (fun call hcall hkeeps => hkeeps.remains hmem hnamed hcall) hcopies

/-- Without mutual recursion, the calls in the functions of the result remain. -/
theorem remains_functions (h : final.Finished module names own) (hnone : module.NoMutualRecursion)
    (hnamed : "" ∉ module.functionNames) {function' : FunctionDef}
    (hmem : .define function' ∈ final.module) :
    ∀ call ∈ Block.calls function'.body, module.Remains call := by
  refine h.induction (p := fun function' => ∀ call ∈ Block.calls function'.body, module.Remains call)
    hnone (fun i function function' hbecomes hcopies => ?_) hmem
  have hcalls := h.remains_at hnamed hbecomes.before hbecomes.after hcopies
  rw [Stmt.gather_define] at hcalls
  exact hcalls

/-- Without mutual recursion, the calls in the result remain. -/
theorem remains (h : final.Finished module names own) (hnone : module.NoMutualRecursion)
    (hnamed : "" ∉ module.functionNames) :
    ∀ call ∈ Block.calls final.module, module.Remains call := by
  intro call hcall
  obtain ⟨stmt', hmem, hcall⟩ := Block.exists_of_mem_gather hcall
  obtain ⟨i, hlt', hi⟩ := List.getElem_of_mem hmem
  have hlt : i < module.length := h.length ▸ hlt'
  exact h.remains_at hnamed (List.getElem?_eq_getElem hlt) (hi ▸ List.getElem?_eq_getElem hlt')
    (h.forall_callees hnone (fun _ => h.remains_functions hnone hnamed) hlt) call hcall

end Inliner.Finished

/-- If no two functions of a module call each other and none has the empty name, whatever calls are
left in the result, apart from the conditions of loops, are of functions with no return variable or
several, and of functions that call themselves in the module. -/
theorem inline_remaining_calls {names after : NameSupply} {result : Block}
    (hnone : module.NoMutualRecursion) (hnamed : "" ∉ module.functionNames)
    (hinline : inline module names = .ok (result, after)) :
    ∀ call ∈ Block.calls result, ∃ function ∈ Block.functions module, function.name = call.1 ∧
      (function.returns.length ≠ 1 ∨ module.Calls function.name function.name) := by
  have hspec := inline_spec module names
  rw [hinline] at hspec
  obtain ⟨final, own, h, rfl, -, -⟩ := hspec
  exact h.remains hnone hnamed

/-- A function that calls itself, one with two return variables, and a block that calls both. -/
def repeatAndSplit : Block :=
  [.define ⟨"repeat", [⟨"n", ""⟩], [⟨"r", ""⟩],
      [.branch (.ident "n") [.assign ["r"] (.call "repeat" [.ident "r"])]]⟩,
    .define ⟨"split", [⟨"x", ""⟩], [⟨"low", ""⟩, ⟨"high", ""⟩], []⟩,
    .block
      [.declare [⟨"l", ""⟩, ⟨"h", ""⟩]
        (some (.call "split" [.call "repeat" [.literal ⟨.number, "1", ""⟩]]))]]

theorem inline_remaining_calls_repeatAndSplit :
    ∃ result names, repeatAndSplit.NoMutualRecursion ∧ "" ∉ repeatAndSplit.functionNames ∧
      inline repeatAndSplit (.ofBlock repeatAndSplit) = .ok (result, names) ∧
      ∀ call ∈ Block.calls result, ∃ function ∈ Block.functions repeatAndSplit,
        function.name = call.1 ∧ (function.returns.length ≠ 1 ∨
          repeatAndSplit.Calls function.name function.name) := by
  have hnone : repeatAndSplit.NoMutualRecursion :=
    Block.noMutualRecursion_of_rank (fun _ => 0) (by decide +kernel)
  have hnamed : "" ∉ repeatAndSplit.functionNames := by decide +kernel
  have hsucceeds : (inline repeatAndSplit (.ofBlock repeatAndSplit)).isOk = true := by
    decide +kernel
  cases hinline : inline repeatAndSplit (.ofBlock repeatAndSplit) with
  | error error =>
    rw [hinline] at hsucceeds
    cases hsucceeds
  | ok output =>
    exact ⟨output.1, output.2, hnone, hnamed, rfl, inline_remaining_calls hnone hnamed hinline⟩

end YulInline
