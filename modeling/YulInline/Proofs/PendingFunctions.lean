import YulInline.Proofs.Callees
import YulInline.Proofs.DirectRuns

/-!
# Which functions are pending

Demanding functions is a depth-first search in the graph of calls: a function stops being pending
when the search comes to it, before the calls in its body are followed. `Searched` is what holds of
the states before and after a part of the search. It says nothing about functions that were not
pending before, which are complete or under way further out: the calls of the latter are followed by
the part of the search that has come to them.

The bodies in which calls are followed change meanwhile. But the body of a function is visited once,
as it was at the start, since until then nothing changes it (`Inliner.Intact`).
-/

namespace YulInline

open InlineM

variable {module : Block}

/-! ## What is left as it was -/

/-- The functions that are pending are as they were at the start. -/
structure Inliner.Intact (inliner : Inliner) (module : Block) : Prop where
  /-- No function is pending twice. -/
  nodup : inliner.pending.Nodup
  /-- Apart from bodies, the root block is the same. -/
  shells : inliner.module.map (Stmt.withBody []) = module.map (Stmt.withBody [])
  /-- A function that is pending is as it was. -/
  waiting : ∀ i, inliner.Waits module i → inliner.module[i]? = module[i]?

theorem Inliner.Intact.start (names : NameSupply) (hnodup : module.functionNames.Nodup) :
    ({ module, pending := module.functionNames, names } : Inliner).Intact module :=
  ⟨hnodup, rfl, fun _ _ => rfl⟩

namespace Inliner.Intact

variable {inliner : Inliner}

/-- A function at a position has the name that it had at the start. -/
theorem original (h : inliner.Intact module) {i : Nat} {function : FunctionDef}
    (hi : inliner.module[i]? = some (.define function)) :
    ∃ original, module[i]? = some (.define original) ∧ original.name = function.name := by
  obtain ⟨body, hbody⟩ := Block.getElem?_define_of_shells h.shells hi
  exact ⟨_, hbody, rfl⟩

/-- A function that is found while it is pending stands where it did at the start, as it was. -/
theorem of_function? (h : inliner.Intact module) (hnodup : module.functionNames.Nodup)
    {name : String} {function : FunctionDef} (hfound : inliner.function? name = some function)
    (hpending : name ∈ inliner.pending) :
    function.name = name ∧ module[inliner.position name]? = some (.define function) := by
  have hnodup' : inliner.module.functionNames.Nodup := Block.functionNames_of_shells h.shells ▸ hnodup
  obtain ⟨hmem, rfl⟩ := (Block.function?_eq_some hnodup').mp hfound
  obtain ⟨i, hi⟩ := List.mem_iff_getElem?.mp hmem
  obtain ⟨original, horiginal, hname⟩ := h.original hi
  have hsame := h.waiting i ⟨original, horiginal, hname ▸ hpending⟩
  obtain ⟨found, hfound, hname'⟩ := Inliner.getElem?_position hmem
  rw [Block.position_unique hnodup' hfound hi hname', ← hsame]
  exact ⟨rfl, hi⟩

end Inliner.Intact

/-! ## What a search does -/

/-- What a search from the functions `wanted` has done to the functions of a module. -/
structure Searched (module : Block) (wanted : List String) (before after : Inliner) : Prop where
  /-- Functions only stop being pending. -/
  pending : after.pending.Sublist before.pending
  /-- Apart from bodies, the root block is the same. -/
  shells : after.module.map (Stmt.withBody []) = before.module.map (Stmt.withBody [])
  /-- A function that is pending is as it was. -/
  waiting : ∀ i, after.Waits module i → after.module[i]? = before.module[i]?
  /-- The functions that the search starts from are pending no more. -/
  gone : ∀ name ∈ wanted, name ∉ after.pending
  /-- The search comes to functions only that calls lead to. -/
  reached : ∀ name ∈ before.pending, name ∉ after.pending →
    ∃ first ∈ wanted, module.Reaches first name
  /-- The calls of the functions that it comes to have been followed. -/
  closed : ∀ name ∈ before.pending, name ∉ after.pending →
    ∀ callee, module.Calls name callee → callee ∉ after.pending

namespace Searched

variable {wanted wanted' : List String} {before between after : Inliner}

/-- Nothing is searched where no function stops being pending. -/
theorem of_pending_eq (hpending : after.pending = before.pending)
    (hshells : after.module.map (Stmt.withBody []) = before.module.map (Stmt.withBody []))
    (hwaiting : ∀ i, after.Waits module i → after.module[i]? = before.module[i]?) :
    Searched module [] before after := by
  have hstill : ∀ {name : String}, name ∈ before.pending → name ∉ after.pending → False :=
    fun hbefore hafter => hafter (hpending ▸ hbefore)
  exact ⟨hpending ▸ List.Sublist.refl _, hshells, hwaiting, by simp,
    fun _ hbefore hafter => (hstill hbefore hafter).elim,
    fun _ hbefore hafter => (hstill hbefore hafter).elim⟩

/-- Two searches, one after the other. -/
theorem trans (h : Searched module wanted before between)
    (h' : Searched module wanted' between after) :
    Searched module (wanted ++ wanted') before after := by
  have hstay : ∀ name, name ∉ between.pending → name ∉ after.pending :=
    fun name hname hmem => hname (h'.pending.subset hmem)
  refine ⟨h'.pending.trans h.pending, h'.shells.trans h.shells, fun i hwaits => ?_, ?_,
    fun name hbefore hafter => ?_, fun name hbefore hafter callee hcalls => ?_⟩
  · rw [h'.waiting i hwaits, h.waiting i (hwaits.of_sublist h'.pending)]
  · rw [List.forall_mem_append]
    exact ⟨fun name hname => hstay name (h.gone name hname), h'.gone⟩
  · by_cases hbetween : name ∈ between.pending
    · obtain ⟨first, hfirst, hreach⟩ := h'.reached name hbetween hafter
      exact ⟨first, List.mem_append_right _ hfirst, hreach⟩
    · obtain ⟨first, hfirst, hreach⟩ := h.reached name hbefore hbetween
      exact ⟨first, List.mem_append_left _ hfirst, hreach⟩
  · by_cases hbetween : name ∈ between.pending
    · exact h'.closed name hbetween hafter callee hcalls
    · exact hstay callee (h.closed name hbefore hbetween callee hcalls)

/-- A function that is pending no longer when its calls are followed has been searched from. -/
theorem of_callees {function : FunctionDef} (hnodup : module.functionNames.Nodup)
    (hmem : .define function ∈ module) (hdistinct : before.pending.Nodup)
    (h : Searched module ((Block.calls function.body).map Prod.fst)
      { before with pending := before.pending.erase function.name } after) :
    Searched module [function.name] before after := by
  have hcalls : ∀ callee, module.Calls function.name callee ↔
      callee ∈ (Block.calls function.body).map Prod.fst := by
    intro callee
    refine ⟨?_, fun hcallee => ⟨function, Block.mem_functions.mpr hmem, rfl, hcallee⟩⟩
    rintro ⟨other, hother, hname, hcallee⟩
    obtain rfl := List.inj_on_of_nodup_map hnodup hother (Block.mem_functions.mpr hmem) hname
    exact hcallee
  have hgone : function.name ∉ after.pending := fun hpending =>
    (hdistinct.mem_erase_iff.mp (h.pending.subset hpending)).1 rfl
  -- Either it is this function that the search has come to, or it has come there by a call.
  have hcases : ∀ name ∈ before.pending,
      name = function.name ∨ name ∈ before.pending.erase function.name := fun name hname =>
    or_iff_not_imp_left.mpr fun hother => hdistinct.mem_erase_iff.mpr ⟨hother, hname⟩
  refine ⟨h.pending.trans List.erase_sublist, h.shells, h.waiting, ?_,
    fun name hbefore hafter => ?_, fun name hbefore hafter callee hcallee => ?_⟩
  · rw [List.forall_mem_singleton]
    exact hgone
  · refine ⟨function.name, List.mem_singleton_self _, ?_⟩
    rcases hcases name hbefore with rfl | herase
    · exact .refl
    · obtain ⟨first, hfirst, hreach⟩ := h.reached name herase hafter
      exact hreach.head ((hcalls first).mpr hfirst)
  · rcases hcases name hbefore with rfl | herase
    · exact h.gone callee ((hcalls callee).mp hcallee)
    · exact h.closed name herase hafter callee hcallee

/-- Along a path from a function that the search starts from, no function is pending in the end. -/
theorem not_pending_of_reaches (h : Searched module wanted before after)
    (hall : ∀ name ∈ module.functionNames, name ∈ before.pending) {first name : String}
    (hfirst : first ∈ wanted) (hreach : module.Reaches first name) : name ∉ after.pending := by
  induction hreach with
  | refl => exact h.gone first hfirst
  | tail _ hcalls ih =>
    obtain ⟨caller, hcaller, hname, -⟩ := id hcalls
    exact h.closed _ (hall _ (hname ▸ List.mem_map_of_mem hcaller)) ih _ hcalls

end Searched

theorem Inliner.Intact.searched {wanted : List String} {before after : Inliner}
    (h : before.Intact module) (hsearched : Searched module wanted before after) :
    after.Intact module := by
  refine ⟨h.nodup.sublist hsearched.pending, hsearched.shells.trans h.shells, fun i hwaits => ?_⟩
  rw [hsearched.waiting i hwaits]
  exact h.waiting i (hwaits.of_sublist hsearched.pending)

/-! ## Demands search -/

/-- A part of an expansion searches from the functions `wanted`, if pending functions are as they
were and no more than `bound`. -/
def Searches (module : Block) (bound : Nat) (wanted : List String) (before after : Inliner) :
    Prop :=
  before.Intact module → before.pending.length ≤ bound → Searched module wanted before after

/-- The expansion of a body searches from the functions that are called in it, if its demands search
and it does not belong to a pending function. -/
theorem Site.marked_searches {site : Site} {bound : Nat}
    (hdemand : ∀ name, (site.demand name).Leads (Searches module bound [name])) :
    site.Marked fun wanted before after =>
      ¬ before.Waits module site.position → Searches module bound wanted before after where
  quiet hmodule hpending _ _ _ :=
    Searched.of_pending_eq hpending (by rw [hmodule]) fun _ _ => by rw [hmodule]
  publish before body hsite _ _ := by
    refine Searched.of_pending_eq rfl (@Kept.setBody module before _ body).shells ?_
    intro i hwaits
    exact List.getElem?_modify_ne _ _ fun heq => hsite (heq ▸ hwaits)
  demand name := (hdemand name).mono fun _ _ hsearches _ => hsearches
  trans h h' hsite hintact hbound := by
    have hsearched := h hsite hintact hbound
    refine hsearched.trans (h' (fun hwaits => hsite ?_) (hintact.searched hsearched) ?_)
    · exact hwaits.of_sublist hsearched.pending
    · exact hsearched.pending.length_le.trans hbound

/-- With as much fuel as functions are pending, a demand searches from its function. -/
theorem InlineM.demandDirectlyWith_searches (hnodup : module.functionNames.Nodup) (fuel : Nat) :
    ∀ name, (demandDirectlyWith fuel name).Leads (Searches module fuel [name]) := by
  have hskip : ∀ {name : String} {inliner : Inliner}, name ∉ inliner.pending →
      Searched module [name] inliner inliner := by
    intro name inliner hname
    refine ⟨List.Sublist.refl _, rfl, fun _ _ => rfl, ?_, fun _ hmem hnot => absurd hmem hnot,
      fun _ hmem hnot => absurd hmem hnot⟩
    rw [List.forall_mem_singleton]
    exact hname
  induction fuel with
  | zero =>
    intro name inliner
    rw [demandDirectlyWith]
    refine (outcome_function inliner name).bind ?_ fun _ _ _ => trivial
    rintro function after ⟨rfl, -⟩ hintact hbound
    have hempty := List.eq_nil_of_length_eq_zero (Nat.le_zero.mp hbound)
    exact hskip (by simp [hempty])
  | succ fuel ih =>
    intro name inliner
    rw [demandDirectlyWith]
    refine (outcome_function inliner name).bind ?_ fun _ _ _ => trivial
    rintro function after ⟨rfl, hfound⟩
    show InlineM.Outcome (ite (after.isPending name = true) _ _) after _ _
    split
    · next hpending =>
      have hmem : name ∈ after.pending := List.contains_iff_mem.mp hpending
      have hmarked :=
        @Site.marked_searches module ⟨after.position name, name, demandDirectlyWith fuel⟩ fuel ih
      have hbody := expandBodyDirectly_leads hmarked function.body
        { after with pending := after.pending.erase name }
      refine hbody.mono (fun _ final hfinal hintact hbound => ?_) fun _ _ _ => trivial
      obtain ⟨rfl, hposition⟩ := hintact.of_function? hnodup hfound hmem
      have hnot : function.name ∉ after.pending.erase function.name :=
        hintact.nodup.not_mem_erase
      have hlength := List.length_erase_of_mem hmem
      have hentered : ({ after with pending := after.pending.erase function.name } :
          Inliner).Intact module :=
        ⟨hintact.nodup.erase _, hintact.shells, fun i hwaits =>
          hintact.waiting i (hwaits.of_sublist List.erase_sublist)⟩
      refine Searched.of_callees hnodup (List.mem_of_getElem? hposition) hintact.nodup ?_
      refine hfinal ?_ hentered ?_
      · rintro ⟨other, hother, hpending'⟩
        obtain rfl : function = other :=
          Stmt.define.inj (Option.some.inj (hposition.symm.trans hother))
        exact hnot hpending'
      · show (after.pending.erase function.name).length ≤ fuel
        omega
    · next hpending =>
      exact fun _ _ => hskip fun hmem => hpending (List.contains_iff_mem.mpr hmem)

/-- Demands of functions, one after the other, search from all of them. -/
theorem InlineM.demandsDirectly_search (hnodup : module.functionNames.Nodup) (wanted : List String) :
    (wanted.forM demandDirectly).Leads fun before after =>
      before.Intact module → Searched module wanted before after := by
  induction wanted with
  | nil => exact fun inliner _ => Searched.of_pending_eq rfl rfl fun _ _ => rfl
  | cons name wanted ih =>
    have hdemand : (demandDirectly name).Leads fun before after =>
        before.Intact module → Searched module [name] before after := fun inliner =>
      (demandDirectlyWith_searches hnodup inliner.pending.length name inliner).mono
        (fun _ _ hsearches hintact => hsearches hintact le_rfl) fun _ _ _ => trivial
    refine hdemand.bind (fun _ => ih) fun before between after h h' hintact => ?_
    exact (h hintact).trans (h' (hintact.searched (h hintact)))

/-! ## The functions that are pending in the end -/

/-- After functions have been demanded, a function is pending if and only if no calls lead to it
from one of them; and as long as it is, it is what it was in the module. -/
theorem isPending_iff_not_reached {names : NameSupply} {wanted : List String}
    {start final : Inliner} (hstart : Inliner.ofModule? module names = .ok start)
    (hrun : wanted.forM demand start = .ok () final) {function : FunctionDef}
    (hfunction : .define function ∈ module) :
    (final.isPending function.name = true ↔
      ∀ name ∈ wanted, ¬ module.Reaches name function.name) ∧
    (final.isPending function.name = true → final.function? function.name = some function) := by
  have hof := ofModule?_spec module names
  rw [hstart] at hof
  obtain ⟨hnodup, rfl⟩ := hof
  have hintact := Inliner.Intact.start names hnodup
  have hsearched := demandsDirectly_search hnodup wanted
    { module, pending := module.functionNames, names }
  rw [InlineM.Outcome, ← demands_eq_directly hnodup, hrun] at hsearched
  replace hsearched := hsearched hintact
  have hmem : ∀ {name : String}, final.isPending name = true ↔ name ∈ final.pending :=
    List.contains_iff_mem
  have hknown : function.name ∈ module.functionNames :=
    List.mem_map_of_mem (Block.mem_functions.mpr hfunction)
  refine ⟨⟨fun hpending name hname hreach => ?_, fun hnone => ?_⟩, fun hpending => ?_⟩
  · exact hsearched.not_pending_of_reaches (fun _ => id) hname hreach (hmem.mp hpending)
  · by_contra hpending
    rw [hmem] at hpending
    obtain ⟨first, hfirst, hreach⟩ := hsearched.reached _ hknown hpending
    exact hnone first hfirst hreach
  · have hfinal := hintact.searched hsearched
    obtain ⟨i, hi⟩ := List.mem_iff_getElem?.mp hfunction
    have hsame := hfinal.waiting i ⟨function, hi, hmem.mp hpending⟩
    have hnodup' : final.module.functionNames.Nodup :=
      Block.functionNames_of_shells hfinal.shells ▸ hnodup
    refine (Block.function?_eq_some hnodup').mpr ⟨?_, rfl⟩
    exact List.mem_of_getElem? (hsame.trans hi)

/-- A function that calls another one inside an argument, and one that nothing calls. -/
def unusedCaller : Block :=
  [.define ⟨"unused", [], [], [.expr (.instr "pop" [.call "first" []])]⟩,
    .define ⟨"first", [], [⟨"r", ""⟩],
      [.assign ["r"] (.call "twice" [.call "second" [.literal ⟨.number, "1", ""⟩]])]⟩,
    .define ⟨"twice", [⟨"x", ""⟩], [⟨"y", ""⟩],
      [.assign ["y"] (.instr "add" [.ident "x", .ident "x"])]⟩,
    .define ⟨"second", [⟨"u", ""⟩], [⟨"v", ""⟩], [.assign ["v"] (.ident "u")]⟩]

theorem isPending_iff_not_reached_unusedCaller :
    ∃ start final, Inliner.ofModule? unusedCaller (.ofBlock unusedCaller) = .ok start ∧
      ["first"].forM demand start = .ok () final ∧ final.pending = ["unused"] ∧
      ∀ function, .define function ∈ unusedCaller →
        (final.isPending function.name = true ↔
          ∀ name ∈ ["first"], ¬ unusedCaller.Reaches name function.name) ∧
        (final.isPending function.name = true →
          final.function? function.name = some function) := by
  have hstart : Inliner.ofModule? unusedCaller (.ofBlock unusedCaller) =
      .ok ⟨unusedCaller, ["unused", "first", "twice", "second"], .ofBlock unusedCaller, []⟩ := rfl
  have hpending : (match ["first"].forM demand
      ⟨unusedCaller, ["unused", "first", "twice", "second"], .ofBlock unusedCaller, []⟩ with
      | .ok _ final => some final.pending
      | .error _ _ => none) = some ["unused"] := by
    decide +kernel
  cases hrun : ["first"].forM demand
      ⟨unusedCaller, ["unused", "first", "twice", "second"], .ofBlock unusedCaller, []⟩ with
  | ok _ final =>
    rw [hrun] at hpending
    exact ⟨_, final, hstart, hrun, Option.some.inj hpending,
      fun function hfunction => isPending_iff_not_reached hstart hrun hfunction⟩
  | error error final =>
    rw [hrun] at hpending
    cases hpending

end YulInline
