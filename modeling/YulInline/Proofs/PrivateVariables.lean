import YulInline.Proofs.NameOrigins
import YulInline.Proofs.ObservedRuns
import YulInline.Proofs.RenamedMeaning

/-!
# Variables that a call has to itself

In the copy of a body, the parameters and the return variable have become variables that only what
was hoisted for the call knows of (`Instantiation.Private`): they occur neither in the module nor in
what has come of other expressions, so that an assignment in the copy spares all other variables
(`Instantiation.SparesOthers`).

`Inliner.Owns` says of variables why this is so. They have been given out since the expansion of the
call began, either for an argument or for the result of a call in it, and names that are in use, but
are not in the module, do not get there (`Inliner.Draws.absent`). What else is done in a run matters
only in that it draws on what it is given, and notes what is private: `ObserveM.Steady` says so of a
computation, `ObserveM.Achieves` of what becomes of one state.
-/

namespace YulInline

/-! ## What a call has to itself -/

namespace Instantiation

/-- The variables that hold the arguments and the result. -/
def holders (i : Instantiation) : List String :=
  i.expansion.arguments ++ [i.expansion.result]

/-- The call has the variables of the copy to itself. -/
structure Private (i : Instantiation) : Prop where
  /-- Every parameter and the return variable is substituted by one of them. -/
  substituted : (i.expansion.callee.interface.map fun name => i.rule.substitution.lookup name) =
    i.holders.map some
  /-- They are pairwise different. -/
  distinct : i.holders.Nodup
  /-- They have been given out since the expansion of the call began. -/
  dispensed : ∃ given, Dispensed i.start.names given i.now.names ∧ i.holders ⊆ given
  /-- They are declared by what was hoisted for the call. -/
  declared : i.holders ⊆ Block.declares i.hoisted
  /-- They occur nowhere in the module. -/
  absent : ∀ name ∈ i.holders, name ∉ Block.names i.now.module
  /-- They occur nowhere in what has come of other expressions. -/
  apart : ∀ name ∈ i.holders, name ∉ i.aside.names

/-- A variable that occurs in the module or in what is set aside has the same value after an
assignment in the copy as before, unless it is what has become of a target that is neither a
parameter nor the return variable. -/
def SparesOthers (i : Instantiation) : Prop :=
  ∀ {State Value : Type} [DecidableEq Value] (machine : Machine State Value)
    (engine : Engine State Value) (copier : Copier) (targets : List String) (value : Expr)
    (env : Env Value),
    Comp.Ensures (fun env' => ∀ name ∈ Block.names i.now.module ++ i.aside.names,
        (∀ target ∈ targets, copier.nameFor i.rule target = name →
          target ∈ i.expansion.callee.interface) → env' name = env name)
      (((Stmt.assign targets value).copy i.rule copier).1.exec machine engine env)

variable {i : Instantiation}

/-- What has become of a parameter or the return variable is private. -/
theorem Private.nameFor_mem (h : i.Private) (copier : Copier) {name : String}
    (hname : name ∈ i.expansion.callee.interface) :
    copier.nameFor i.rule name ∈ i.holders := by
  have hmem := List.mem_map_of_mem (f := fun name => i.rule.substitution.lookup name) hname
  rw [h.substituted] at hmem
  obtain ⟨var, hvar, heq⟩ := List.mem_map.mp hmem
  rwa [Copier.nameFor, ← heq]

theorem Private.sparesOthers (h : i.Private) : i.SparesOthers := by
  intro State Value _ machine engine copier targets value env
  rw [Stmt.copy_assign, Stmt.exec]
  refine (Comp.Ensures.trivial _).bind fun values _ => .ofOption fun env' henv' name hname hown => ?_
  rw [Env.assign?] at henv'
  split at henv'
  · refine Env.set?_of_not_mem (fun hmem => ?_) henv'
    obtain ⟨target, htarget, heq⟩ := List.mem_map.mp hmem
    have hvar : name ∈ i.holders := heq ▸ h.nameFor_mem copier (hown target htarget heq)
    exact (List.mem_append.mp hname).elim (h.absent name hvar) (h.apart name hvar)
  · cases henv'

end Instantiation

/-- Variables are the own ones of an expression: they are pairwise different, have been given out
between two states, are declared by what has been hoisted, and do not occur in the module. -/
structure Inliner.Owns (before after : Inliner) (hoisted : List Stmt) (vars : List String) : Prop where
  /-- None of them is there twice. -/
  nodup : vars.Nodup
  /-- They were not in use before. -/
  free : ∀ var ∈ vars, before.names.isUsed var = false
  /-- They are in use after. -/
  used : ∀ var ∈ vars, after.names.isUsed var = true
  /-- They are declared in front of the statement. -/
  declared : vars ⊆ Block.declares hoisted
  /-- They are not in the module. -/
  absent : ∀ var ∈ vars, var ∉ Block.names after.module

namespace Inliner.Owns

variable {before between after : Inliner} {sources yield : List String}
variable {hoisted hoisted' : List Stmt} {vars vars' : List String}

theorem nil (before after : Inliner) (hoisted : List Stmt) : before.Owns after hoisted [] := by
  constructor <;> simp

/-- They are none of the names that were in use. -/
theorem not_mem (h : before.Owns after hoisted vars) {names : List String}
    (hused : ∀ name ∈ names, before.names.isUsed name = true) : ∀ var ∈ vars, var ∉ names := by
  intro var hvar hmem
  have hfree := h.free var hvar
  rw [hused var hmem] at hfree
  cases hfree

/-- What is drawn from names that were in use before stays out of their way. -/
theorem later (h : before.Owns between hoisted vars) (hdraws : between.Draws sources after yield)
    (hsources : ∀ name ∈ sources, before.names.isUsed name = true) :
    before.Owns after hoisted vars :=
  ⟨h.nodup, h.free, fun var hvar => hdraws.isUsed (h.used var hvar), h.declared, fun var hvar =>
    hdraws.absent (h.used var hvar) (h.absent var hvar) (h.not_mem hsources var hvar)⟩

theorem earlier (hdraws : before.Draws sources between yield) (h : between.Owns after hoisted vars) :
    before.Owns after hoisted vars := by
  refine ⟨h.nodup, fun var hvar => ?_, h.used, h.declared, h.absent⟩
  by_contra hused
  have hfree := h.free var hvar
  rw [hdraws.isUsed (by simpa using hused)] at hfree
  cases hfree

theorem widen (h : before.Owns after hoisted vars)
    (hsub : Block.declares hoisted ⊆ Block.declares hoisted') : before.Owns after hoisted' vars :=
  ⟨h.nodup, h.free, h.used, List.Subset.trans h.declared hsub, h.absent⟩

/-- Those that were given out first, and those that were given out later. -/
theorem append {sources' yield' : List String} {all : List Stmt}
    (h : before.Owns between hoisted vars) (h' : between.Owns after hoisted' vars')
    (hdraws : before.Draws sources between yield) (hdraws' : between.Draws sources' after yield')
    (hsources' : ∀ name ∈ sources', before.names.isUsed name = true)
    (hsub : Block.declares hoisted ++ Block.declares hoisted' ⊆ Block.declares all) :
    before.Owns after all (vars ++ vars') := by
  rw [List.append_subset] at hsub
  have hfirst := (h.later hdraws' hsources').widen hsub.1
  have hsecond := (h'.earlier hdraws).widen hsub.2
  refine ⟨List.nodup_append'.mpr ⟨h.nodup, h'.nodup, fun var hvar hvar' => ?_⟩, ?_, ?_, ?_, ?_⟩
  · exact h'.not_mem h.used var hvar' hvar
  · exact List.forall_mem_append.mpr ⟨hfirst.free, hsecond.free⟩
  · exact List.forall_mem_append.mpr ⟨hfirst.used, hsecond.used⟩
  · exact List.append_subset.mpr ⟨hfirst.declared, hsecond.declared⟩
  · exact List.forall_mem_append.mpr ⟨hfirst.absent, hsecond.absent⟩

/-- A name that has just been given out. -/
theorem fresh (inliner : Inliner) (stem : String)
    (hknown : ∀ name ∈ Block.names inliner.module, inliner.names.isUsed name = true)
    (hdeclared : (inliner.names.fresh stem).1 ∈ Block.declares hoisted) :
    inliner.Owns { inliner with names := (inliner.names.fresh stem).2 } hoisted
      [(inliner.names.fresh stem).1] := by
  have hgiven := Dispensed.fresh inliner.names stem
  have hfree := fun name hname => (NameSupply.isFree_iff.mp (hgiven.free name hname)).2
  refine ⟨hgiven.nodup, hfree, fun _ => hgiven.isUsed_of_mem, by simpa using hdeclared, ?_⟩
  exact fun name hname hmodule => hgiven.not_mem_of_isUsed (hknown name hmodule) hname

end Inliner.Owns

/-! ## States of a run -/

/-- All expansions have been noted, and everything that has been noted is private. -/
structure Observed.Private (observed : Observed) : Prop where
  /-- No expansion was left out. -/
  noted : observed.expansions.Sublist (observed.instantiations.map (·.expansion))
  /-- The variables of every copy are private. -/
  all : ∀ i ∈ observed.instantiations, i.Private

/-- The names of the module and further ones are in use, and no function has two parameters or
return variables of the same name. -/
structure Inliner.Ready (inliner : Inliner) (known : List String) : Prop where
  /-- The names are in use. -/
  used : ∀ name ∈ Block.names inliner.module ++ known, inliner.names.isUsed name = true
  /-- Parameters and return variables have different names. -/
  distinct : ∀ function ∈ Block.functions inliner.module, function.interface.Nodup

namespace Inliner.Ready

variable {before after inliner : Inliner} {known known' sources yield : List String}

theorem of_mem (h : inliner.Ready known) :
    ∀ name ∈ known, inliner.names.isUsed name = true :=
  fun name hname => h.used name (List.mem_append_right _ hname)

theorem of_mem_module (h : inliner.Ready known) :
    ∀ name ∈ Block.names inliner.module, inliner.names.isUsed name = true :=
  fun name hname => h.used name (List.mem_append_left _ hname)

/-- Names that were in use can be drawn on, and what is drawn is in use as well. -/
theorem drawn (h : before.Ready known) (hdraws : before.Draws sources after yield)
    (hsources : sources ⊆ known) (hknown' : known' ⊆ known ++ yield) : after.Ready known' := by
  have hdrawn := hdraws.known fun name hname => h.used name <|
    (List.mem_append.mp hname).elim (List.mem_append_left _) fun hmem =>
      List.mem_append_right _ (hsources hmem)
  refine ⟨fun name hname => ?_, fun function hfunction => ?_⟩
  · rcases List.mem_append.mp hname with hmodule | hmem
    · exact hdrawn name (List.mem_append_left _ hmodule)
    · rcases List.mem_append.mp (hknown' hmem) with hmem | hyield
      · exact hdraws.isUsed (h.of_mem name hmem)
      · exact hdrawn name (List.mem_append_right _ hyield)
  · obtain ⟨body, hbody⟩ := hdraws.functions hfunction
    have hdistinct := h.distinct _ hbody
    exact hdistinct

theorem kept (h : before.Ready known) (hdraws : before.Draws sources after yield)
    (hsources : sources ⊆ known) : after.Ready known :=
  h.drawn hdraws hsources (List.subset_append_left _ _)

theorem mono (h : inliner.Ready known) (hsub : known' ⊆ known) : inliner.Ready known' :=
  h.drawn (.refl inliner (List.nil_subset [])) (List.nil_subset _)
    (List.subset_append_of_subset_left _ hsub)

end Inliner.Ready

namespace ObserveM

variable {α β : Type} {observed : Observed}

/-- An observed computation ends with a value and a state that meet a condition, or it fails where
all that has been noted is private. -/
def Achieves (action : ObserveM α) (observed : Observed) (post : α → Observed → Prop) : Prop :=
  match action observed with
  | .ok a after => post a after
  | .error _ after => after.Private

theorem Achieves.bind {action : ObserveM α} {next : α → ObserveM β} {post : α → Observed → Prop}
    {post' : β → Observed → Prop} (h : action.Achieves observed post)
    (hnext : ∀ a after, post a after → (next a).Achieves after post') :
    (action >>= next).Achieves observed post' := by
  rw [Achieves] at h ⊢
  show (match EStateM.bind action next observed with
    | .ok b after => post' b after
    | .error _ after => after.Private)
  rw [EStateM.bind]
  cases haction : action observed with
  | ok a after =>
    rw [haction] at h
    exact hnext a after h
  | error error after =>
    rw [haction] at h
    exact h

theorem Achieves.mono {action : ObserveM α} {post post' : α → Observed → Prop}
    (h : action.Achieves observed post) (hpost : ∀ a after, post a after → post' a after) :
    action.Achieves observed post' := by
  rw [Achieves] at h ⊢
  cases haction : action observed with
  | ok a after =>
    rw [haction] at h
    exact hpost a after h
  | error error after =>
    rw [haction] at h
    exact h

/-- If what has been noted is private where the computation ends, it is private however it ends. -/
theorem Achieves.final_private {action : ObserveM α} {post : α → Observed → Prop}
    (h : action.Achieves observed post) (hpost : ∀ a after, post a after → after.Private) :
    (action.final observed).Private := by
  rw [Achieves] at h
  rw [final]
  cases haction : action observed with
  | ok a after =>
    rw [haction] at h
    exact hpost a after h
  | error error after =>
    rw [haction] at h
    exact h

/-- A step whose outcome is known. -/
theorem Achieves.step {plain : InlineM α} {a : α} {after : Inliner} {next : α → ObserveM β}
    {post : β → Observed → Prop} (hstep : plain observed.toInliner = .ok a after)
    (hnext : (next a).Achieves { observed with toInliner := after } post) :
    (plain.observed >>= next).Achieves observed post := by
  rw [Achieves]
  show (match EStateM.bind plain.observed next observed with
    | .ok b after => post b after
    | .error _ after => after.Private)
  rw [EStateM.bind, InlineM.observed, hstep]
  exact hnext

theorem Achieves.look {next : Observed → ObserveM β} {post : β → Observed → Prop}
    (h : (next observed).Achieves observed post) : (get >>= next).Achieves observed post :=
  h

theorem Achieves.note {note : Observed → List Instantiation} {next : ObserveM β}
    {post : β → Observed → Prop}
    (h : next.Achieves { observed with instantiations := note observed } post) :
    (modify (fun observed => { observed with instantiations := note observed }) >>=
      fun _ => next).Achieves observed post :=
  h

/-! ## The steps of an inliner -/

theorem achieves_function (h : observed.Private) (name : String) :
    (InlineM.function name).observed.Achieves observed fun function after =>
      observed = after ∧ observed.toInliner.function? name = some function := by
  rw [Achieves, InlineM.observed]
  cases hfound : observed.toInliner.function? name with
  | none =>
    rw [InlineM.function_eq_error hfound]
    exact h
  | some function =>
    rw [InlineM.function_eq_ok hfound]
    exact ⟨rfl, rfl⟩

theorem achieves_checkArity (h : observed.Private) (callee : FunctionDef) (count : Nat) :
    (InlineM.checkArity callee count).observed.Achieves observed fun _ after =>
      observed = after ∧ count = callee.params.length := by
  rw [InlineM.checkArity]
  split
  next hcount => exact ⟨rfl, hcount⟩
  next => exact h

theorem achieves_freshName {known : List String} (h : observed.toInliner.Ready known) (stem : String) :
    (InlineM.freshName stem).observed.Achieves observed fun name after =>
      (∃ names, after = { observed with names }) ∧
      (∀ sources, observed.toInliner.Draws sources after.toInliner [name]) ∧
      ∀ hoisted, name ∈ Block.declares hoisted →
        observed.toInliner.Owns after.toInliner hoisted [name] :=
  ⟨⟨_, rfl⟩, fun _ => .fresh .., fun _ => .fresh _ _ h.of_mem_module⟩

theorem achieves_copyBlock (h : observed.Private) (rule : CopyRule) (block : Block) :
    (InlineM.copyBlock rule block).observed.Achieves observed fun copy after =>
      (∃ names, after = { observed with names }) ∧
      ∀ sources, Block.names block ⊆ Block.names observed.module ++ sources →
        rule.substitution.map Prod.snd ⊆ sources →
        observed.toInliner.Draws sources after.toInliner (Block.names copy) := by
  rw [Achieves, InlineM.observed]
  cases hdefinitions : Block.gather Stmt.ownDefinition block with
  | nil =>
    rw [InlineM.copyBlock_eq_ok hdefinitions]
    exact ⟨⟨_, rfl⟩, fun sources hblock hrule => .copy hdefinitions hblock hrule⟩
  | cons name later =>
    obtain ⟨names, hcopy⟩ :=
      @InlineM.copyBlock_eq_error rule observed.toInliner block name later hdefinitions
    rw [hcopy]
    exact ⟨h.noted, h.all⟩

/-! ## Computations that draw on what they are given -/

/-- Wherever the names `known` and `sources` are in use, what an observed computation notes is
private, and what it does and gives draws on `sources` only. -/
def Steady (action : ObserveM α) (known sources : List String) (yield : α → List String) : Prop :=
  ∀ observed, observed.Private → observed.toInliner.Ready (known ++ sources) →
    action.Achieves observed fun a after =>
      after.Private ∧ observed.toInliner.Draws sources after.toInliner (yield a)

section Steady

variable {known known' sources sources' : List String} {yield yield' : α → List String}
variable {action : ObserveM α}

theorem Steady.pure {a : α} (h : yield a ⊆ sources) :
    (Pure.pure a : ObserveM α).Steady known sources yield :=
  fun _ hprivate _ => ⟨hprivate, .refl _ h⟩

theorem Steady.throw (error : InlineError) :
    (throw error : ObserveM α).Steady known sources yield :=
  fun _ hprivate _ => hprivate

/-- What has been drawn can be drawn on. -/
theorem Steady.bind {next : α → ObserveM β} {yield' : β → List String}
    (h : action.Steady known sources yield)
    (hnext : ∀ a, (next a).Steady known (sources ++ yield a) yield') :
    (action >>= next).Steady known sources yield' := by
  intro observed hprivate hready
  refine (h observed hprivate hready).bind fun a after ⟨hafter, hdraws⟩ => ?_
  refine (hnext a after hafter (hready.drawn hdraws (List.subset_append_right _ _) ?_)).mono
    fun b last ⟨hlast, hlater⟩ => ⟨hlast, hdraws.trans hlater⟩
  rw [List.append_assoc]
  exact List.Subset.refl _

theorem Steady.mono (h : action.Steady known' sources' yield') (hknown : known' ⊆ known ++ sources)
    (hsources : sources' ⊆ sources) (hyield : ∀ a, yield a ⊆ sources ++ yield' a) :
    action.Steady known sources yield := by
  intro observed hprivate hready
  refine (h observed hprivate (hready.mono ?_)).mono fun a after ⟨hafter, hdraws⟩ =>
    ⟨hafter, hdraws.mono hsources (hyield a)⟩
  exact List.append_subset.mpr ⟨hknown, List.subset_append_of_subset_right _ hsources⟩

theorem Steady.forM {γ : Type} {action : γ → ObserveM Unit} {cs : List γ}
    (h : ∀ c ∈ cs, (action c).Steady known sources fun _ => []) :
    (cs.forM action).Steady known sources fun _ => [] := by
  induction cs with
  | nil => exact .pure (List.nil_subset _)
  | cons c cs ih =>
    rw [List.forall_mem_cons] at h
    refine h.1.bind fun _ => ?_
    rw [List.append_nil]
    exact ih h.2

theorem steady_publish (site : Site) {body : Block} (h : Block.names body ⊆ sources) :
    (site.publish body).observed.Steady known sources fun _ => [] :=
  fun observed hprivate _ => ⟨⟨hprivate.noted, hprivate.all⟩, .setBody observed.toInliner _ h⟩

end Steady

end ObserveM

open ObserveM

/-- Demands draw on the module only. -/
def ObservedSite.Steady (site : ObservedSite) : Prop :=
  ∀ aside name, (site.demandObserved aside name).Steady aside.names [] fun _ => []

end YulInline
