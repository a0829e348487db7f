import YulInline.Proofs.Progress

/-!
# The visit of a body

`Visit` is a body that is being expanded, in the midst of the others that are: `Visit.At` is a sound
state in which the body has a certain present form. `Visit.Runs` says what running a part of the
visit does, whether it succeeds or fails; by `Visit.Runs.bind` it is established step by step, and
the traces of the steps add up. With this, every function of the expansion is shown to do what
`Expr.Expands` and its companions say, the demands of other functions in between notwithstanding.
-/

namespace YulInline

/-- What holds of the value and the state that a computation ends with, or of its error and the
state at its failure. -/
def InlineM.Outcome {α : Type} (action : InlineM α) (inliner : Inliner)
    (success : α → Inliner → Prop) (failure : InlineError → Inliner → Prop) : Prop :=
  match action inliner with
  | .ok a after => success a after
  | .error error after => failure error after

theorem InlineM.Outcome.bind {α β : Type} {action : InlineM α} {next : α → InlineM β}
    {inliner : Inliner} {success : α → Inliner → Prop} {success' : β → Inliner → Prop}
    {failure failure' : InlineError → Inliner → Prop} (h : action.Outcome inliner success failure)
    (hnext : ∀ a after, success a after → (next a).Outcome after success' failure')
    (hfail : ∀ error after, failure error after → failure' error after) :
    (action >>= next).Outcome inliner success' failure' := by
  rw [Outcome] at h ⊢
  show (match EStateM.bind action next inliner with
    | .ok a after => success' a after
    | .error error after => failure' error after)
  rw [EStateM.bind]
  cases haction : action inliner with
  | ok a after =>
    rw [haction] at h
    exact hnext a after h
  | error error after =>
    rw [haction] at h
    exact hfail error after h

/-- What a computation ends with is what one ends with that does the same. -/
theorem InlineM.Outcome.congr {α : Type} {action action' : InlineM α} {inliner : Inliner}
    {success : α → Inliner → Prop} {failure : InlineError → Inliner → Prop}
    (heq : action inliner = action' inliner) (h : action'.Outcome inliner success failure) :
    action.Outcome inliner success failure := by
  rw [Outcome] at h ⊢
  rwa [heq]

theorem InlineM.Outcome.mono {α : Type} {action : InlineM α} {inliner : Inliner}
    {success success' : α → Inliner → Prop} {failure failure' : InlineError → Inliner → Prop}
    (h : action.Outcome inliner success failure)
    (hsuccess : ∀ a after, success a after → success' a after)
    (hfailure : ∀ error after, failure error after → failure' error after) :
    action.Outcome inliner success' failure' := by
  rw [Outcome] at h ⊢
  cases haction : action inliner with
  | ok a after =>
    rw [haction] at h
    exact hsuccess a after h
  | error error after =>
    rw [haction] at h
    exact hfailure error after h

/-- A function is found, or it is unknown. -/
theorem outcome_function (inliner : Inliner) (name : String) :
    (InlineM.function name).Outcome inliner
      (fun function after => after = inliner ∧ inliner.function? name = some function)
      (fun error after => after = inliner ∧ error = .unknownFunction name ∧
        inliner.function? name = none) := by
  rw [InlineM.Outcome]
  cases hfound : inliner.function? name with
  | none =>
    rw [InlineM.function_eq_error hfound]
    exact ⟨rfl, rfl, rfl⟩
  | some function =>
    rw [InlineM.function_eq_ok hfound]
    exact ⟨rfl, rfl⟩

/-- What a demand of a function does while the functions `active` are under way: it leaves alone all
but pending functions, of which the one that it demands is none afterwards. -/
def Demands (module : Block) (names : NameSupply) (active : List String) (fuel : Nat)
    (demand : String → InlineM Unit) : Prop :=
  ∀ (name : String) (own : Nat → Trace) (inliner : Inliner),
    inliner.Sound module names active own → inliner.pending.length ≤ fuel →
    (∀ other ∈ active, module.Reaches other name) →
    (name ∉ module.functionNames →
      ∃ body ∈ module.bodies, ∃ count, (name, count) ∈ Block.calls body) →
    (demand name).Outcome inliner
      (fun _ after => Kept module none inliner after ∧ name ∉ after.pending ∧
        ∃ own', after.Sound module names active own' ∧
          ∀ i, ¬ inliner.Waits module i → own' i = own i)
      (fun error after => error.Justified module ∧ Kept module none inliner after)

/-- A body of a module that is being expanded, while the functions `active` are under way. -/
structure Visit (module : Block) (names : NameSupply) where
  /-- The body, as the inliner refers to it. -/
  site : Site
  /-- The statement of the root block that holds the body, as it was at the start. -/
  root : Stmt
  /-- The body as it was at the start. -/
  body : Block
  /-- The functions under way. -/
  active : List String
  /-- How many functions may be pending. -/
  fuel : Nat
  nodup : module.functionNames.Nodup
  root_eq : module[site.position]? = some root
  body_eq : root.body? = some body
  caller_eq : root.callerName = site.caller
  mem_active : ∀ function, root = .define function → function.name ∈ active
  leads : ∀ name ∈ active, module.LeadsTo name site.position
  reaches_call : ∀ name ∈ active, ∀ call ∈ Block.calls body, module.Reaches name call.1
  demands : Demands module names active fuel site.demand

namespace Visit

variable {module : Block} {names : NameSupply} (visit : Visit module names)

/-- The visit has come to a state in which the body is `present`. -/
structure At (own : Nat → Trace) (present : Block) (inliner : Inliner) : Prop where
  sound : inliner.Sound module names visit.active own
  present : inliner.module[visit.site.position]? = some (visit.root.withBody present)
  fuel : inliner.pending.length ≤ visit.fuel

/-- What running a part of the visit does: the value `a` that it ends with, the trace of what it has
done and the state are in the relation `result`, and the body is `next a` then. -/
def Runs {α : Type} (action : InlineM α) (own : Nat → Trace) (inliner : Inliner)
    (next : α → Block) (result : α → Trace → Inliner → Prop) : Prop :=
  action.Outcome inliner
    (fun a after => ∃ own' t, visit.At own' (next a) after ∧
      own' visit.site.position = own visit.site.position ++ t ∧
      (∀ i ≠ visit.site.position, ¬ inliner.Waits module i → own' i = own i) ∧
      Kept module (some visit.site.position) inliner after ∧ result a t after)
    (fun error after => error.Justified module ∧
      Kept module (some visit.site.position) inliner after)

variable {visit} {own : Nat → Trace} {inliner : Inliner} {α β : Type}

theorem underway : Underway module visit.active visit.site.position :=
  ⟨visit.root, visit.root_eq, visit.mem_active⟩

theorem Runs.pure {a : α} {present : Block} {next : α → Block}
    {result : α → Trace → Inliner → Prop} (h : visit.At own present inliner)
    (hnext : next a = present) (hresult : result a {} inliner) :
    visit.Runs (pure a) own inliner next result :=
  ⟨own, {}, hnext ▸ h, (Trace.append_empty _).symm, fun _ _ _ => rfl, Kept.refl _, hresult⟩

theorem Runs.throw {error : InlineError} {next : α → Block} {result : α → Trace → Inliner → Prop}
    (herror : error.Justified module) : visit.Runs (throw error) own inliner next result :=
  ⟨herror, Kept.refl _⟩

/-- The steps of a visit follow each other; their traces add up. -/
theorem Runs.bind {action : InlineM α} {andThen : α → InlineM β} {next : α → Block}
    {next' : β → Block} {result : α → Trace → Inliner → Prop}
    {result' : β → Trace → Inliner → Prop} (h : visit.Runs action own inliner next result)
    (h' : ∀ a t own' after, visit.At own' (next a) after →
      own' visit.site.position = own visit.site.position ++ t →
      Kept module (some visit.site.position) inliner after → result a t after →
      visit.Runs (andThen a) own' after next' fun b t' => result' b (t ++ t')) :
    visit.Runs (action >>= andThen) own inliner next' result' := by
  refine InlineM.Outcome.bind h (fun a after => ?_) fun error after hfail => hfail
  rintro ⟨own', t, hat, hown, hother, hkept, hresult⟩
  have hlater := h' a t own' after hat hown hkept hresult
  simp only [Runs, InlineM.Outcome] at hlater ⊢
  cases hrun : andThen a after with
  | ok b final =>
    rw [hrun] at hlater
    obtain ⟨own'', t', hat', hown', hother', hkept', hresult'⟩ := hlater
    refine ⟨own'', t ++ t', hat', ?_, fun i hi hwaits => ?_, hkept.trans hkept', hresult'⟩
    · rw [hown', hown, Trace.append_assoc]
    · rw [hother' i hi fun hlater => hwaits (hkept.waits hlater), hother i hi hwaits]
  | error error final =>
    rw [hrun] at hlater
    exact ⟨hlater.1, hkept.trans hlater.2⟩

/-! ## Single steps -/

variable {present : Block} {name : String}

/-- The body is one of the bodies of the module. -/
theorem body_mem : visit.body ∈ module.bodies :=
  List.mem_filterMap.mpr ⟨visit.root, List.mem_of_getElem? visit.root_eq, visit.body_eq⟩

theorem runs_demand (h : visit.At own present inliner) {count : Nat}
    (hcall : (name, count) ∈ Block.calls visit.body) :
    visit.Runs (visit.site.demand name) own inliner (fun _ => present)
      fun _ t after => t = {} ∧ name ∉ after.pending := by
  have hdemand := visit.demands name own inliner h.sound h.fuel
    (fun other hother => visit.reaches_call other hother _ hcall)
    fun _ => ⟨visit.body, body_mem, count, hcall⟩
  have hwaits := h.sound.not_waits visit.underway
  simp only [Runs, InlineM.Outcome] at hdemand ⊢
  cases hrun : visit.site.demand name inliner with
  | ok a after =>
    rw [hrun] at hdemand
    obtain ⟨hkept, hname, own', hsound, hown⟩ := hdemand
    refine ⟨own', {}, ⟨hsound, ?_, ?_⟩, ?_, fun i _ => hown i, hkept.at_site, rfl, hname⟩
    · rw [hkept.bodies _ (by simp) hwaits, h.present]
    · exact hkept.pending.length_le.trans h.fuel
    · rw [hown _ hwaits, Trace.append_empty]
  | error error after =>
    rw [hrun] at hdemand
    exact ⟨hdemand.1, hdemand.2.at_site⟩

theorem runs_function (h : visit.At own present inliner) {count : Nat}
    (hcall : (name, count) ∈ Block.calls visit.body) :
    visit.Runs (InlineM.function name) own inliner (fun _ => present) fun callee t after =>
      t = {} ∧ after = inliner ∧ inliner.function? name = some callee := by
  rw [Runs, InlineM.Outcome]
  cases hfound : inliner.function? name with
  | none =>
    rw [InlineM.function_eq_error hfound]
    exact ⟨⟨h.sound.of_function?_eq_none hfound, visit.body, body_mem, count, hcall⟩, Kept.refl _⟩
  | some callee =>
    rw [InlineM.function_eq_ok hfound]
    exact ⟨own, {}, h, (Trace.append_empty _).symm, fun _ _ _ => rfl, Kept.refl _, rfl, rfl, rfl⟩

theorem runs_checkArity (h : visit.At own present inliner) {callee : FunctionDef} {count : Nat}
    (hform : callee.FormIn module) (hcall : (callee.name, count) ∈ Block.calls visit.body) :
    visit.Runs (InlineM.checkArity callee count) own inliner (fun _ => present) fun _ t after =>
      t = {} ∧ after = inliner ∧ count = callee.params.length := by
  rw [InlineM.checkArity]
  split
  · next hcount => exact Runs.pure h rfl ⟨rfl, rfl, hcount⟩
  · next hcount =>
    obtain ⟨original, hmem, heq⟩ := hform
    refine Runs.throw ⟨Ne.symm hcount, ⟨visit.body, body_mem, hcall⟩, original, hmem, ?_, ?_⟩
    · rw [heq]
    · rw [heq]

theorem runs_freshName (h : visit.At own present inliner) (stem : String) :
    visit.Runs (InlineM.freshName stem) own inliner (fun _ => present) fun name t after =>
      t = { names := [name] } ∧ after.module = inliner.module ∧ after.pending = inliner.pending := by
  have hrun : InlineM.freshName stem inliner =
      .ok (inliner.names.fresh stem).1 { inliner with names := (inliner.names.fresh stem).2 } := rfl
  have hsound := h.sound.record visit.underway (t := { names := [(inliner.names.fresh stem).1] })
    (Dispensed.fresh inliner.names stem) (by simp) (by simp) h.sound.chronicle
  rw [Runs, InlineM.Outcome, hrun]
  refine ⟨_, _, ⟨hsound, h.present, h.fuel⟩, Function.update_self .., fun i hi _ => ?_, ?_, rfl, rfl,
    rfl⟩
  · exact Function.update_of_ne hi ..
  · exact Kept.of_eq rfl rfl

/-- A new state of the body may be put in place if the names and expansions in it are recorded. -/
theorem runs_publish (h : visit.At own present inliner) {body : Block} {t : Trace}
    (hbody : Block.Expands module visit.site.caller visit.body body t)
    (hwithin : t.Within (own visit.site.position)) :
    visit.Runs (visit.site.publish body) own inliner (fun _ => body) fun _ t _ => t = {} := by
  have hroot : visit.root.RootExpands module (visit.root.withBody body) t := by
    have hbody' := visit.body_eq
    have hcaller := visit.caller_eq
    cases hstmt : visit.root with
    | define function =>
      rw [hstmt] at hbody' hcaller
      have heq : function.body = visit.body := Option.some.inj hbody'
      rw [← hcaller, ← heq] at hbody
      exact .define hbody
    | block original =>
      rw [hstmt] at hbody' hcaller
      have heq : original = visit.body := Option.some.inj hbody'
      rw [← hcaller, ← heq] at hbody
      exact .block hbody
    | _ =>
      rw [hstmt] at hbody'
      cases hbody'
  have hrun : visit.site.publish body inliner = .ok () (inliner.setBody visit.site.position body) :=
    rfl
  have hsound := h.sound.publish visit.underway visit.root_eq hroot hwithin
  rw [Runs, InlineM.Outcome, hrun]
  refine ⟨own, {}, ⟨hsound, ?_, h.fuel⟩, (Trace.append_empty _).symm, fun _ _ _ => rfl,
    Kept.setBody .., rfl⟩
  rw [Inliner.setBody, List.getElem?_modify_eq, h.present]
  cases visit.root <;> rfl

/-- An argument stays, is the result of an expansion, or is bound to a variable. -/
theorem runs_bindArgument (h : visit.At own present inliner) (hint type : String) (toFront : Bool)
    (hoisted : List Stmt) (arg : Expr) :
    visit.Runs (InlineM.bindArgument hint type toFront hoisted arg) own inliner (fun _ => present)
      fun r t _ =>
        hoisted = [] ∧ toFront = false ∧ r = ([], arg) ∧ t = {} ∨
        hoisted ≠ [] ∧ (∃ name, arg = .ident name) ∧ r = (hoisted, arg) ∧ t = {} ∨
        (hoisted = [] ∧ toFront = true ∨ hoisted ≠ [] ∧ arg.ident? = none) ∧
          ∃ name, r = (hoisted ++ [.declare [⟨name, type⟩] (some arg)], .ident name) ∧
            t = { names := [name] } := by
  rw [InlineM.bindArgument]
  split
  · next hstays =>
    refine Runs.pure h rfl ?_
    rw [Bool.or_eq_true, Bool.and_eq_true, Bool.and_eq_true] at hstays
    rcases hstays with ⟨hempty, hfront⟩ | ⟨hempty, hident⟩
    · obtain rfl := List.isEmpty_iff.mp hempty
      exact Or.inl ⟨rfl, by simpa using hfront, rfl, rfl⟩
    · refine Or.inr (Or.inl ⟨by simpa using hempty, ?_, rfl, rfl⟩)
      cases arg with
      | ident name => exact ⟨name, rfl⟩
      | _ => cases hident
  · next hmoved =>
    refine (runs_freshName h hint).bind fun name t own' after hat hown hkept hfresh => ?_
    refine Runs.pure hat rfl (Or.inr (Or.inr ⟨?_, name, rfl, ?_⟩))
    · cases hoisted <;> cases toFront <;> simp_all
    · rw [Trace.append_empty, hfresh.1]

/-! ## Expanding a call -/

theorem argumentNames_idents (callee : String) (arguments : List String) :
    InlineM.argumentNames callee (arguments.map .ident) = Pure.pure arguments := by
  induction arguments with
  | nil => rfl
  | cons name arguments ih =>
    rw [InlineM.argumentNames] at ih ⊢
    rw [List.map_cons, List.mapM_cons, ih]
    rfl

/-- What is recorded for a position is in the log. -/
theorem At.logged (h : visit.At own present inliner) {i : Nat} (hi : i < module.length) :
    (own i).expansions ⊆ inliner.expansions := by
  intro expansion hmem
  rw [h.sound.log.mem_iff, List.mem_flatMap]
  exact ⟨i, List.mem_range.mpr hi, hmem⟩

/-- The body of a function can be copied unless it defines a function. -/
theorem runs_copyBlock (h : visit.At own present inliner) {callee : FunctionDef}
    (hfound : inliner.function? callee.name = some callee) (arguments : List String)
    (result holder : String) :
    visit.Runs (InlineM.copyBlock (callee.copyRule arguments result holder) callee.body) own inliner
      (fun _ => present) fun copy t after =>
        callee.Copied arguments result holder copy ∧ t = { names := Block.declared copy } ∧
        after.module = inliner.module ∧ after.pending = inliner.pending := by
  set rule := callee.copyRule arguments result holder with hrule
  rw [Runs, InlineM.Outcome]
  cases hdefinitions : Block.gather Stmt.ownDefinition callee.body with
  | nil =>
    rw [InlineM.copyBlock_eq_ok hdefinitions]
    have hgiven := @Block.dispensed_copy rule callee.body { names := inliner.names }
      hdefinitions
    have hsound := h.sound.record visit.underway (t := { names := _ }) hgiven (by simp) (by simp)
      h.sound.chronicle
    refine ⟨_, _, ⟨hsound, h.present, h.fuel⟩, Function.update_self .., fun i hi _ => ?_,
      Kept.of_eq rfl rfl, ⟨hdefinitions, inliner.names, rfl⟩, rfl, rfl, rfl⟩
    exact Function.update_of_ne hi ..
  | cons name later =>
    obtain ⟨names', hcopy⟩ :=
      @InlineM.copyBlock_eq_error rule inliner callee.body name later hdefinitions
    rw [hcopy]
    obtain ⟨-, i, original, t, hi, -, hroot, -⟩ := h.sound.of_function?_eq_some hfound
    refine ⟨⟨original.body, ?_, ?_⟩, Kept.of_eq rfl rfl⟩
    · exact List.mem_filterMap.mpr ⟨_, List.mem_of_getElem? hi, rfl⟩
    · cases hroot with
      | define hbody =>
        rw [Block.definitions, ← hbody.definitions, hdefinitions]
        exact List.mem_cons_self ..
      | other hbody => simp [Stmt.body?] at hbody

/-- An expansion is logged. Its function is complete unless it is under way, in which case it leads
to the body that is being expanded. -/
theorem runs_log (h : visit.At own present inliner) {callee : FunctionDef}
    (hfound : inliner.function? callee.name = some callee)
    (hpending : callee.name ∉ inliner.pending) (arguments : List String) (holder : String) :
    visit.Runs (modify fun inliner =>
        let expansion := ⟨visit.site.caller, callee, arguments, holder⟩
        { inliner with expansions := expansion :: inliner.expansions })
      own inliner (fun _ => present) fun _ t _ =>
        t = { expansions := [⟨visit.site.caller, callee, arguments, holder⟩] } := by
  set expansion : Expansion := ⟨visit.site.caller, callee, arguments, holder⟩ with hexpansion
  have hrun : (modify fun inliner =>
      { inliner with expansions := expansion :: inliner.expansions } : InlineM Unit) inliner =
      .ok () { inliner with expansions := expansion :: inliner.expansions } := rfl
  obtain ⟨-, i, original, t, hi, hi', hroot, hwithin⟩ :=
    h.sound.of_function?_eq_some hfound
  obtain ⟨hlt, -⟩ := List.getElem?_eq_some_iff.mp hi
  have hfinal : ∀ e ∈ [expansion], module.LeadsTo e.callee.name visit.site.position ∨
      .define e.callee ∈ inliner.module ∧ e.callee.name ∉ inliner.pending ∧
        e.callee.name ∉ visit.active := by
    intro e he
    obtain rfl := List.mem_singleton.mp he
    by_cases hactive : callee.name ∈ visit.active
    · exact Or.inl (visit.leads _ hactive)
    · exact Or.inr ⟨List.mem_of_getElem? hi', hpending, hactive⟩
  have hchronicle : Chronicle module own (expansion :: inliner.expansions) :=
    ⟨h.sound.chronicle, i, original, t, hi, hroot, hwithin.names,
      List.Subset.trans hwithin.expansions.subset (h.logged hlt)⟩
  have hsound := h.sound.record visit.underway (t := { expansions := [expansion] })
    (Dispensed.refl inliner.names) List.perm_append_comm hfinal hchronicle
  rw [Runs, InlineM.Outcome, hrun]
  refine ⟨_, _, ⟨hsound, h.present, h.fuel⟩, Function.update_self .., fun i hi _ => ?_,
    Kept.of_eq rfl rfl, rfl⟩
  exact Function.update_of_ne hi ..

/-- A call whose arguments are variables is expanded. -/
theorem runs_expandCall (h : visit.At own present inliner) {callee : FunctionDef} {count : Nat}
    (hform : callee.FormIn module) (hcall : (callee.name, count) ∈ Block.calls visit.body)
    (hpending : callee.name ∉ inliner.pending) (result : TypedName) (arguments : List String) :
    visit.Runs (InlineM.expandCall visit.site callee result (arguments.map .ident)) own inliner
      (fun _ => present) fun r t _ => ∃ (body copy : Block) (holder : String),
        ({ callee with body } : FunctionDef).FormIn module ∧
        ({ callee with body } : FunctionDef).Copied arguments result.name holder copy ∧
        r = ([.declare [⟨holder, result.type⟩] none, .block copy], holder) ∧
        t = { names := holder :: Block.declared copy,
              expansions := [⟨visit.site.caller, { callee with body }, arguments, holder⟩] } := by
  rw [InlineM.expandCall, argumentNames_idents, pure_bind]
  refine (runs_freshName h _).bind ?_
  rintro holder t own₁ inliner₁ h₁ - - ⟨rfl, hmodule₁, hpending₁⟩
  refine (runs_function h₁ hcall).bind ?_
  rintro callee' t own₂ inliner₂ h₂ - - ⟨rfl, rfl, hfound⟩
  obtain ⟨hname, -⟩ := h₁.sound.of_function?_eq_some hfound
  have hform' := h₁.sound.formIn_of_function? hfound
  have hsame := hform.eq_of_name visit.nodup hform' hname.symm
  rw [← hname] at hfound
  refine (runs_copyBlock h₂ hfound arguments result.name holder).bind ?_
  rintro copy t own₃ inliner₃ h₃ - - ⟨hcopied, rfl, hmodule₃, hpending₃⟩
  have hfound₃ : inliner₃.function? callee'.name = some callee' := by
    rwa [Inliner.function?, hmodule₃]
  have hpending₃' : callee'.name ∉ inliner₃.pending := by
    rwa [hpending₃, hpending₁, hname]
  refine (runs_log h₃ hfound₃ hpending₃' arguments holder).bind ?_
  rintro - t own₄ inliner₄ h₄ - - rfl
  refine Runs.pure h₄ rfl ⟨callee'.body, copy, holder, hsame ▸ hform', hsame ▸ hcopied, rfl, ?_⟩
  rw [← hsame]
  simp only [Trace.append_empty, Trace.empty_append]
  exact Trace.ext (by simp) (by simp) (by simp) rfl

end Visit

end YulInline
