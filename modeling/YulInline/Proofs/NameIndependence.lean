import YulInline.Proofs.DirectRuns
import YulInline.Proofs.IntroducedNames
import YulInline.Proofs.Lockstep

/-!
# The spelling of fresh names does not matter

Two supplies that have the names of a module in use may differ in everything else: in the names that
are reserved, and hence in how fresh names are spelled. Inlining the module with the one and with
the other either fails with the same error or gives results of which one is the other with its names
replaced, by a bijection that leaves the names of the module alone. The same holds of all the steps
of an optimisation.
-/

namespace YulInline

variable {twins : Twins}

/-! ## Runs in step -/

namespace InlineM

theorem inStep_get : InStep twins
    (fun later inliner inliner' => inliner'.pending = inliner.pending ∧
      Block.Alike later inliner.module inliner'.module) get get :=
  fun _ _ _ _ halike => .ok (List.Subset.refl _) halike ⟨halike.pending, halike.module⟩

theorem inStep_expandBodyDirectly {site site' : Site} (hsite : site.Alike twins site')
    {body body' : Block} (hbody : Block.Alike twins body body') :
    InStep twins Done (expandBodyDirectly site body) (expandBodyDirectly site' body') := by
  rw [expandBodyDirectly, expandBodyDirectly]
  refine (hbody.expand (List.Subset.refl _) hsite fun later _ _ _ h => h).bind ?_
  exact fun _ _ _ _ _ => inStep_pure fun _ _ => trivial

/-- Functions are demanded in step: they are pending in both inliners or in none. -/
theorem inStep_demandDirectlyWith (fuel : Nat) (name : String) :
    InStep twins Done (demandDirectlyWith fuel name) (demandDirectlyWith fuel name) := by
  induction fuel generalizing twins name with
  | zero =>
    rw [demandDirectlyWith]
    exact (inStep_function name).bind fun _ _ _ _ _ => inStep_pure fun _ _ => trivial
  | succ fuel ih =>
    rw [demandDirectlyWith]
    refine (inStep_function name).bind fun now₁ function function' h₁ hfunction => ?_
    intro now₂ inliner inliner' h₂ halike
    show EndAlike now₂ Done
      ((ite (inliner.isPending name = true) _ _ : InlineM Unit) inliner)
      ((ite (inliner'.isPending name = true) _ _ : InlineM Unit) inliner')
    rw [Inliner.isPending, Inliner.isPending, halike.pending]
    split
    · have hposition : inliner'.position name = inliner.position name := halike.module.findIdx name
      have hsite : Site.Alike now₂ ⟨inliner.position name, name, demandDirectlyWith fuel⟩
          ⟨inliner'.position name, name, demandDirectlyWith fuel⟩ :=
        ⟨hposition, rfl, fun other => ih other⟩
      exact inStep_expandBodyDirectly hsite (hfunction.body.mono h₂) now₂
        { inliner with pending := inliner.pending.erase name }
        { inliner' with pending := inliner.pending.erase name } (List.Subset.refl _)
        ⟨halike.fit, halike.module, rfl⟩
    · exact .ok (List.Subset.refl _) halike trivial

theorem inStep_demandDirectly (name : String) :
    InStep twins Done (demandDirectly name) (demandDirectly name) := by
  rw [demandDirectly]
  refine inStep_get.bind fun later inliner inliner' _ hread => ?_
  rw [hread.1]
  exact inStep_demandDirectlyWith _ name

theorem inStep_visitTopLevelDirectly {stmt stmt' : Stmt} (h : Stmt.Alike twins stmt stmt')
    (position : Nat) :
    InStep twins Done (visitTopLevelDirectly stmt position)
      (visitTopLevelDirectly stmt' position) := by
  cases h with
  | block hbody => exact inStep_expandBodyDirectly ⟨rfl, rfl, inStep_demandDirectly⟩ hbody
  | define hown hbody => exact inStep_pure fun _ _ => trivial
  | _ => exact inStep_throw _

/-- The statements of the root block are visited in step. -/
theorem inStep_visits {module module' : Block} (h : Block.Alike twins module module')
    (position : Nat) : InStep twins Done
      ((module.zipIdx position).forM fun (stmt, position) => visitTopLevelDirectly stmt position)
      ((module'.zipIdx position).forM fun (stmt, position) => visitTopLevelDirectly stmt position) := by
  induction module generalizing twins module' position with
  | nil =>
    cases h
    exact inStep_pure fun _ _ => trivial
  | cons stmt stmts ih =>
    cases h with
    | cons hstmt hstmts =>
      refine (inStep_visitTopLevelDirectly hstmt position).bind fun later _ _ hlater _ => ?_
      exact ih (hstmts.mono hlater) (position + 1)

theorem inStep_demands (wanted : List String) :
    InStep twins Done (wanted.forM demandDirectly) (wanted.forM demandDirectly) := by
  induction wanted generalizing twins with
  | nil => exact inStep_pure fun _ _ => trivial
  | cons name wanted ih => exact (inStep_demandDirectly name).bind fun _ _ _ _ _ => ih

theorem inStep_expandModuleDirectly :
    InStep twins Done expandModuleDirectly expandModuleDirectly := by
  rw [expandModuleDirectly]
  refine inStep_get.bind fun now₁ inliner inliner' _ hread => ?_
  refine (inStep_visits hread.2 0).bind fun now₂ _ _ _ _ => ?_
  refine inStep_get.bind fun now₃ inliner inliner' _ hread => ?_
  rw [hread.1]
  exact inStep_demands _

end InlineM

/-! ## Whole runs -/

/-- Two computations fail with the same error, or give values in the relation `rel` under more names
than at the start. -/
inductive GiveAlike {α : Type} (twins : Twins) (rel : Twins → α → α → Prop) :
    Except InlineError α → Except InlineError α → Prop where
  | ok {later : Twins} {a a' : α} (hlater : twins ⊆ later) (hrel : rel later a a') :
    GiveAlike twins rel (.ok a) (.ok a')
  | error (error : InlineError) : GiveAlike twins rel (.error error) (.error error)

/-- Modules that are alike are inlined alike, with supplies that fit. -/
theorem inline_alike {module module' : Block} (hmodule : Block.Alike twins module module')
    {names names' : NameSupply} (hfit : twins.Fit names names') :
    GiveAlike twins
      (fun later output output' =>
        Block.Alike later output.1 output'.1 ∧ later.Fit output.2 output'.2)
      (inline module names) (inline module' names') := by
  have hnames := hmodule.functionNames
  generalize hpending : (Block.functions module).map (·.name) = pending at hnames
  cases hrepeated : firstRepeated? [] pending with
  | some name =>
    have hstart : Inliner.ofModule? module names = .error (.duplicateFunction name) := by
      rw [Inliner.ofModule?, hpending, hrepeated]
    have hstart' : Inliner.ofModule? module' names' = .error (.duplicateFunction name) := by
      rw [Inliner.ofModule?, hnames, hrepeated]
    rw [inline_eq_error_of_ofModule? hstart, inline_eq_error_of_ofModule? hstart']
    exact .error _
  | none =>
    have hstart : Inliner.ofModule? module names = .ok { module, pending, names } := by
      rw [Inliner.ofModule?, hpending, hrepeated]
    have hstart' : Inliner.ofModule? module' names' =
        .ok { module := module', pending, names := names' } := by
      rw [Inliner.ofModule?, hnames, hrepeated]
    have hnodup : pending.Nodup := by
      have hspec := firstRepeated?_spec [] pending
      rw [hrepeated] at hspec
      exact hspec.1
    have hend := InlineM.inStep_expandModuleDirectly twins { module, pending, names }
      { module := module', pending, names := names' } (List.Subset.refl _) ⟨hfit, hmodule, rfl⟩
    rw [← InlineM.expandModule_eq_directly hnodup, ← InlineM.expandModule_eq_directly hnodup] at hend
    generalize hrun : InlineM.expandModule { module, pending, names } = result at hend
    generalize hrun' : InlineM.expandModule { module := module', pending, names := names' } =
      result' at hend
    cases hend with
    | ok hlater hafter _ =>
      rw [inline_eq_ok hstart hrun, inline_eq_ok hstart' hrun']
      exact .ok hlater ⟨hafter.module, hafter.fit⟩
    | error error _ _ =>
      rw [inline_eq_error hstart hrun, inline_eq_error hstart' hrun']
      exact .error error

/-- Every name is its own counterpart. -/
def Twins.self (names : List String) : Twins :=
  names.map fun name => (name, name)

theorem Twins.mem_self {names : List String} {name : String} (h : name ∈ names) :
    (name, name) ∈ self names :=
  List.mem_map_of_mem (f := fun name => (name, name)) h

/-- Supplies that know some names fit these. -/
theorem Twins.Fit.self {known : List String} {names names' : NameSupply}
    (h : ∀ name ∈ known, names.isUsed name = true)
    (h' : ∀ name ∈ known, names'.isUsed name = true) : (Twins.self known).Fit names names' := by
  have hself : ∀ p ∈ Twins.self known, p.1 = p.2 ∧ p.1 ∈ known := by
    intro p hp
    obtain ⟨name, hname, rfl⟩ := List.mem_map.mp hp
    exact ⟨rfl, hname⟩
  refine ⟨fun p hp q hq => ?_, fun p hp => h _ (hself p hp).2, fun p hp => ?_⟩
  · rw [(hself p hp).1, (hself q hq).1]
  · rw [← (hself p hp).1]
    exact h' _ (hself p hp).2

/-- Blocks that are alike are the same up to a bijection of names. -/
theorem Block.Alike.exists_perm {later : Twins} {block block' : Block}
    (h : Block.Alike later block block') (hfaithful : later.Faithful) {known : List String}
    (hknown : Twins.self known ⊆ later) : ∃ π : Equiv.Perm String,
      (∀ name ∈ known, π name = name) ∧ block' = Block.mapNames π block := by
  obtain ⟨π, hπ⟩ := hfaithful.exists_perm
  exact ⟨π, fun name hname => hπ _ (hknown (Twins.mem_self hname)), h.eq_mapNames hπ⟩

/-- Inlining a module with two supplies that know its names either fails with the same error, or
gives results of which one is the other with its names replaced, by a bijection that leaves the
names of the module alone. -/
theorem inline_same_up_to_names {module : Block} {names names' : NameSupply}
    (hknown : ∀ name ∈ Block.names module, names.isUsed name = true)
    (hknown' : ∀ name ∈ Block.names module, names'.isUsed name = true) :
    (∃ error, inline module names = .error error ∧ inline module names' = .error error) ∨
      ∃ result after result' after', inline module names = .ok (result, after) ∧
        inline module names' = .ok (result', after') ∧
        ∃ π : Equiv.Perm String, (∀ name ∈ Block.names module, π name = name) ∧
          result' = Block.mapNames π result := by
  have hmodule : Block.Alike (Twins.self (Block.names module)) module module :=
    Block.alike_self module fun _ => Twins.mem_self
  have halike := inline_alike hmodule (Twins.Fit.self hknown hknown')
  generalize inline module names = output at halike
  generalize inline module names' = output' at halike
  cases halike with
  | error error => exact Or.inl ⟨error, rfl, rfl⟩
  | @ok later output output' hlater hrel =>
    obtain ⟨hresult, hfit⟩ := hrel
    exact Or.inr ⟨output.1, output.2, output'.1, output'.2, rfl, rfl,
      hresult.exists_perm hfit.faithful hlater⟩

/-- With other names in use than those of the module, the variables of the identity function are
called differently. -/
theorem inline_same_up_to_names_identityCall :
    ∃ result after result' after', inline identityCall (.ofBlock identityCall) = .ok (result, after) ∧
      inline identityCall (.ofList ["f", "x", "r", "y", "f_x"]) = .ok (result', after') ∧
      result = identityCallInlined ∧
      ∃ π : Equiv.Perm String, (∀ name ∈ Block.names identityCall, π name = name) ∧
        result' = Block.mapNames π result := by
  have hknown : ∀ name ∈ Block.names identityCall,
      (NameSupply.ofBlock identityCall).isUsed name = true := fun _ => NameSupply.isUsed_ofBlock.mpr
  have hknown' : ∀ name ∈ Block.names identityCall,
      (NameSupply.ofList ["f", "x", "r", "y", "f_x"]).isUsed name = true := by decide +kernel
  have hrun : (inline identityCall (.ofBlock identityCall)).map Prod.fst =
      .ok identityCallInlined := by rfl
  rcases inline_same_up_to_names hknown hknown' with ⟨error, herror, -⟩ | h
  · rw [herror] at hrun
    cases hrun
  · obtain ⟨result, after, result', after', hinline, hinline', hπ⟩ := h
    rw [hinline] at hrun
    exact ⟨result, after, result', after', hinline, hinline', Except.ok.inj hrun, hπ⟩

/-! ## Several steps -/

/-- Modules that are alike, and supplies that fit. -/
structure Stage.Alike (twins : Twins) (stage stage' : Stage) : Prop where
  module : Block.Alike twins stage.module stage'.module
  fit : twins.Fit stage.names stage'.names

theorem Stage.Alike.advance {stage stage' : Stage} (h : stage.Alike twins stage') (step : Step) :
    GiveAlike twins Stage.Alike (stage.advance step) (stage'.advance step) := by
  cases step with
  | fullInliner =>
    rw [Stage.advance, Stage.advance]
    have halike := inline_alike h.module h.fit
    generalize inline stage.module stage.names = output at halike
    generalize inline stage'.module stage'.names = output' at halike
    cases halike with
    | error error => exact .error error
    | ok hlater hrel => exact .ok hlater ⟨hrel.1, hrel.2⟩

theorem Stage.Alike.advances (steps : List Step) {stage stage' : Stage}
    (h : stage.Alike twins stage') : GiveAlike twins Stage.Alike
      (steps.foldlM Stage.advance stage) (steps.foldlM Stage.advance stage') := by
  induction steps generalizing twins stage stage' with
  | nil => exact .ok (List.Subset.refl _) h
  | cons step steps ih =>
    rw [List.foldlM_cons, List.foldlM_cons]
    have hstep := h.advance step
    generalize stage.advance step = output at hstep
    generalize stage'.advance step = output' at hstep
    cases hstep with
    | error error => exact .error error
    | @ok between stage stage' hbetween hrel =>
      have hsteps := ih hrel
      show GiveAlike twins Stage.Alike (steps.foldlM Stage.advance stage)
        (steps.foldlM Stage.advance stage')
      generalize steps.foldlM Stage.advance stage = output at hsteps
      generalize steps.foldlM Stage.advance stage' = output' at hsteps
      cases hsteps with
      | error error => exact .error error
      | ok hlater hrel => exact .ok (List.Subset.trans hbetween hlater) hrel

/-- Which names are reserved makes no difference to an optimisation, except for how the names are
spelled that it introduces. -/
theorem optimise_same_up_to_names {settings settings' : Settings}
    (hsteps : settings'.steps = settings.steps) (module : Block) :
    (∃ error, optimise settings module = .error error ∧
      optimise settings' module = .error error) ∨
      ∃ result result', optimise settings module = .ok result ∧
        optimise settings' module = .ok result' ∧
        ∃ π : Equiv.Perm String, (∀ name ∈ Block.names module, π name = name) ∧
          result' = Block.mapNames π result := by
  have hknown : ∀ (settings : Settings), ∀ name ∈ Block.names module,
      (Stage.first settings module).names.isUsed name = true := by
    intro settings name hname
    rw [Stage.first, NameSupply.isUsed_foldl_reserve, NameSupply.isUsed_ofBlock]
    exact Or.inr hname
  have hfirst : Stage.Alike (Twins.self (Block.names module)) (Stage.first settings module)
      (Stage.first settings' module) :=
    ⟨Block.alike_self module fun _ => Twins.mem_self,
      Twins.Fit.self (hknown settings) (hknown settings')⟩
  have halike := hfirst.advances settings.steps
  rw [optimise, optimise, hsteps]
  generalize settings.steps.foldlM Stage.advance (Stage.first settings module) = output at halike
  generalize settings.steps.foldlM Stage.advance (Stage.first settings' module) = output' at halike
  cases halike with
  | error error => exact Or.inl ⟨error, rfl, rfl⟩
  | @ok later stage stage' hlater hrel =>
    exact Or.inr ⟨stage.module, stage'.module, rfl, rfl,
      hrel.module.exists_perm hrel.fit.faithful hlater⟩

end YulInline
