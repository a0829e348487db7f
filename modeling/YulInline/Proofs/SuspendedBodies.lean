import YulInline.Proofs.CoupledExpansions

/-!
# Bodies whose expansion is suspended

While a body is expanded, other functions are demanded, and any number of expansions can be
suspended in the midst of an expression when a demand changes the module. What it changes are the
bodies of functions that were pending when it came, whether it succeeds or fails (`InlineM.Keeps`).
A function whose expansion is suspended is not pending, and a top-level block is no function. So an
expansion finds its body as it left it whenever it is resumed (`Inliner.Rests`).
-/

namespace YulInline

variable {module : Block}

/-! ## Shells -/

/-- Apart from bodies, the root block is that of `module`. -/
def Inliner.Shaped (inliner : Inliner) (module : Block) : Prop :=
  inliner.module.map (Stmt.withBody []) = module.map (Stmt.withBody [])

theorem Inliner.Shaped.kept {before after : Inliner} {site : Option Nat}
    (h : before.Shaped module) (hkept : Kept module site before after) : after.Shaped module :=
  hkept.shells.trans h

@[simp]
theorem Stmt.kind_withBody (body : Block) (stmt : Stmt) : (stmt.withBody body).kind = stmt.kind := by
  cases stmt <;> rfl

/-- Where a function is found, a function of that name stood in the module. -/
theorem Inliner.Shaped.at_position {inliner : Inliner} (h : inliner.Shaped module) {name : String}
    {function : FunctionDef} (hfound : inliner.function? name = some function) :
    ∃ original, module[inliner.position name]? = some (.define original) ∧ original.name = name := by
  obtain rfl : function.name = name := by simpa using List.find?_some hfound
  obtain ⟨body, horiginal⟩ :=
    Block.getElem?_define_of_shells h (Inliner.getElem?_position_of_found hfound)
  exact ⟨_, horiginal, rfl⟩

/-! ## Demands -/

namespace InlineM

/-- However the computation ends, it has left alone all but the body at a position, if one is given,
and the bodies of pending functions. -/
def Keeps (module : Block) (site : Option Nat) {α : Type} (action : InlineM α) : Prop :=
  action.Ends fun before after => before.Shaped module → Kept module site before after

variable {α : Type} {site : Option Nat}

theorem Still.keeps {action : InlineM α} (h : action.Still) : action.Keeps module site :=
  Ends.mono h fun _ _ hsame _ => Kept.of_eq hsame.1 hsame.2

theorem Keeps.at_site {action : InlineM α} (h : action.Keeps module none) :
    action.Keeps module site :=
  Ends.mono h fun _ _ hkept hshaped => (hkept hshaped).at_site

theorem Keeps.bind {β : Type} {action : InlineM α} {next : α → InlineM β}
    (h : action.Keeps module site) (hnext : ∀ a, (next a).Keeps module site) :
    (action >>= next).Keeps module site :=
  Ends.bind h hnext fun _ _ _ hbetween hafter hshaped =>
    (hbetween hshaped).trans (hafter (hshaped.kept (hbetween hshaped)))

theorem keeps_publish (site : Site) (body : Block) :
    (site.publish body).Keeps module (some site.position) :=
  fun _ _ => Kept.setBody ..

/-- The expansion of a body changes that body, and otherwise what its demands change. -/
theorem expandBody_keeps {site : Site} (h : ∀ name, (site.demand name).Keeps module none)
    (body : Block) : (expandBody site body).Keeps module (some site.position) :=
  have hcoupled : site.Coupled site.demand fun _ _ action _ => action.Keeps module site.position :=
    { still := fun haction => haction.keeps
      throw := fun _ _ error => (still_throw error).keeps
      demand := fun name => (h name).at_site
      bind := fun haction hnext => haction.bind hnext
      publish := keeps_publish site }
  expandBody_coupled hcoupled body

/-- The function that a demand expands was pending. -/
theorem kept_of_enter {inliner after : Inliner} (h : inliner.Shaped module) {name : String}
    {function : FunctionDef} (hfound : inliner.function? name = some function)
    (hpending : name ∈ inliner.pending)
    (hkept : Kept module (some (inliner.position name))
      { inliner with pending := inliner.pending.erase name } after) :
    Kept module none inliner after := by
  have hless : (inliner.pending.erase name).Sublist inliner.pending := List.erase_sublist
  refine ⟨hkept.pending.trans hless, hkept.shells, fun i _ hwaits => ?_⟩
  refine hkept.bodies i (fun heq => hwaits ?_) fun hlater => hwaits (hlater.of_sublist hless)
  obtain ⟨original, horiginal, rfl⟩ := h.at_position hfound
  exact ⟨original, Option.some.inj heq ▸ horiginal, hpending⟩

/-- A demand changes the bodies of pending functions only. -/
theorem demandWith_keeps (module : Block) (fuel : Nat) :
    ∀ name, (demandWith fuel name).Keeps module none := by
  induction fuel with
  | zero =>
    intro name
    rw [demandWith]
    exact ((still_function name).bind fun _ => still_pure ()).keeps
  | succ fuel ih =>
    intro name inliner
    rw [demandWith]
    refine (outcome_function inliner name).bind ?_ ?_
    · rintro function after ⟨rfl, hfound⟩
      show InlineM.Outcome (ite (after.isPending name = true) _ _) after _ _
      split
      · next hpending =>
        have hmem := List.contains_iff_mem.mp hpending
        have hbody := @expandBody_keeps module ⟨after.position name, name, demandWith fuel⟩ ih
          function.body { after with pending := after.pending.erase name }
        exact hbody.mono (fun _ _ hkept h => kept_of_enter h hfound hmem (hkept h))
          fun _ _ hkept h => kept_of_enter h hfound hmem (hkept h)
      · exact fun _ => Kept.refl _
    · rintro error after ⟨rfl, -⟩ _
      exact Kept.refl _

theorem demand_keeps (module : Block) (name : String) : (demand name).Keeps module none :=
  fun inliner => demandWith_keeps module inliner.pending.length name inliner

end InlineM

/-! ## Computations that do the same while a body rests -/

/-- The inliner has the shape of `module`, and no function is pending twice. -/
structure Inliner.Orderly (inliner : Inliner) (module : Block) : Prop where
  shaped : inliner.Shaped module
  nodup : inliner.pending.Nodup

/-- Nor does a pending function stand at a position. -/
structure Inliner.Rests (inliner : Inliner) (module : Block) (position : Nat) : Prop
    extends inliner.Orderly module where
  awake : ¬ inliner.Waits module position

section Kept

variable {before after : Inliner} {position : Nat} {site : Option Nat}

theorem Inliner.Orderly.kept (h : before.Orderly module) (hkept : Kept module site before after) :
    after.Orderly module :=
  ⟨h.shaped.kept hkept, h.nodup.sublist hkept.pending⟩

theorem Inliner.Rests.kept (h : before.Rests module position)
    (hkept : Kept module site before after) : after.Rests module position :=
  ⟨h.toOrderly.kept hkept, fun hwaits => h.awake (hkept.waits hwaits)⟩

/-- A function that gets under way is pending no more. -/
theorem Inliner.Orderly.enter {inliner : Inliner} (h : inliner.Orderly module) {name : String}
    {function : FunctionDef} (hfound : inliner.function? name = some function) :
    ({ inliner with pending := inliner.pending.erase name } : Inliner).Rests module
      (inliner.position name) := by
  refine ⟨⟨h.shaped, h.nodup.erase name⟩, ?_⟩
  obtain ⟨original, horiginal, rfl⟩ := h.shaped.at_position hfound
  rintro ⟨other, hother, hpending⟩
  obtain rfl := Stmt.define.inj (Option.some.inj (hother.symm.trans horiginal))
  exact h.nodup.not_mem_erase hpending

end Kept

namespace InlineM

variable {α β : Type} {good : Inliner → Prop} {position : Nat}

/-- The two computations do the same in good states, and lead to good states. -/
def SameFrom (good : Inliner → Prop) (action action' : InlineM α) : Prop :=
  ∀ inliner, good inliner → action inliner = action' inliner ∧
    action.Outcome inliner (fun _ after => good after) fun _ _ => True

theorem SameFrom.bind {action action' : InlineM α} {next next' : α → InlineM β}
    (h : SameFrom good action action') (hnext : ∀ a, SameFrom good (next a) (next' a)) :
    SameFrom good (action >>= next) (action' >>= next') := by
  intro inliner hgood
  obtain ⟨heq, hafter⟩ := h inliner hgood
  exact ⟨hafter.bind_congr heq fun a after hgood' => (hnext a after hgood').1,
    hafter.bind (fun a after hgood' => (hnext a after hgood').2) fun _ _ _ => trivial⟩

theorem SameFrom.forM {γ : Type} {action action' : γ → InlineM Unit} {cs : List γ}
    (h : ∀ c ∈ cs, SameFrom good (action c) (action' c)) :
    SameFrom good (cs.forM action) (cs.forM action') := by
  induction cs with
  | nil => exact fun _ hgood => ⟨rfl, hgood⟩
  | cons c cs ih =>
    rw [List.forall_mem_cons] at h
    exact h.1.bind fun _ => ih h.2

theorem Keeps.orderly {site : Option Nat} {action : InlineM α} (h : action.Keeps module site)
    {inliner : Inliner} (horderly : inliner.Orderly module) :
    action.Outcome inliner (fun _ after => after.Orderly module) fun _ _ => True :=
  (h inliner).mono (fun _ _ hkept => horderly.kept (hkept horderly.shaped)) fun _ _ _ => trivial

theorem Keeps.rests {site : Option Nat} {action : InlineM α} (h : action.Keeps module site) :
    SameFrom (·.Rests module position) action action :=
  fun inliner hrests => ⟨rfl, (h inliner).mono
    (fun _ _ hkept => hrests.kept (hkept hrests.shaped)) fun _ _ _ => trivial⟩

theorem Still.rests {action : InlineM α} (h : action.Still) :
    SameFrom (·.Rests module position) action action :=
  Keeps.rests (h.keeps : Keeps module none action)

end InlineM

open InlineM

/-- Ways of demanding that do the same make for expansions that do the same, as long as the body
that is expanded rests. -/
theorem Site.coupled_rests {site : Site} {demand : String → InlineM Unit}
    (h : ∀ name, SameFrom (·.Rests module site.position) (site.demand name) (demand name)) :
    site.Coupled demand fun _ _ => SameFrom (·.Rests module site.position) where
  still haction := haction.rests
  throw _ _ error := (still_throw error).rests
  publish body := (keeps_publish site body).rests
  demand := h
  bind haction hnext := haction.bind hnext

end YulInline
