import YulInline.Proofs.DemandedCalls
import YulInline.Proofs.InPlace

/-!
# Runs by recursion

Body by body, a visit in place does what the recursion does (`expandBody_eq_directly`). So does a
whole run (`expandModule_eq_directly`), and so do demands (`demands_eq_directly`): a body that is
about to be visited rests, since its function has just stopped being pending, or since it is that of
a top-level block; and it stands in the module as it was read off the root block.
-/

namespace YulInline

namespace InlineM

variable {module : Block} {inliner : Inliner}

/-- A body that rests is visited like by recursion, and so it is with another way of demanding that
does the same. -/
theorem expandBody_eq_of_same {site : Site} {demand : String → InlineM Unit}
    (hkeeps : ∀ name, (site.demand name).Keeps module none)
    (hsame : ∀ name, SameFrom (·.Orderly module) (site.demand name) (demand name)) {body : Block}
    (hrests : inliner.Rests module site.position) (hbody : inliner.body? site.position = some body) :
    expandBody site body inliner = expandBodyDirectly { site with demand } body inliner := by
  rw [expandBody_eq_directly hkeeps hrests hbody]
  refine (expandBodyDirectly_coupled (Site.coupled_rests fun name inliner hrests => ?_) body inliner
    hrests).1
  exact ⟨(hsame name inliner hrests.toOrderly).1, ((hkeeps name).rests inliner hrests).2⟩

/-! ## Demands -/

theorem demandWith_same (module : Block) (fuel : Nat) :
    ∀ name, SameFrom (·.Orderly module) (demandWith fuel name) (demandDirectlyWith fuel name) := by
  induction fuel with
  | zero => exact fun name inliner h => ⟨rfl, (demandWith_keeps module 0 name).orderly h⟩
  | succ fuel ih =>
    intro name inliner h
    refine ⟨?_, (demandWith_keeps module (fuel + 1) name).orderly h⟩
    rw [demandWith, demandDirectlyWith]
    have hfound := (outcome_function inliner name).mono (fun _ _ => id) fun _ _ _ => trivial
    refine hfound.bind_congr rfl ?_
    rintro function after ⟨rfl, hfunction⟩
    show (ite (after.isPending name = true) _ _ : InlineM Unit) after =
      (ite (after.isPending name = true) _ _ : InlineM Unit) after
    split
    · refine expandBody_eq_of_same (demandWith_keeps module fuel) ih (h.enter hfunction) ?_
      show (after.module[after.position name]?).bind Stmt.body? = some function.body
      rw [Inliner.getElem?_position_of_found hfunction]
      rfl
    · rfl

theorem demand_same (module : Block) (name : String) :
    SameFrom (·.Orderly module) (demand name) (demandDirectly name) :=
  fun inliner => demandWith_same module inliner.pending.length name inliner

theorem demands_same (module : Block) (wanted : List String) :
    SameFrom (·.Orderly module) (wanted.forM demand) (wanted.forM demandDirectly) :=
  SameFrom.forM fun name _ => demand_same module name

/-- Functions are demanded like by recursion. -/
theorem demands_eq_directly (hnodup : inliner.pending.Nodup) (wanted : List String) :
    wanted.forM demand inliner = wanted.forM demandDirectly inliner :=
  (demands_same inliner.module wanted inliner ⟨rfl, hnodup⟩).1

/-! ## The root block -/

/-- The statements of the root block from a position on are visited like by recursion: a block
stands there as it was at the start, since the visits of other bodies leave it alone. -/
theorem visits_same (stmts : List Stmt) (position : Nat) {inliner : Inliner}
    (hdrop : module.drop position = stmts) (h : inliner.Orderly module)
    (hlater : ∀ i body, position ≤ i → module[i]? = some (.block body) →
      inliner.module[i]? = some (.block body)) :
    ((stmts.zipIdx position).forM fun (stmt, position) => visitTopLevel stmt position) inliner =
        ((stmts.zipIdx position).forM fun (stmt, position) => visitTopLevelDirectly stmt position)
          inliner ∧
      ((stmts.zipIdx position).forM fun (stmt, position) => visitTopLevel stmt position).Outcome
        inliner (fun _ after => after.Orderly module) fun _ _ => True := by
  induction stmts generalizing position inliner with
  | nil => exact ⟨rfl, h⟩
  | cons stmt stmts ih =>
    have hstmt : module[position]? = some stmt := by
      rw [← List.head?_drop, hdrop, List.head?_cons]
    have hdrop' : module.drop (position + 1) = stmts := by
      rw [← List.tail_drop, hdrop, List.tail_cons]
    rw [List.zipIdx_cons]
    show (visitTopLevel stmt position >>= fun _ => (stmts.zipIdx (position + 1)).forM _) inliner =
        (visitTopLevelDirectly stmt position >>= fun _ => (stmts.zipIdx (position + 1)).forM _)
          inliner ∧
      InlineM.Outcome (visitTopLevel stmt position >>= fun _ =>
        (stmts.zipIdx (position + 1)).forM _) inliner _ _
    -- What holds after the visit of this statement is enough for the visits of the others.
    have hstep : visitTopLevel stmt position inliner = visitTopLevelDirectly stmt position inliner ∧
        (visitTopLevel stmt position).Outcome inliner
          (fun _ after => Kept module (some position) inliner after) fun _ _ => True := by
      cases stmt with
      | block body =>
        have hrests : inliner.Rests module position := ⟨h, Stmt.not_waits_of_block hstmt⟩
        have hbody : inliner.body? position = some body := by
          rw [Inliner.body?, hlater position body le_rfl hstmt]
          rfl
        refine ⟨expandBody_eq_of_same (demand_keeps module) (demand_same module) hrests hbody, ?_⟩
        exact (@expandBody_keeps module ⟨position, "", demand⟩ (demand_keeps module) body inliner).mono
          (fun _ _ hkept => hkept h.shaped) fun _ _ _ => trivial
      | define function => exact ⟨rfl, Kept.refl _⟩
      | _ => exact ⟨rfl, trivial⟩
    have hrest := fun (between : Inliner) (hkept : Kept module (some position) inliner between) =>
      ih (position + 1) hdrop' (h.kept hkept) fun i body hi hblock =>
        (hkept.bodies i (fun heq => absurd (Option.some.inj heq) (by omega))
          (Stmt.not_waits_of_block hblock)).trans (hlater i body (by omega) hblock)
    exact ⟨hstep.2.bind_congr hstep.1 fun _ between hkept => (hrest between hkept).1,
      hstep.2.bind (fun _ between hkept => (hrest between hkept).2) fun _ _ _ => trivial⟩

/-- A module is expanded like by recursion. -/
theorem expandModule_eq_directly (hnodup : inliner.pending.Nodup) :
    expandModule inliner = expandModuleDirectly inliner := by
  obtain ⟨hvisits, hafter⟩ := visits_same inliner.module 0 List.drop_zero ⟨rfl, hnodup⟩
    fun _ _ _ hblock => hblock
  have hdemands : ∀ (_ : Unit) (after : Inliner), after.Orderly inliner.module →
      (do (← get).pending.forM demand : InlineM Unit) after =
        (do (← get).pending.forM demandDirectly : InlineM Unit) after :=
    fun _ after horderly => (demands_same inliner.module after.pending after horderly).1
  have hrun := hafter.bind_congr hvisits hdemands
  exact hrun

end InlineM

end YulInline
