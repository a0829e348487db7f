import YulInline.Optimise
import YulInline.Proofs.Runs

/-!
# The names that are introduced

What inlining declares beyond what was declared before are the names that the supply has given out,
once each. The names of a module are in use from the start, and so are the reserved ones; each step
hands the supply on to the next. Thus the names that a whole list of steps introduces are pairwise
different, and none of them occurs in the module or is reserved.
-/

namespace YulInline

/-! ## One step -/

/-- What a statement of the root block declares when it is expanded completely. -/
theorem Stmt.RootExpands.declared_perm {module : Block} {stmt stmt' : Stmt} {t : Trace}
    (h : stmt.RootExpands module stmt' t) (hcomplete : t.complete = true) :
    (stmt'.gather Stmt.introduced).Perm (stmt.gather Stmt.introduced ++ t.names) := by
  cases h with
  | block hbody =>
    rw [Stmt.gather_block, Stmt.gather_block]
    exact hbody.declared_perm hcomplete
  | define hbody =>
    rw [Stmt.gather_define, Stmt.gather_define, List.append_assoc]
    exact (hbody.declared_perm hcomplete).append_left _
  | other _ =>
    rw [List.append_nil]

/-- Where each statement of a block declares more than its counterpart in another, the block as a
whole declares all of that. -/
theorem Block.declared_perm_of_getElem? {f : Nat → List String} {block block' : Block}
    (hlength : block'.length = block.length)
    (h : ∀ i < block.length, ∃ stmt stmt', block[i]? = some stmt ∧ block'[i]? = some stmt' ∧
      (stmt'.gather Stmt.introduced).Perm (stmt.gather Stmt.introduced ++ f i)) :
    (Block.declared block').Perm
      (Block.declared block ++ (List.range block.length).flatMap f) := by
  induction block generalizing block' f with
  | nil =>
    rw [List.eq_nil_of_length_eq_zero hlength]
    exact List.Perm.refl _
  | cons stmt stmts ih =>
    obtain ⟨stmt', stmts', rfl⟩ := List.exists_cons_of_length_eq_add_one hlength
    obtain ⟨_, _, hstmt, hstmt', hhead⟩ := h 0 (Nat.zero_lt_succ _)
    obtain rfl := Option.some.inj hstmt
    obtain rfl := Option.some.inj hstmt'
    have htail := @ih (fun i => f (i + 1)) stmts' (by simpa using hlength) fun i hi =>
      h (i + 1) (Nat.succ_lt_succ hi)
    rw [Block.declared, Block.declared, Block.gather_cons, Block.gather_cons, List.length_cons,
      List.range_succ_eq_map, List.flatMap_cons, List.flatMap_map]
    refine (hhead.append htail).trans ?_
    rw [List.append_assoc, List.append_assoc]
    refine List.Perm.append_left _ ?_
    rw [← List.append_assoc, ← List.append_assoc]
    exact List.perm_append_comm.append_right _

/-- What inlining declares beyond what was declared before has been given out by the supply. -/
theorem inline_declared {module result : Block} {names after : NameSupply}
    (h : inline module names = .ok (result, after)) :
    ∃ fresh, Dispensed names fresh after ∧
      (Block.declared result).Perm (Block.declared module ++ fresh) := by
  have hspec := inline_spec module names
  rw [h] at hspec
  obtain ⟨final, own, hfinal, rfl, rfl, -⟩ := hspec
  refine ⟨_, hfinal.names, Block.declared_perm_of_getElem? hfinal.length fun i hi => ?_⟩
  obtain ⟨stmt, stmt', hstmt, hstmt', hroot, hcomplete⟩ := hfinal.complete i hi
  exact ⟨stmt, stmt', hstmt, hstmt', hroot.declared_perm hcomplete⟩

/-! ## A list of steps -/

theorem NameSupply.isUsed_foldl_reserve (reserved : List String) (supply : NameSupply)
    (name : String) : (reserved.foldl NameSupply.reserve supply).isUsed name = true ↔
      name ∈ reserved ∨ supply.isUsed name = true := by
  induction reserved generalizing supply with
  | nil => simp
  | cons text reserved ih =>
    rw [List.foldl_cons, ih, isUsed_reserve, Bool.or_eq_true, beq_iff_eq, List.mem_cons]
    tauto

/-- The steps hand the supply on, so that what they introduce together is given out once each. -/
theorem advance_declared (steps : List Step) :
    ∀ {stage final : Stage}, steps.foldlM Stage.advance stage = .ok final →
      ∃ fresh, Dispensed stage.names fresh final.names ∧
        (Block.declared final.module).Perm (Block.declared stage.module ++ fresh) := by
  induction steps with
  | nil =>
    intro stage final h
    obtain rfl : stage = final := Except.ok.inj h
    exact ⟨[], Dispensed.refl _, by rw [List.append_nil]⟩
  | cons step steps ih =>
    intro stage final h
    rw [List.foldlM_cons] at h
    cases hstep : Stage.advance stage step with
    | error error =>
      rw [hstep] at h
      cases h
    | ok between =>
      rw [hstep] at h
      obtain ⟨later, hlater, hdeclared'⟩ := ih h
      have hfirst : ∃ fresh, Dispensed stage.names fresh between.names ∧
          (Block.declared between.module).Perm (Block.declared stage.module ++ fresh) := by
        cases step with
        | fullInliner =>
          rw [Stage.advance] at hstep
          cases hinline : inline stage.module stage.names with
          | error error =>
            rw [hinline] at hstep
            cases hstep
          | ok result =>
            rw [hinline] at hstep
            rw [← Except.ok.inj hstep]
            exact inline_declared hinline
      obtain ⟨fresh, hfresh, hdeclared⟩ := hfirst
      refine ⟨fresh ++ later, hfresh.trans hlater, hdeclared'.trans ?_⟩
      rw [← List.append_assoc]
      exact hdeclared.append_right later

/-- What optimising a module declares beyond what was declared before are names that are pairwise
different, not empty, do not occur in the module and are not reserved. -/
theorem optimise_introduces_fresh {settings : Settings} {module result : Block}
    (h : optimise settings module = .ok result) :
    ∃ fresh : List String, (Block.declared result).Perm (Block.declared module ++ fresh) ∧
      fresh.Nodup ∧ ∀ name ∈ fresh,
        name ≠ "" ∧ name ∉ Block.names module ∧ name ∉ settings.reservedNames := by
  rw [optimise] at h
  cases hsteps : settings.steps.foldlM Stage.advance (Stage.first settings module) with
  | error error =>
    rw [hsteps] at h
    cases h
  | ok final =>
    rw [hsteps] at h
    obtain rfl : final.module = result := Except.ok.inj h
    obtain ⟨fresh, hfresh, hdeclared⟩ := advance_declared settings.steps hsteps
    have hused : ∀ name, (Stage.first settings module).names.isUsed name = true ↔
        name ∈ settings.reservedNames ∨ name ∈ Block.names module := by
      intro name
      rw [Stage.first, NameSupply.isUsed_foldl_reserve, NameSupply.isUsed_ofBlock]
    refine ⟨fresh, hdeclared, hfresh.nodup, fun name hname => ⟨hfresh.ne_empty hname, ?_, ?_⟩⟩
    · exact fun hmem => hfresh.not_mem_of_isUsed ((hused name).mpr (Or.inr hmem)) hname
    · exact fun hmem => hfresh.not_mem_of_isUsed ((hused name).mpr (Or.inl hmem)) hname

/-- A module in which a block calls the identity function. -/
def identityCall : Block :=
  [.define ⟨"f", [⟨"x", ""⟩], [⟨"r", ""⟩], [.assign ["r"] (.ident "x")]⟩,
    .block [.declare [⟨"y", ""⟩] (some (.call "f" [.literal ⟨.number, "1", ""⟩]))]]

/-- What inlining makes of it. -/
def identityCallInlined : Block :=
  [.define ⟨"f", [⟨"x", ""⟩], [⟨"r", ""⟩], [.assign ["r"] (.ident "x")]⟩,
    .block [.declare [⟨"f_x", ""⟩] (some (.literal ⟨.number, "1", ""⟩)),
      .declare [⟨"f_r", ""⟩] none, .block [.assign ["f_r"] (.ident "f_x")],
      .declare [⟨"y", ""⟩] (some (.ident "f_r"))]]

theorem optimise_introduces_fresh_identityCall :
    optimise { reservedNames := ["q"] } identityCall = .ok identityCallInlined ∧
      ∃ fresh : List String,
        (Block.declared identityCallInlined).Perm (Block.declared identityCall ++ fresh) ∧
        fresh.Nodup ∧ ∀ name ∈ fresh,
          name ≠ "" ∧ name ∉ Block.names identityCall ∧ name ∉ ["q"] := by
  have hrun : optimise { reservedNames := ["q"] } identityCall = .ok identityCallInlined := by rfl
  exact ⟨hrun, optimise_introduces_fresh hrun⟩

end YulInline
