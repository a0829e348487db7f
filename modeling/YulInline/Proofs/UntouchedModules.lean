import YulInline.Proofs.CallSites
import YulInline.Proofs.Repetition

/-!
# Modules that are left as they are

Inlining leaves a module as it is if there is nothing to expand in it, that is, no call of a
function with one return variable from another function or a top-level block. It does so exactly:
arguments of calls that stay are visited but not moved, and calls of a function by itself, calls
with no value or several and the conditions of loops are not touched. Nor is any name given out for
them.

In the other direction, a call that is expanded leaves a trace: names are given out for the
variables that hold its arguments and its result (`Trace.Holds`), and all names that are given out
are declared in the end.
-/

namespace YulInline

variable {module : Block}

/-! ## Calls to expand -/

/-- Some call in a module, outside the conditions of loops, is of a function with exactly one return
variable and stands in another body than that of this function. -/
def Block.HasCallToExpand (module : Block) : Prop :=
  ∃ stmt ∈ module, ∃ call ∈ stmt.gather Stmt.ownCalls, ∃ function ∈ Block.functions module,
    function.name = call.1 ∧ function.returns.length = 1 ∧ function.name ≠ stmt.callerName

theorem Block.callSites_eq_nil_iff : module.callSites = [] ↔ ¬ module.HasCallToExpand := by
  rw [Block.callSites, List.flatMap_eq_nil_iff, Block.HasCallToExpand]
  push Not
  refine forall₂_congr fun stmt _ => ?_
  rw [Stmt.callSites, List.eq_nil_iff_forall_not_mem]
  constructor
  · intro hnone call hcall function hmem hname hone
    by_contra hne
    have hinlines := Block.inlines_iff.mpr ⟨function, hmem, hname, hone, hne⟩
    exact hnone ⟨stmt.callerName, call.1⟩
      ((Stmt.mem_gather_iff Stmt.mem_ownSites _ stmt).mpr ⟨call, hcall, hinlines, rfl⟩)
  · intro hnone site hsite
    obtain ⟨call, hcall, hinlines, -⟩ :=
      (Stmt.mem_gather_iff Stmt.mem_ownSites site stmt).mp hsite
    obtain ⟨function, hmem, hname, hone, hne⟩ := Block.inlines_iff.mp hinlines
    exact hne (hnone call hcall function hmem hname hone)

/-! ## Runs -/

namespace Inliner.Finished

variable {final : Inliner} {names : NameSupply} {own : Nat → Trace}

/-- If nothing was expanded, there was nothing to expand. -/
theorem callSites_eq_nil_iff (h : final.Finished module names own) :
    module.callSites = [] ↔ final.expansions = [] := by
  have hlength := h.sites_perm.length_eq
  rw [List.length_map] at hlength
  rw [← List.length_eq_zero_iff, ← List.length_eq_zero_iff, hlength]

/-- Where nothing can be expanded, everything stays as it is. -/
theorem module_eq_of_callSites (h : final.Finished module names own)
    (hnone : module.callSites = []) : final.module = module :=
  h.module_eq_of_expansions (h.callSites_eq_nil_iff.mp hnone)

/-- If no name was given out, nothing was expanded. -/
theorem expansions_eq_nil_of_names (h : final.Finished module names own)
    (hnone : ∀ i < module.length, (own i).names = []) : final.expansions = [] := by
  refine h.expansions_eq_nil_iff.mpr fun i hi => ?_
  obtain ⟨stmt, stmt', -, -, hroot, -⟩ := h.complete i hi
  refine List.eq_nil_iff_forall_not_mem.mpr fun expansion hmem => ?_
  have hsub := hroot.holds expansion hmem
  rw [hnone i hi, List.sublist_nil] at hsub
  simp at hsub

end Inliner.Finished

/-- Inlining leaves a module as it is, and gives no name out, exactly if there is no call to expand
in it; and it never does one of the two without the other. -/
theorem inline_unchanged_iff {result : Block} {names after : NameSupply}
    (hinline : inline module names = .ok (result, after)) :
    (result = module ∧ (∀ name, after.isUsed name = names.isUsed name) ↔
        ¬ module.HasCallToExpand) ∧
      (result = module ↔ ∀ name, after.isUsed name = names.isUsed name) := by
  obtain ⟨fresh, hfresh, hdeclared⟩ := inline_declared hinline
  have hspec := inline_spec module names
  rw [hinline] at hspec
  obtain ⟨final, own, h, rfl, rfl, -⟩ := hspec
  have hunused : final.module = module → ∀ name, final.names.isUsed name = names.isUsed name := by
    intro hsame
    have hlength := hdeclared.length_eq
    rw [hsame, List.length_append] at hlength
    exact hfresh.eq_nil_iff.mp (List.eq_nil_of_length_eq_zero (by omega))
  have hsites : (∀ name, final.names.isUsed name = names.isUsed name) → module.callSites = [] := by
    intro hsame
    have hnone := h.names.eq_nil_iff.mpr hsame
    rw [List.flatMap_eq_nil_iff] at hnone
    refine h.callSites_eq_nil_iff.mpr (h.expansions_eq_nil_of_names fun i hi => ?_)
    exact hnone i (List.mem_range.mpr hi)
  have hstays := h.module_eq_of_callSites
  rw [← Block.callSites_eq_nil_iff]
  exact ⟨⟨fun hboth => hsites hboth.2, fun hnone => ⟨hstays hnone, hunused (hstays hnone)⟩⟩,
    hunused, fun hsame => hstays (hsites hsame)⟩

/-- A module all of whose calls stay: a function that calls itself in an argument of such a call,
one with two return variables, one with none, and a call in the condition of a loop. -/
def callsThatStay : Block :=
  [.define ⟨"down", [⟨"n", ""⟩], [⟨"r", ""⟩],
      [.assign ["r"] (.call "down" [.instr "sub" [.ident "n", .call "down" [.ident "n"]]])]⟩,
    .define ⟨"split", [⟨"x", ""⟩], [⟨"a", ""⟩, ⟨"b", ""⟩], []⟩,
    .define ⟨"log", [⟨"x", ""⟩], [],
      [.loop [] (.call "down" [.ident "x"]) [] [.expr (.call "log" [.ident "x"])]]⟩,
    .block
      [.declare [⟨"u", ""⟩, ⟨"v", ""⟩] (some (.call "split" [.literal ⟨.number, "1", ""⟩])),
        .expr (.call "log" [.instr "add" [.ident "u", .ident "v"]])]]

theorem inline_unchanged_iff_callsThatStay :
    ∃ after, inline callsThatStay (.ofBlock callsThatStay) = .ok (callsThatStay, after) ∧
      (callsThatStay = callsThatStay ∧
          (∀ name, after.isUsed name = (NameSupply.ofBlock callsThatStay).isUsed name) ↔
        ¬ callsThatStay.HasCallToExpand) ∧
      (callsThatStay = callsThatStay ↔
        ∀ name, after.isUsed name = (NameSupply.ofBlock callsThatStay).isUsed name) := by
  have hrun : inline callsThatStay (.ofBlock callsThatStay) =
      .ok (callsThatStay, .ofBlock callsThatStay) := by
    rfl
  exact ⟨_, hrun, inline_unchanged_iff hrun⟩

end YulInline
