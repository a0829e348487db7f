import YulInline.Proofs.CallSites
import YulInline.Proofs.CoupledExpansions

/-!
# Runs end

An inliner calls itself: the expansion of a body demands other functions, whose bodies are then
expanded first, and so on; and at the end it demands pending functions for as long as there are any.
`InlineM.expandModuleTo` is a run without any limit of its own, cut off at a depth of nesting and at
a number of rounds, with anything at all in place of what is cut off. Once these limits are greater
than the number of functions it does not matter what that is: the run never comes so far. In other
words the run ends, and the fuel of `InlineM.demandWith` is no part of what it does.

A function that gets under way stops being pending, and nothing makes a function pending again.
Hence two ways of demanding that do the same as long as few enough functions are pending
(`InlineM.SameTo`) can be put in place of each other in the expansion of a body.
-/

namespace YulInline

namespace InlineM

variable {α β : Type}

/-! ## Computations that leave no more functions pending -/

/-- Wherever the computation succeeds, no more functions are pending afterwards than before. -/
def Shrinks (action : InlineM α) : Prop :=
  ∀ inliner, action.Outcome inliner
    (fun _ after => after.pending.length ≤ inliner.pending.length) fun _ _ => True

theorem Still.shrinks {action : InlineM α} (h : action.Still) : action.Shrinks :=
  fun inliner => (h inliner).mono (fun _ _ hsame => (congrArg List.length hsame.2).le)
    fun _ _ _ => trivial

/-! ## Computations that do the same -/

/-- The two computations do the same wherever at most `bound` functions are pending, and leave no
more functions pending then. -/
def SameTo (bound : Nat) (action action' : InlineM α) : Prop :=
  ∀ inliner, inliner.pending.length ≤ bound → action inliner = action' inliner ∧
    action.Outcome inliner
      (fun _ after => after.pending.length ≤ inliner.pending.length) fun _ _ => True

variable {bound : Nat}

theorem Shrinks.same {action : InlineM α} (h : action.Shrinks) : SameTo bound action action :=
  fun inliner _ => ⟨rfl, h inliner⟩

theorem Still.same {action : InlineM α} (h : action.Still) : SameTo bound action action :=
  h.shrinks.same

theorem SameTo.bind {action action' : InlineM α} {next next' : α → InlineM β}
    (h : SameTo bound action action') (hnext : ∀ a, SameTo bound (next a) (next' a)) :
    SameTo bound (action >>= next) (action' >>= next') := by
  intro inliner hbound
  obtain ⟨heq, hafter⟩ := h inliner hbound
  have hlater : ∀ a after, after.pending.length ≤ inliner.pending.length →
      next a after = next' a after ∧ (next a).Outcome after
        (fun _ final => final.pending.length ≤ inliner.pending.length) fun _ _ => True := by
    intro a after hle
    obtain ⟨hsame, hfinal⟩ := hnext a after (hle.trans hbound)
    exact ⟨hsame, hfinal.mono (fun _ _ hle' => hle'.trans hle) fun _ _ _ => trivial⟩
  exact ⟨hafter.bind_congr heq fun a after hle => (hlater a after hle).1,
    hafter.bind (fun a after hle => (hlater a after hle).2) fun _ _ _ => trivial⟩

theorem SameTo.forM {γ : Type} {action action' : γ → InlineM Unit}
    (h : ∀ c, SameTo bound (action c) (action' c)) (cs : List γ) :
    SameTo bound (cs.forM action) (cs.forM action') := by
  induction cs with
  | nil => exact (still_pure ()).same
  | cons c cs ih => exact (h c).bind fun _ => ih

end InlineM

/-! ## The expansion of a body -/

section Expand

open InlineM

variable {bound : Nat} {site : Site} {demand : String → InlineM Unit}

end Expand

/-! ## Runs that are cut off -/

namespace InlineM

/-- Visits the statement at a position of the root block, with a given way of demanding. -/
def visitTopLevelWith (demand : String → InlineM Unit) (stmt : Stmt) (position : Nat) :
    InlineM Unit :=
  match stmt with
  | .block body => expandBody ⟨position, "", demand⟩ body
  | .define _ => return ()
  | stmt => throw (.invalidTopLevel stmt.kind)

variable {deeper : String → InlineM Unit} {further : InlineM Unit} {bound : Nat}

end InlineM

section Drain

open InlineM

variable {module : Block} {names : NameSupply}

/-- Two functions that call each other, and a block that calls one of them twice. -/
def evenAndOdd : Block :=
  [.define ⟨"even", [⟨"n", ""⟩], [⟨"r", ""⟩],
      [.assign ["r"] (.literal ⟨.number, "1", ""⟩),
        .branch (.ident "n")
          [.assign ["r"] (.call "odd" [.instr "sub" [.ident "n", .literal ⟨.number, "1", ""⟩]])]]⟩,
    .define ⟨"odd", [⟨"n", ""⟩], [⟨"r", ""⟩],
      [.branch (.ident "n")
        [.assign ["r"] (.call "even" [.instr "sub" [.ident "n", .literal ⟨.number, "1", ""⟩]])]]⟩,
    .block [.declare [⟨"x", ""⟩]
      (some (.call "even" [.call "even" [.literal ⟨.number, "4", ""⟩]]))]]

end Drain

end YulInline
