import YulInline.Proofs.Termination

/-!
# What a demand leaves alone

While a body is expanded, other functions are demanded, and any number of expansions can be
suspended in the midst of an expression when a demand changes the module. What it changes are the
bodies of functions that were pending when it came, whether it succeeds or fails, and in whatever
state it comes (`Inliner.Spared`). A function whose expansion is suspended is not pending, and a
top-level block is no function.

So an expansion finds its body as it left it whenever it is resumed. To say this of a run, positions
in a body are given by paths (`Inliner.statementAt?`), and demands are watched: where a position in
the body denotes another statement afterwards, the watched run does something else, of any kind. It
never comes to that: the watched run is the run.
-/

namespace YulInline

variable {module : Block}

/-! ## What is left alone -/

/-- Of the states before and after a demand: the root block is the same but for the bodies of
functions that were pending before. -/
structure Inliner.Spared (before after : Inliner) : Prop where
  /-- The statements of the root block are as many as before, of the same kinds in the same order.
  -/
  kinds : after.module.map Stmt.kind = before.module.map Stmt.kind
  /-- The functions have kept their names, parameters and return variables. -/
  signatures : ∀ (i : Nat) (function : FunctionDef), before.module[i]? = some (.define function) →
    ∃ body, after.module[i]? = some (.define { function with body })
  /-- The body of a function that was not pending is the same. -/
  bodies : ∀ (i : Nat) (function : FunctionDef), before.module[i]? = some (.define function) →
    before.isPending function.name = false → after.module[i]? = some (.define function)
  /-- A top-level block is the same, as is any other statement that is no function. -/
  blocks : ∀ (i : Nat) (stmt : Stmt), before.module[i]? = some stmt → stmt.function? = none →
    after.module[i]? = some stmt

theorem Kept.spared {before after : Inliner} (h : Kept before.module none before after) :
    before.Spared after := by
  refine ⟨?_, ?_, ?_, ?_⟩
  · have hkinds := congrArg (List.map Stmt.kind) h.shells
    simpa only [List.map_map, Function.comp_def, Stmt.kind_withBody] using hkinds
  · intro i function hi
    exact Block.getElem?_define_of_shells h.shells.symm hi
  · intro i function hi hpending
    rw [h.bodies i (by simp) ?_, hi]
    rintro ⟨other, hother, hmem⟩
    obtain rfl := Stmt.define.inj (Option.some.inj (hother.symm.trans hi))
    rw [Inliner.isPending, List.contains_iff_mem.mpr hmem] at hpending
    cases hpending
  · intro i stmt hi hnone
    rw [h.bodies i (by simp) ?_, hi]
    rintro ⟨other, hother, -⟩
    obtain rfl := Option.some.inj (hother.symm.trans hi)
    cases hnone

/-! ## Positions -/

/-- The statement at a position: in the body at `root`, the one with number `index` in the block to
which `path` leads. -/
def Inliner.statementAt? (inliner : Inliner) (root : Nat) (path : BlockPath) (index : Nat) :
    Option Stmt :=
  inliner.module[root]?.bind fun stmt =>
    stmt.body?.bind fun body => (Block.descend? path body).bind fun block => block[index]?

/-! ## Watched runs -/

namespace InlineM

open Classical in
/-- Demands a function, and looks whether every position in the body at `root` denotes the same
statement afterwards as before; if not, `alarm` is run. -/
noncomputable def watch (alarm : InlineM Unit) (root : Nat) (demand : String → InlineM Unit)
    (name : String) : InlineM Unit := do
  let before ← get
  demand name
  let after ← get
  if ∀ path index, after.statementAt? root path index = before.statementAt? root path index then
    return ()
  else
    alarm

/-- Has the body of a function expanded like `demandWith`. Every demand in a body is watched from
that body. -/
noncomputable def demandWatchedWith (alarm : InlineM Unit) : (fuel : Nat) → String → InlineM Unit
  | 0, name => do
    let _ ← function name
  | fuel + 1, name => do
    let function ← function name
    let inliner ← get
    if inliner.isPending name then
      set { inliner with pending := inliner.pending.erase name }
      let position := inliner.position name
      expandBody ⟨position, name, watch alarm position (demandWatchedWith alarm fuel)⟩ function.body

/-- Has the body of a function expanded like `demand`, with all demands in bodies watched. -/
noncomputable def demandWatched (alarm : InlineM Unit) (name : String) : InlineM Unit := do
  demandWatchedWith alarm (← get).pending.length name

/-- Expands a module like `expandModule`, with all demands in bodies watched. -/
noncomputable def expandModuleWatched (alarm : InlineM Unit) : InlineM Unit := do
  (← get).module.zipIdx.forM fun (stmt, position) =>
    visitTopLevelWith (watch alarm position (demandWatched alarm)) stmt position
  (← get).pending.forM (demandWatched alarm)

end InlineM

/-! ## Watched runs are runs -/

namespace InlineM

variable {position : Nat}

/-- A watch finds nothing. -/
theorem watch_eq {alarm : InlineM Unit} {demand demand' : String → InlineM Unit} {name : String}
    {inliner : Inliner} (hrests : inliner.Rests module position)
    (hdemand : (demand name).Keeps module none)
    (heq : demand name inliner = demand' name inliner) :
    demand name inliner = watch alarm position demand' name inliner := by
  have hkept := hdemand inliner
  rw [InlineM.Outcome] at hkept
  show _ = EStateM.bind (demand' name) _ inliner
  rw [EStateM.bind, ← heq]
  cases hrun : demand name inliner with
  | ok a after =>
    rw [hrun] at hkept
    have hbody := (hkept hrests.shaped).bodies position (by simp) hrests.awake
    have hsame : ∀ path index,
        after.statementAt? position path index = inliner.statementAt? position path index := by
      intro path index
      rw [Inliner.statementAt?, Inliner.statementAt?, hbody]
    exact (congrFun (if_pos hsame) after).symm
  | error error after => rfl

/-- Watching the demands of an expansion makes no difference to it. -/
theorem expandBody_watched (alarm : InlineM Unit) {demand demand' : String → InlineM Unit}
    (hkeeps : ∀ name, (demand name).Keeps module none)
    (hsame : ∀ name, SameFrom (·.Orderly module) (demand name) (demand' name)) (caller : String)
    (body : Block) :
    SameFrom (·.Rests module position) (expandBody ⟨position, caller, demand⟩ body)
      (expandBody ⟨position, caller, watch alarm position demand'⟩ body) :=
  have hwatch : ∀ name, SameFrom (·.Rests module position) (demand name)
      (watch alarm position demand' name) := fun name inliner hrests =>
    ⟨watch_eq hrests (hkeeps name) (hsame name inliner hrests.toOrderly).1,
      ((hkeeps name).rests inliner hrests).2⟩
  expandBody_coupled (@Site.coupled_rests module ⟨position, caller, demand⟩ _ hwatch) body

theorem demandWatchedWith_same (module : Block) (alarm : InlineM Unit) (fuel : Nat) :
    ∀ name, SameFrom (·.Orderly module) (demandWith fuel name)
      (demandWatchedWith alarm fuel name) := by
  induction fuel with
  | zero => exact fun name inliner h => ⟨rfl, (demandWith_keeps module 0 name).orderly h⟩
  | succ fuel ih =>
    intro name inliner h
    refine ⟨?_, (demandWith_keeps module (fuel + 1) name).orderly h⟩
    rw [demandWith, demandWatchedWith]
    have hfound := (outcome_function inliner name).mono (fun _ _ => id) fun _ _ _ => trivial
    refine hfound.bind_congr rfl ?_
    rintro function after ⟨rfl, hfunction⟩
    show (ite (after.isPending name = true) _ _ : InlineM Unit) after =
      (ite (after.isPending name = true) _ _ : InlineM Unit) after
    split
    · exact (expandBody_watched alarm (demandWith_keeps module fuel) ih name function.body _
        (h.enter hfunction)).1
    · rfl

theorem demandWatched_same (module : Block) (alarm : InlineM Unit) (name : String) :
    SameFrom (·.Orderly module) (demand name) (demandWatched alarm name) :=
  fun inliner => demandWatchedWith_same module alarm inliner.pending.length name inliner

theorem visitTopLevel_watched (alarm : InlineM Unit) {stmt : Stmt}
    (hstmt : module[position]? = some stmt) :
    SameFrom (·.Orderly module) (visitTopLevel stmt position)
      (visitTopLevelWith (watch alarm position (demandWatched alarm)) stmt position) := by
  intro inliner h
  cases stmt with
  | block body =>
    have hrests : inliner.Rests module position := ⟨h, Stmt.not_waits_of_block hstmt⟩
    have hbody := expandBody_watched alarm (demand_keeps module)
      (demandWatched_same module alarm) "" body inliner hrests
    exact ⟨hbody.1, hbody.2.mono (fun _ _ hrests' => hrests'.toOrderly) fun _ _ => id⟩
  | define function => exact ⟨rfl, h⟩
  | _ => exact ⟨rfl, trivial⟩

/-- Watching the demands of a run makes no difference to it. -/
theorem expandModuleWatched_eq (alarm : InlineM Unit) {inliner : Inliner}
    (h : inliner.Orderly inliner.module) :
    expandModuleWatched alarm inliner = expandModule inliner := by
  have hvisits := SameFrom.forM (fun (entry : Stmt × Nat) hentry =>
    visitTopLevel_watched alarm (List.mem_zipIdx_iff_getElem?.mp hentry)) inliner h
  refine (hvisits.2.bind_congr hvisits.1 fun _ after hafter => ?_).symm
  exact (SameFrom.forM (fun name _ => demandWatched_same _ alarm name) after hafter).1

/-- A demand, with whatever fuel, in whatever state it comes and however it ends, changes nothing
but the bodies of functions that were pending when it came. Hence, throughout a run, whenever an
expansion is resumed after a demand, every position in its body denotes the very same statement as
when it was suspended: it makes no difference to the run what would be done otherwise. -/
theorem demand_spares_suspended {names : NameSupply} {start : Inliner}
    (hstart : Inliner.ofModule? module names = .ok start) :
    (∀ (inliner : Inliner) (fuel : Nat) (name : String),
      (demandWith fuel name).Outcome inliner (fun _ after => inliner.Spared after)
        fun _ after => inliner.Spared after) ∧
    ∀ alarm, expandModuleWatched alarm start = expandModule start := by
  refine ⟨fun inliner fuel name => ?_, fun alarm => ?_⟩
  · exact (demandWith_keeps inliner.module fuel name inliner).mono
      (fun _ _ hkept => (hkept rfl).spared) fun _ _ hkept => (hkept rfl).spared
  · have hof := ofModule?_spec module names
    rw [hstart] at hof
    obtain ⟨hnodup, rfl⟩ := hof
    exact expandModuleWatched_eq alarm ⟨rfl, hnodup⟩

theorem demand_spares_suspended_evenAndOdd :
    ∃ start, Inliner.ofModule? evenAndOdd (.ofList []) = .ok start ∧
      (∀ (inliner : Inliner) (fuel : Nat) (name : String),
        (demandWith fuel name).Outcome inliner (fun _ after => inliner.Spared after)
          fun _ after => inliner.Spared after) ∧
      ∀ alarm, expandModuleWatched alarm start = expandModule start := by
  have hstart : Inliner.ofModule? evenAndOdd (.ofList []) =
      .ok ⟨evenAndOdd, ["even", "odd"], .ofList [], []⟩ := rfl
  exact ⟨_, hstart, demand_spares_suspended hstart⟩

end InlineM

end YulInline
