import YulInline.Proofs.DirectExpansion

/-!
# Observed runs

What an inliner has hoisted out of an expression is in no body until the expression as a whole has
been expanded, and in the meantime it is not part of the state of the inliner. An observed run
carries it along: `Aside` is what has come of other expressions so far and is in no body yet. While
the arguments of a call are expanded, this is what has come of the arguments further to the left;
while the blocks inside a statement are, what was hoisted out of its expression; and a function that
is demanded in the midst of an expression starts with what is set aside there.

Whenever the body of a function is about to be copied to a call, an observed run notes the
`Instantiation`: the state in which the expansion of the call began, the present one, what is set
aside, what has been hoisted for the call, and how the body is going to be copied. Observation makes
no difference to the run (`ObserveM.Mirrors`).
-/

namespace YulInline

/-! ## What is noted -/

/-- What has come of other expressions and is in no body yet. -/
structure Aside where
  /-- The statements that were hoisted. -/
  hoisted : List Stmt := []
  /-- What remains of arguments. -/
  rests : List Expr := []

namespace Aside

/-- The names that occur in what is set aside. -/
def names (aside : Aside) : List String :=
  Block.names aside.hoisted ++ Expr.namesOfArgs aside.rests

/-- Sets more aside. -/
def add (aside : Aside) (hoisted : List Stmt) (rests : List Expr) : Aside :=
  ⟨aside.hoisted ++ hoisted, aside.rests ++ rests⟩

end Aside

/-- A call at the moment when the body of its function is about to be copied. -/
structure Instantiation where
  /-- The inliner when the expansion of the call began. -/
  start : Inliner
  /-- The inliner now. -/
  now : Inliner
  /-- What is set aside for other expressions. -/
  aside : Aside
  /-- The statements that have been hoisted for the call. -/
  hoisted : List Stmt
  /-- How the body is going to be copied. -/
  rule : CopyRule
  /-- The expansion of the call, as it is going to be logged. -/
  expansion : Expansion

/-- An inliner that is observed. -/
structure Observed extends Inliner where
  /-- The instantiations so far, the latest first. -/
  instantiations : List Instantiation := []

/-- An inliner of which nothing has been noted yet. -/
def Inliner.observed (inliner : Inliner) : Observed :=
  { toInliner := inliner }

/-- A step of an inliner that is observed. -/
abbrev ObserveM := EStateM InlineError Observed

/-- A step of an inliner about which nothing is noted. -/
def InlineM.observed {α : Type} (action : InlineM α) : ObserveM α := fun observed =>
  match action observed.toInliner with
  | .ok a after => .ok a { observed with toInliner := after }
  | .error error after => .error error { observed with toInliner := after }

/-! ## Expanding under observation -/

/-- A body that is being expanded and observed. -/
structure ObservedSite extends Site where
  /-- Has the body of a function expanded like `demand`, given what is set aside. -/
  demandObserved : Aside → String → ObserveM Unit

namespace InlineM

/-- Expands a call like `expandCall`, and notes the instantiation. The expansion of the call began
in the state `start`, and `hoisted` has been hoisted out of its arguments. -/
def expandCallObserved (site : Site) (start : Inliner) (aside : Aside) (hoisted : List Stmt)
    (callee : FunctionDef) (result : TypedName) (args : List Expr) :
    ObserveM (List Stmt × String) := do
  let arguments ← (argumentNames callee.name args).observed
  let name ← (freshName (callee.name ++ "_" ++ result.name)).observed
  let callee ← (function callee.name).observed
  let rule := callee.copyRule arguments result.name name
  let expansion := ⟨site.caller, callee, arguments, name⟩
  let declaration : Stmt := .declare [⟨name, result.type⟩] none
  modify fun observed =>
    let instantiation :=
      ⟨start, observed.toInliner, aside, hoisted ++ [declaration], rule, expansion⟩
    { observed with instantiations := instantiation :: observed.instantiations }
  let body ← (copyBlock rule callee.body).observed
  InlineM.observed <| modify fun inliner =>
    { inliner with expansions := expansion :: inliner.expansions }
  return ([declaration, .block body], name)

end InlineM

mutual

/-- Expands an expression like `Expr.expand`. -/
def Expr.expandObserved (site : ObservedSite) (aside : Aside) :
    Expr → ObserveM (List Stmt × Expr)
  | .literal value => return ([], .literal value)
  | .ident name => return ([], .ident name)
  | .instr op args => do
    let (hoisted, args) ← Expr.expandArgsObserved site aside [] [] false args
    return (hoisted, .instr op args)
  | .call name args => do
    let start := (← get).toInliner
    site.demandObserved aside name
    let callee ← (InlineM.function name).observed
    (InlineM.checkArity callee args.length).observed
    let hints := callee.params.map fun param => name ++ "_" ++ param.name
    let types := callee.params.map (·.type)
    let result? := callee.result? site.caller
    let (hoisted, args) ← Expr.expandArgsObserved site aside hints types result?.isSome args
    match result? with
    | none => return (hoisted, .call name args)
    | some result =>
      let (expansion, holder) ←
        InlineM.expandCallObserved site.toSite start aside hoisted callee result args
      return (hoisted ++ expansion, .ident holder)

/-- Expands arguments like `Expr.expandArgs`. While an argument is expanded, what has come of those
before it is set aside. -/
def Expr.expandArgsObserved (site : ObservedSite) (aside : Aside) (hints types : List String)
    (toFront : Bool) : List Expr → ObserveM (List Stmt × List Expr)
  | [] => return ([], [])
  | arg :: args => do
    let (hoisted, arg) ← arg.expandObserved site aside
    let (bound, arg) ←
      (InlineM.bindArgument (hints.headD "") (types.headD "") toFront hoisted arg).observed
    let (later, args) ← Expr.expandArgsObserved site (aside.add bound [arg]) hints.tail types.tail
      (toFront || !hoisted.isEmpty) args
    return (later ++ bound, arg :: args)

end

mutual

/-- Expands a statement like `Stmt.expand`. While the blocks inside the statement are expanded, what
was hoisted out of its expression is set aside. -/
def Stmt.expandObserved (site : ObservedSite) (aside : Aside) (plug : Stmt → Block) :
    Stmt → ObserveM (List Stmt × Stmt)
  | .expr value => do
    let (hoisted, value) ← value.expandObserved site aside
    (site.publish (plug (.expr value))).observed
    return (hoisted, .expr value)
  | .assign targets value => do
    let (hoisted, value) ← value.expandObserved site aside
    (site.publish (plug (.assign targets value))).observed
    return (hoisted, .assign targets value)
  | .declare vars none => return ([], .declare vars none)
  | .declare vars (some value) => do
    let (hoisted, value) ← value.expandObserved site aside
    (site.publish (plug (.declare vars (some value)))).observed
    return (hoisted, .declare vars (some value))
  | .define function => throw (.nestedDefinition function.name)
  | .branch condition body => do
    let (hoisted, condition) ← condition.expandObserved site aside
    (site.publish (plug (.branch condition body))).observed
    let body ← Block.expandObserved site (aside.add hoisted [])
      (fun body => plug (.branch condition body)) body
    return (hoisted, .branch condition body)
  | .switch scrutinee cases => do
    let (hoisted, scrutinee) ← scrutinee.expandObserved site aside
    (site.publish (plug (.switch scrutinee cases))).observed
    let cases ← Case.expandCasesObserved site (aside.add hoisted [])
      (fun cases => plug (.switch scrutinee cases)) cases
    return (hoisted, .switch scrutinee cases)
  | .loop init condition step body => do
    let init ← Block.expandObserved site aside
      (fun init => plug (.loop init condition step body)) init
    let step ← Block.expandObserved site aside
      (fun step => plug (.loop init condition step body)) step
    let body ← Block.expandObserved site aside
      (fun body => plug (.loop init condition step body)) body
    return ([], .loop init condition step body)
  | .block body => do
    let body ← Block.expandObserved site aside (fun body => plug (.block body)) body
    return ([], .block body)

/-- Expands the cases of a `switch` like `Case.expandCases`. -/
def Case.expandCasesObserved (site : ObservedSite) (aside : Aside) (plug : List Case → Block) :
    List Case → ObserveM (List Case)
  | [] => return []
  | ⟨value, body⟩ :: cases => do
    let body ← Block.expandObserved site aside (fun body => plug (⟨value, body⟩ :: cases)) body
    let cases ← Case.expandCasesObserved site aside (fun cases => plug (⟨value, body⟩ :: cases)) cases
    return ⟨value, body⟩ :: cases

/-- Expands a block like `Block.expand`. What was hoisted out of a statement has been put in front
of it when the next one is expanded. -/
def Block.expandObserved (site : ObservedSite) (aside : Aside) (plug : List Stmt → Block) :
    List Stmt → ObserveM (List Stmt)
  | [] => return []
  | stmt :: stmts => do
    let (hoisted, stmt) ← stmt.expandObserved site aside fun stmt => plug (stmt :: stmts)
    (site.publish (plug (hoisted ++ stmt :: stmts))).observed
    let stmts ← Block.expandObserved site aside (fun stmts => plug (hoisted ++ stmt :: stmts)) stmts
    return hoisted ++ stmt :: stmts

end

namespace InlineM

/-- Expands the body of a top-level block or function like `expandBodyDirectly`. -/
def expandBodyObserved (site : ObservedSite) (aside : Aside) (body : Block) : ObserveM Unit := do
  let _ ← Block.expandObserved site aside id body

/-- Has the body of a function expanded like `demandDirectlyWith`. -/
def demandObservedWith : (fuel : Nat) → Aside → String → ObserveM Unit
  | 0, _, name => do
    let _ ← (function name).observed
  | fuel + 1, aside, name => do
    let function ← (function name).observed
    let inliner := (← get).toInliner
    if inliner.isPending name then
      InlineM.observed <| set { inliner with pending := inliner.pending.erase name }
      expandBodyObserved ⟨⟨inliner.position name, name, demandDirectlyWith fuel⟩, demandObservedWith fuel⟩
        aside function.body

/-- Has the body of a function expanded like `demandDirectly`. -/
def demandObserved (aside : Aside) (name : String) : ObserveM Unit := do
  demandObservedWith (← get).pending.length aside name

/-- Visits the statement at a position of the root block like `visitTopLevelDirectly`. -/
def visitTopLevelObserved (stmt : Stmt) (position : Nat) : ObserveM Unit :=
  match stmt with
  | .block body => expandBodyObserved ⟨⟨position, "", demandDirectly⟩, demandObserved⟩ {} body
  | .define _ => return ()
  | stmt => throw (.invalidTopLevel stmt.kind)

/-- Expands a module like `expandModuleDirectly`. -/
def expandModuleObserved : ObserveM Unit := do
  (← get).module.zipIdx.forM fun (stmt, position) => visitTopLevelObserved stmt position
  (← get).pending.forM (demandObserved {})

end InlineM

/-! ## Observation makes no difference -/

namespace ObserveM

variable {α β : Type}

/-- What running an observed computation comes to, apart from what has been noted. -/
def forget (action : ObserveM α) (observed : Observed) : EStateM.Result InlineError Inliner α :=
  match action observed with
  | .ok a after => .ok a after.toInliner
  | .error error after => .error error after.toInliner

/-- The inliner and the notes after a computation, however it has ended. -/
def final (action : ObserveM α) (observed : Observed) : Observed :=
  match action observed with
  | .ok _ after => after
  | .error _ after => after

/-- Apart from what it notes, an observed computation does the same as another one. -/
def Mirrors (action : ObserveM α) (plain : InlineM α) : Prop :=
  ∀ observed, action.forget observed = plain observed.toInliner

theorem mirrors_observed (plain : InlineM α) : plain.observed.Mirrors plain := by
  intro observed
  rw [forget, InlineM.observed]
  cases plain observed.toInliner <;> rfl

theorem mirrors_pure (a : α) : (pure a : ObserveM α).Mirrors (pure a) :=
  fun _ => rfl

theorem mirrors_throw (error : InlineError) : (throw error : ObserveM α).Mirrors (throw error) :=
  fun _ => rfl

theorem Mirrors.bind {action : ObserveM α} {plain : InlineM α} {next : α → ObserveM β}
    {next' : α → InlineM β} (h : action.Mirrors plain) (hnext : ∀ a, (next a).Mirrors (next' a)) :
    (action >>= next).Mirrors (plain >>= next') := by
  intro observed
  have haction := h observed
  show (match EStateM.bind action next observed with
    | .ok b after => EStateM.Result.ok b after.toInliner
    | .error error after => .error error after.toInliner) =
    EStateM.bind plain next' observed.toInliner
  rw [forget] at haction
  rw [EStateM.bind, EStateM.bind, ← haction]
  cases action observed with
  | ok a after => exact hnext a after
  | error error after => rfl

/-- It makes no difference to look at the state. -/
theorem Mirrors.look {next : Observed → ObserveM β} {plain : InlineM β}
    (h : ∀ observed, (next observed).Mirrors plain) : (get >>= next).Mirrors plain :=
  fun observed => h observed observed

/-- A computation that depends on the state is given the same one. -/
theorem Mirrors.get_bind {next : Observed → ObserveM β} {next' : Inliner → InlineM β}
    (h : ∀ observed, (next observed).Mirrors (next' observed.toInliner)) :
    (get >>= next).Mirrors (get >>= next') :=
  fun observed => h observed observed

/-- It makes no difference to note something. -/
theorem Mirrors.note {note : Observed → List Instantiation} {next : ObserveM β} {plain : InlineM β}
    (h : next.Mirrors plain) :
    (modify (fun observed => { observed with instantiations := note observed }) >>=
      fun _ => next).Mirrors plain :=
  fun observed => h { observed with instantiations := note observed }

theorem Mirrors.forM {γ : Type} {action : γ → ObserveM Unit} {plain : γ → InlineM Unit}
    (h : ∀ c, (action c).Mirrors (plain c)) (cs : List γ) :
    (cs.forM action).Mirrors (cs.forM plain) := by
  induction cs with
  | nil => exact mirrors_pure ()
  | cons c cs ih => exact (h c).bind fun _ => ih

end ObserveM

open ObserveM

/-- Observing demands makes no difference to them. -/
def ObservedSite.Mirrors (site : ObservedSite) : Prop :=
  ∀ aside name, (site.demandObserved aside name).Mirrors (site.demand name)

theorem InlineM.expandCallObserved_mirrors (site : Site) (start : Inliner) (aside : Aside)
    (hoisted : List Stmt) (callee : FunctionDef) (result : TypedName) (args : List Expr) :
    (expandCallObserved site start aside hoisted callee result args).Mirrors
      (expandCall site callee result args) := by
  rw [expandCallObserved, expandCall]
  refine (mirrors_observed _).bind fun arguments => ?_
  refine (mirrors_observed _).bind fun name => ?_
  refine (mirrors_observed _).bind fun callee => Mirrors.note ?_
  refine (mirrors_observed _).bind fun body => ?_
  exact (mirrors_observed _).bind fun _ => mirrors_pure _

section Mirrors

variable {site : ObservedSite}

mutual

theorem Expr.expandObserved_mirrors (h : site.Mirrors) : ∀ (e : Expr) (aside : Aside),
    (e.expandObserved site aside).Mirrors (e.expand site.toSite)
  | .literal value, aside => by
    rw [Expr.expandObserved, Expr.expand]
    exact mirrors_pure _
  | .ident name, aside => by
    rw [Expr.expandObserved, Expr.expand]
    exact mirrors_pure _
  | .instr op args, aside => by
    rw [Expr.expandObserved, Expr.expand]
    exact (Expr.expandArgsObserved_mirrors h args aside _ _ _).bind fun _ => mirrors_pure _
  | .call name args, aside => by
    rw [Expr.expandObserved, Expr.expand]
    refine Mirrors.look fun start => ?_
    refine (h aside name).bind fun _ => ?_
    refine (mirrors_observed _).bind fun callee => ?_
    refine (mirrors_observed _).bind fun _ => ?_
    refine (Expr.expandArgsObserved_mirrors h args aside _ _ _).bind fun _ => ?_
    cases callee.result? site.caller with
    | none => exact mirrors_pure _
    | some result =>
      exact (InlineM.expandCallObserved_mirrors _ _ _ _ _ _ _).bind fun _ => mirrors_pure _

theorem Expr.expandArgsObserved_mirrors (h : site.Mirrors) :
    ∀ (args : List Expr) (aside : Aside) (hints types : List String) (toFront : Bool),
      (Expr.expandArgsObserved site aside hints types toFront args).Mirrors
        (Expr.expandArgs site.toSite hints types toFront args)
  | [], aside, hints, types, toFront => by
    rw [Expr.expandArgsObserved, Expr.expandArgs]
    exact mirrors_pure _
  | arg :: args, aside, hints, types, toFront => by
    rw [Expr.expandArgsObserved, Expr.expandArgs]
    refine (Expr.expandObserved_mirrors h arg aside).bind fun _ => ?_
    refine (mirrors_observed _).bind fun _ => ?_
    exact (Expr.expandArgsObserved_mirrors h args _ _ _ _).bind fun _ => mirrors_pure _

end

mutual

theorem Stmt.expandObserved_mirrors (h : site.Mirrors) :
    ∀ (stmt : Stmt) (aside : Aside) (plug : Stmt → Block),
      (stmt.expandObserved site aside plug).Mirrors (stmt.expand site.toSite plug)
  | .expr value, aside, plug => by
    rw [Stmt.expandObserved, Stmt.expand]
    refine (Expr.expandObserved_mirrors h value aside).bind fun _ => ?_
    exact (mirrors_observed _).bind fun _ => mirrors_pure _
  | .assign targets value, aside, plug => by
    rw [Stmt.expandObserved, Stmt.expand]
    refine (Expr.expandObserved_mirrors h value aside).bind fun _ => ?_
    exact (mirrors_observed _).bind fun _ => mirrors_pure _
  | .declare vars none, aside, plug => by
    rw [Stmt.expandObserved, Stmt.expand]
    exact mirrors_pure _
  | .declare vars (some value), aside, plug => by
    rw [Stmt.expandObserved, Stmt.expand]
    refine (Expr.expandObserved_mirrors h value aside).bind fun _ => ?_
    exact (mirrors_observed _).bind fun _ => mirrors_pure _
  | .define function, aside, plug => by
    rw [Stmt.expandObserved, Stmt.expand]
    exact mirrors_throw _
  | .branch condition body, aside, plug => by
    rw [Stmt.expandObserved, Stmt.expand]
    refine (Expr.expandObserved_mirrors h condition aside).bind fun _ => ?_
    refine (mirrors_observed _).bind fun _ => ?_
    exact (Block.expandObserved_mirrors h body _ _).bind fun _ => mirrors_pure _
  | .switch scrutinee cases, aside, plug => by
    rw [Stmt.expandObserved, Stmt.expand]
    refine (Expr.expandObserved_mirrors h scrutinee aside).bind fun _ => ?_
    refine (mirrors_observed _).bind fun _ => ?_
    exact (Case.expandCasesObserved_mirrors h cases _ _).bind fun _ => mirrors_pure _
  | .loop init condition step body, aside, plug => by
    rw [Stmt.expandObserved, Stmt.expand]
    refine (Block.expandObserved_mirrors h init _ _).bind fun _ => ?_
    refine (Block.expandObserved_mirrors h step _ _).bind fun _ => ?_
    exact (Block.expandObserved_mirrors h body _ _).bind fun _ => mirrors_pure _
  | .block body, aside, plug => by
    rw [Stmt.expandObserved, Stmt.expand]
    exact (Block.expandObserved_mirrors h body _ _).bind fun _ => mirrors_pure _

theorem Case.expandCasesObserved_mirrors (h : site.Mirrors) :
    ∀ (cases : List Case) (aside : Aside) (plug : List Case → Block),
      (Case.expandCasesObserved site aside plug cases).Mirrors
        (Case.expandCases site.toSite plug cases)
  | [], aside, plug => by
    rw [Case.expandCasesObserved, Case.expandCases]
    exact mirrors_pure _
  | ⟨value, body⟩ :: cases, aside, plug => by
    rw [Case.expandCasesObserved, Case.expandCases]
    refine (Block.expandObserved_mirrors h body _ _).bind fun _ => ?_
    exact (Case.expandCasesObserved_mirrors h cases _ _).bind fun _ => mirrors_pure _

theorem Block.expandObserved_mirrors (h : site.Mirrors) :
    ∀ (block : Block) (aside : Aside) (plug : Block → Block),
      (Block.expandObserved site aside plug block).Mirrors (Block.expand site.toSite plug block)
  | [], aside, plug => by
    rw [Block.expandObserved, Block.expand]
    exact mirrors_pure _
  | stmt :: stmts, aside, plug => by
    rw [Block.expandObserved, Block.expand]
    refine (Stmt.expandObserved_mirrors h stmt _ _).bind fun _ => ?_
    refine (mirrors_observed _).bind fun _ => ?_
    exact (Block.expandObserved_mirrors h stmts _ _).bind fun _ => mirrors_pure _

end

end Mirrors

namespace InlineM

theorem expandBodyObserved_mirrors (site : ObservedSite) (h : site.Mirrors) (aside : Aside)
    (body : Block) :
    (expandBodyObserved site aside body).Mirrors (expandBodyDirectly site.toSite body) := by
  rw [expandBodyObserved, expandBodyDirectly]
  exact (Block.expandObserved_mirrors h body aside id).bind fun _ => mirrors_pure _

theorem demandObservedWith_mirrors (fuel : Nat) : ∀ (aside : Aside) (name : String),
    (demandObservedWith fuel aside name).Mirrors (demandDirectlyWith fuel name) := by
  induction fuel with
  | zero =>
    intro aside name
    rw [demandObservedWith, demandDirectlyWith]
    exact (mirrors_observed _).bind fun _ => mirrors_pure _
  | succ fuel ih =>
    intro aside name
    rw [demandObservedWith, demandDirectlyWith]
    refine (mirrors_observed _).bind fun function => Mirrors.get_bind fun observed => ?_
    show ObserveM.Mirrors (ite (observed.toInliner.isPending name = true) _ _) (ite _ _ _)
    split
    · refine (mirrors_observed _).bind fun _ => ?_
      exact expandBodyObserved_mirrors ⟨⟨_, _, demandDirectlyWith fuel⟩, demandObservedWith fuel⟩ ih
        aside function.body
    · exact mirrors_pure _

theorem demandObserved_mirrors (aside : Aside) (name : String) :
    (demandObserved aside name).Mirrors (demandDirectly name) :=
  Mirrors.get_bind fun observed => demandObservedWith_mirrors observed.pending.length aside name

theorem visitTopLevelObserved_mirrors (stmt : Stmt) (position : Nat) :
    (visitTopLevelObserved stmt position).Mirrors (visitTopLevelDirectly stmt position) := by
  cases stmt with
  | block body =>
    exact expandBodyObserved_mirrors ⟨⟨_, _, demandDirectly⟩, demandObserved⟩ demandObserved_mirrors {}
      body
  | define function => exact mirrors_pure _
  | _ => exact mirrors_throw _

/-- Observing a run makes no difference to it. -/
theorem expandModuleObserved_mirrors : expandModuleObserved.Mirrors expandModuleDirectly := by
  refine Mirrors.get_bind fun observed => ?_
  refine (Mirrors.forM (fun entry : Stmt × Nat => ?_) _).bind fun _ => ?_
  · exact visitTopLevelObserved_mirrors entry.1 entry.2
  · exact Mirrors.get_bind fun after => Mirrors.forM (demandObserved_mirrors {}) after.pending

end InlineM

end YulInline
