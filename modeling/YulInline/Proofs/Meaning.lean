import YulInline.Proofs.Semantics

/-!
# Calls without bounds

The engines of a module with a bound on calls and loops tend to one without (`Block.engine`): its
calls have the outcomes that they have within some bound, since everything a statement does comes
from its engine step by step (`Engine.Tends`). The calls of a module are the least that answer by
running the function called (`Block.call_eq`, `Block.call_le`). So two modules whose functions do
the same, whichever of the two modules answers their calls, have the same meaning.
-/

namespace YulInline

variable {State Value : Type}

/-- The calls and loops of engines tend to those of another one. -/
structure Engine.Tends (engines : Nat → Engine State Value) (limit : Engine State Value) : Prop where
  call : ∀ name arguments,
    Comp.Tends (fun n => (engines n).call name arguments) (limit.call name arguments)
  loop : ∀ {step : Nat → Env Value → Comp State (ForInStep (Env Value))} {last},
    (∀ env, Comp.Tends (fun n => step n env) (last env)) →
    ∀ env, Comp.Tends (fun n => (engines n).loop (step n) env) (limit.loop last env)

variable {machine : Machine State Value} {engines : Nat → Engine State Value}
  {limit : Engine State Value}

/-! ## Engines that tend to others -/

/-- The loops of an engine may be given steps that have more and more outcomes. -/
def Engine.Continuous (engine : Engine State Value) : Prop :=
  ∀ {step : Nat → Env Value → Comp State (ForInStep (Env Value))} {last},
    (∀ env, Comp.Tends (fun n => step n env) (last env)) →
    ∀ env, Comp.Tends (fun n => engine.loop (step n) env) (engine.loop last env)

/-- An engine has the outcomes that another one has. -/
structure Engine.Le (engine engine' : Engine State Value) : Prop where
  call : ∀ name arguments state outcome, engine.call name arguments state = some outcome →
    engine'.call name arguments state = some outcome
  loop : ∀ {step step' : Env Value → Comp State (ForInStep (Env Value))},
    (∀ env state outcome, step env state = some outcome → step' env state = some outcome) →
    ∀ env state outcome, engine.loop step env state = some outcome →
      engine'.loop step' env state = some outcome

/-- A sequence of two engines, the second of which goes on for ever, tends to the second. -/
theorem Engine.Le.tends {engine engine' : Engine State Value} (h : engine.Le engine')
    (hcontinuous : engine'.Continuous) :
    Engine.Tends (fun | 0 => engine | _ + 1 => engine') engine' := by
  constructor
  · intro name arguments
    exact .shift (h.call name arguments) (.const (engine'.call name arguments))
  · intro step last hstep env
    refine .shift (h.loop (fun env => (hstep env).ascends 0) env) ?_
    exact hcontinuous (fun env => (hstep env).tail) env

/-- The engine whose loops are not bounded, and whose calls are given. -/
noncomputable def Engine.ofCalls (call : String → List Value → Comp State (List Value)) :
    Engine State Value where
  call
  loop := Comp.loop

theorem Engine.continuous_ofCalls (call : String → List Value → Comp State (List Value)) :
    (Engine.ofCalls call).Continuous :=
  fun h env => .unbounded h env

/-! ## What is done with an engine -/

theorem Comp.Tends.within {run : Nat → Env Value → Comp State (Env Value)}
    {last : Env Value → Comp State (Env Value)}
    (h : ∀ env, Comp.Tends (fun n => run n env) (last env)) (env : Env Value) :
    Comp.Tends (fun n => env.within (run n)) (env.within last) :=
  (h env).bind fun _ => .const _

mutual

theorem Expr.tends_eval (h : Engine.Tends engines limit) : ∀ (e : Expr) (env : Env Value),
    Comp.Tends (fun n => e.eval machine (engines n) env) (e.eval machine limit env)
  | .literal value, env => .const _
  | .ident name, env => .const _
  | .instr op args, env => by
    simp only [Expr.eval]
    exact (Expr.tends_evalArgs h args env).bind fun _ => .const _
  | .call callee args, env => by
    simp only [Expr.eval]
    exact (Expr.tends_evalArgs h args env).bind fun arguments => h.call callee arguments

theorem Expr.tends_evalArgs (h : Engine.Tends engines limit) : ∀ (args : List Expr) (env : Env Value),
    Comp.Tends (fun n => Expr.evalArgs machine (engines n) args env)
      (Expr.evalArgs machine limit args env)
  | [], env => .const _
  | arg :: args, env => by
    simp only [Expr.evalArgs]
    refine (Expr.tends_evalArgs h args env).bind fun values => ?_
    exact (Expr.tends_eval h arg env).bind fun _ => .const _

end

theorem Expr.tends_evalOne (h : Engine.Tends engines limit) (e : Expr) (env : Env Value) :
    Comp.Tends (fun n => e.evalOne machine (engines n) env) (e.evalOne machine limit env) :=
  (Expr.tends_eval h e env).bind fun _ => .const _

variable [DecidableEq Value]

mutual

theorem Stmt.tends_exec (h : Engine.Tends engines limit) : ∀ (stmt : Stmt) (env : Env Value),
    Comp.Tends (fun n => stmt.exec machine (engines n) env) (stmt.exec machine limit env)
  | .expr value, env => by
    simp only [Stmt.exec]
    exact (Expr.tends_eval h value env).bind fun _ => .const _
  | .assign targets value, env => by
    simp only [Stmt.exec]
    exact (Expr.tends_eval h value env).bind fun _ => .const _
  | .declare vars none, env => .const _
  | .declare vars (some value), env => by
    simp only [Stmt.exec]
    exact (Expr.tends_eval h value env).bind fun _ => .const _
  | .define function, env => .const _
  | .branch condition body, env => by
    simp only [Stmt.exec]
    refine (Expr.tends_evalOne h condition env).bind fun value => ?_
    exact .ite (.within (Block.tends_exec h body) env) (.const _)
  | .switch scrutinee cases, env => by
    simp only [Stmt.exec]
    refine (Expr.tends_evalOne h scrutinee env).bind fun value => ?_
    exact Case.tends_exec h cases value (.const _) env
  | .loop init condition step body, env => by
    simp only [Stmt.exec]
    refine .within (fun env => ?_) env
    refine (Block.tends_exec h init env).bind fun env => h.loop (fun env => ?_) env
    refine (Expr.tends_evalOne h condition env).bind fun value => .ite ?_ (.const _)
    refine (Comp.Tends.within (Block.tends_exec h body) env).bind fun env => ?_
    exact (Comp.Tends.within (Block.tends_exec h step) env).bind fun _ => .const _
  | .block body, env => by
    simp only [Stmt.exec]
    exact .within (Block.tends_exec h body) env

theorem Case.tends_exec (h : Engine.Tends engines limit) : ∀ (cases : List Case) (value : Value)
    {otherwise : Nat → Comp State (Env Value)} {last : Comp State (Env Value)},
    Comp.Tends otherwise last → ∀ env,
    Comp.Tends (fun n => Case.exec machine (engines n) cases value (otherwise n) env)
      (Case.exec machine limit cases value last env)
  | [], value, _, _, hotherwise, env => hotherwise
  | ⟨none, body⟩ :: cases, value, _, _, hotherwise, env => by
    simp only [Case.exec]
    exact Case.tends_exec h cases value (.within (Block.tends_exec h body) env) env
  | ⟨some literal, body⟩ :: cases, value, _, _, hotherwise, env => by
    simp only [Case.exec]
    exact .ite (.within (Block.tends_exec h body) env) (Case.tends_exec h cases value hotherwise env)

theorem Block.tends_exec (h : Engine.Tends engines limit) : ∀ (block : Block) (env : Env Value),
    Comp.Tends (fun n => Block.exec machine (engines n) block env)
      (Block.exec machine limit block env)
  | [], env => .const _
  | stmt :: stmts, env => by
    simp only [Block.exec]
    exact (Stmt.tends_exec h stmt env).bind fun env => Block.tends_exec h stmts env

end

theorem FunctionDef.tends_run (h : Engine.Tends engines limit) (function : FunctionDef)
    (arguments : List Value) :
    Comp.Tends (fun n => function.run machine (engines n) arguments)
      (function.run machine limit arguments) := by
  simp only [FunctionDef.run]
  refine (Comp.Tends.const _).bind fun env => ?_
  exact (Block.tends_exec h function.body env).bind fun _ => .const _

theorem Block.tends_run (h : Engine.Tends engines limit) (body : Block) :
    Comp.Tends (fun n => body.run machine (engines n)) (body.run machine limit) := by
  simp only [Block.run]
  exact (Block.tends_exec h body Env.empty).bind fun _ => .const _

/-- A function has the outcomes that it has with an engine that has fewer of them. -/
theorem FunctionDef.run_le {engine engine' : Engine State Value} (h : engine.Le engine')
    (hcontinuous : engine'.Continuous) {function : FunctionDef} {arguments : List Value}
    {state : State} {outcome : Outcome State (List Value)}
    (hrun : function.run machine engine arguments state = some outcome) :
    function.run machine engine' arguments state = some outcome :=
  (FunctionDef.tends_run (h.tends hcontinuous) function arguments).le 0 hrun

/-! ## The engine of a module -/

section Modules

variable (machine) (module : Block)

/-- What a call of a function of the module does. -/
noncomputable def Block.call (name : String) (arguments : List Value) : Comp State (List Value) :=
  Comp.limit fun bound => module.callWithin machine bound name arguments

/-- The engine of a module. -/
noncomputable def Block.engine : Engine State Value :=
  .ofCalls (module.call machine)

/-- What a call of a function of the module does if functions are run with a given engine. -/
def Block.answer (engine : Engine State Value) (name : String) (arguments : List Value) :
    Comp State (List Value) :=
  match module.function? name with
  | some function => function.run machine engine arguments
  | none => .undefined

variable {machine module}

theorem Block.callWithin_succ (bound : Nat) :
    module.callWithin machine (bound + 1) = module.answer machine (module.engineWithin machine bound) :=
  rfl

theorem Block.continuous_engineWithin (bound : Nat) :
    (module.engineWithin machine bound).Continuous :=
  fun h env => .repeatWith h bound env

theorem Block.answer_le {engine engine' : Engine State Value} (h : engine.Le engine')
    (hcontinuous : engine'.Continuous) {name : String} {arguments : List Value} {state : State}
    {outcome : Outcome State (List Value)}
    (hanswer : module.answer machine engine name arguments state = some outcome) :
    module.answer machine engine' name arguments state = some outcome := by
  rw [answer] at hanswer ⊢
  cases hfunction : module.function? name with
  | none =>
    rw [hfunction] at hanswer
    exact hanswer
  | some function =>
    rw [hfunction] at hanswer
    exact FunctionDef.run_le h hcontinuous hanswer

/-- A larger bound leaves room for more outcomes. -/
theorem Block.engineWithin_le (bound : Nat) :
    (module.engineWithin machine bound).Le (module.engineWithin machine (bound + 1)) := by
  induction bound with
  | zero =>
    refine ⟨fun name arguments state outcome heq => ?_, fun hstep env state outcome => ?_⟩
    · cases heq
    · exact Comp.repeatWith_mono hstep (Nat.le_succ 0)
  | succ bound ih =>
    refine ⟨fun name arguments state outcome heq => ?_, fun hstep env state outcome => ?_⟩
    · rw [engineWithin, callWithin_succ] at heq ⊢
      exact Block.answer_le ih (Block.continuous_engineWithin _) heq
    · exact Comp.repeatWith_mono hstep (Nat.le_succ _)

theorem Block.tends_call (name : String) (arguments : List Value) :
    Comp.Tends (fun bound => module.callWithin machine bound name arguments)
      (module.call machine name arguments) :=
  Comp.tends_limit fun bound => (module.engineWithin_le bound).call name arguments

theorem Block.tends_engineWithin :
    Engine.Tends (module.engineWithin machine) (module.engine machine) :=
  ⟨module.tends_call, fun h env => .loop h env⟩

theorem Block.callEnds_iff {name : String} {arguments : List Value} {state : State}
    {outcome : Outcome State (List Value)} :
    module.CallEnds machine name arguments state outcome ↔
      module.call machine name arguments state = some outcome :=
  ((module.tends_call name arguments).limit state outcome).symm

theorem Block.runEnds_iff {body : Block} {state : State} {outcome : Outcome State Unit} :
    module.RunEnds machine body state outcome ↔
      body.run machine (module.engine machine) state = some outcome :=
  ((Block.tends_run module.tends_engineWithin body).limit state outcome).symm

/-- A call does what running the function does. -/
theorem Block.call_eq : module.call machine = module.answer machine (module.engine machine) := by
  funext name arguments
  refine (module.tends_call name arguments).tail.unique ?_
  simp only [callWithin_succ, answer]
  cases module.function? name with
  | none => exact .const _
  | some function => exact FunctionDef.tends_run module.tends_engineWithin function arguments

/-- The calls of a module have no more outcomes than any that do what running the functions does. -/
theorem Block.call_le {call : String → List Value → Comp State (List Value)}
    (h : call = module.answer machine (.ofCalls call)) {name : String} {arguments : List Value}
    {state : State} {outcome : Outcome State (List Value)}
    (hcall : module.call machine name arguments state = some outcome) :
    call name arguments state = some outcome := by
  have hle : ∀ bound, (module.engineWithin machine bound).Le (.ofCalls call) := by
    intro bound
    induction bound with
    | zero =>
      refine ⟨fun name arguments state outcome heq => ?_, fun hstep env state outcome => ?_⟩
      · cases heq
      · exact Comp.repeatWith_le_loop hstep
    | succ bound ih =>
      refine ⟨fun name arguments state outcome heq => ?_, fun hstep env state outcome => ?_⟩
      · rw [engineWithin, callWithin_succ] at heq
        show call name arguments state = some outcome
        rw [h]
        exact Block.answer_le ih (Engine.continuous_ofCalls call) heq
      · exact Comp.repeatWith_le_loop hstep
  obtain ⟨bound, hbound⟩ := ((module.tends_call name arguments).limit state outcome).mp hcall
  exact (hle bound).call name arguments state outcome hbound

/-- Two modules each of which answers calls as the functions of the other do have the same calls. -/
theorem Block.call_congr {other : Block}
    (h : other.call machine = module.answer machine (other.engine machine))
    (h' : module.call machine = other.answer machine (module.engine machine)) :
    other.call machine = module.call machine := by
  funext name arguments state
  refine Option.ext fun outcome => ?_
  exact ⟨other.call_le h', module.call_le h⟩

end Modules

end YulInline
