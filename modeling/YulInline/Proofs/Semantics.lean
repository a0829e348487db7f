import YulInline.Proofs.Computations
import YulInline.Proofs.Scope

/-!
# The meaning of a module

What a module does depends on a `Machine`, which says what literals and instructions mean. An
expression gives a list of values, since a function may have any number of return variables;
arguments are evaluated from right to left. A statement turns the variables in scope, with their
values, into others. At the end of a block the variables that it declared go out of scope.

The meaning of a statement is defined by recursion on it. What is not a part of it is left to an
`Engine`: the calls of functions, and the repetition of the steps of a loop. `Block.callWithin` is
the engine's answer to a call with a bound on how deep calls are nested and how often loops are
repeated, and a call has the outcome that it has within some bound (`Block.CallEnds`).
-/

namespace YulInline

/-! ## Variables -/

/-- The variables in scope, with their values. -/
abbrev Env (Value : Type) : Type :=
  String → Option Value

namespace Env

variable {Value : Type}

/-- No variable is in scope. -/
def empty : Env Value :=
  fun _ => none

/-- A variable gets a value. -/
def set (env : Env Value) (name : String) (value : Value) : Env Value :=
  fun other => if other = name then some value else env other

/-- Variables get values, of which there have to be as many. -/
def set? (env : Env Value) : List String → List Value → Option (Env Value)
  | [], [] => some env
  | name :: names, value :: values => (env.set name value).set? names values
  | _, _ => none

/-- Variables that have to be in scope get values. -/
def assign? (env : Env Value) (targets : List String) (values : List Value) : Option (Env Value) :=
  if targets.all fun name => (env name).isSome then env.set? targets values else none

/-- The values of variables, which have to be in scope. -/
def read? (env : Env Value) : List String → Option (List Value)
  | [] => some []
  | name :: names => (env name).bind fun value => (env.read? names).map (value :: ·)

/-- What is in scope behind a block: the variables that were in front of it. -/
def leave (outer inner : Env Value) : Env Value :=
  fun name => (outer name).bind fun _ => inner name

theorem set_self (env : Env Value) (name : String) (value : Value) :
    env.set name value name = some value :=
  if_pos rfl

theorem set_of_ne (env : Env Value) {name other : String} (value : Value) (h : other ≠ name) :
    env.set name value other = env other :=
  if_neg h

theorem leave_of_some {outer : Env Value} (inner : Env Value) {name : String} {value : Value}
    (h : outer name = some value) : outer.leave inner name = inner name := by
  rw [leave, h]
  rfl

end Env

/-! ## Machines -/

/-- What literals and instructions mean. -/
structure Machine (State Value : Type) where
  /-- The value of a variable that is declared without one. -/
  zero : Value
  /-- The value of a literal. -/
  literal : Literal → Value
  /-- Whether a value makes a condition hold. -/
  isTrue : Value → Bool
  /-- What an instruction does with its operands. -/
  instr : String → List Value → State → Outcome State (List Value)

/-- What the meaning of a statement depends on besides the machine. -/
structure Engine (State Value : Type) where
  /-- What a call of a function does with its arguments. -/
  call : String → List Value → Comp State (List Value)
  /-- How the steps of a loop are repeated. -/
  loop : (Env Value → Comp State (ForInStep (Env Value))) → Env Value → Comp State (Env Value)

variable {State Value : Type}

/-- An instruction as a computation. -/
def Machine.apply (machine : Machine State Value) (op : String) (operands : List Value) :
    Comp State (List Value) :=
  fun state => some (machine.instr op operands state)

/-- A list of one value as that value. -/
def Comp.single : List Value → Comp State Value
  | [value] => pure value
  | _ => undefined

/-- What a block does, given what its statements do: the variables that they declare go out of
scope. -/
def Env.within (env : Env Value) (run : Env Value → Comp State (Env Value)) :
    Comp State (Env Value) := do
  return env.leave (← run env)

/-! ## Expressions and statements -/

section Meaning

variable [DecidableEq Value] (machine : Machine State Value) (engine : Engine State Value)

mutual

/-- The values of an expression. -/
def Expr.eval : Expr → Env Value → Comp State (List Value)
  | .literal value, _ => return [machine.literal value]
  | .ident name, env => do
    let value ← Comp.ofOption (env name)
    return [value]
  | .instr op args, env => do
    let operands ← Expr.evalArgs args env
    machine.apply op operands
  | .call callee args, env => do
    let arguments ← Expr.evalArgs args env
    engine.call callee arguments

/-- The values of arguments, each of which has one; the last argument comes first. -/
def Expr.evalArgs : List Expr → Env Value → Comp State (List Value)
  | [], _ => return []
  | arg :: args, env => do
    let values ← Expr.evalArgs args env
    let value ← Comp.single (← arg.eval env)
    return value :: values

end

/-- The one value of an expression. -/
def Expr.evalOne (value : Expr) (env : Env Value) : Comp State Value := do
  Comp.single (← value.eval machine engine env)

/-- A step of a loop: the condition is evaluated, and the blocks are run if it holds. -/
def Comp.loopStep (condition : Env Value → Comp State Value)
    (body step : Env Value → Comp State (Env Value)) (env : Env Value) :
    Comp State (ForInStep (Env Value)) := do
  let value ← condition env
  if machine.isTrue value then
    let env ← env.within body
    let env ← env.within step
    return .yield env
  else return .done env

mutual

/-- What a statement does to the variables. -/
def Stmt.exec : Stmt → Env Value → Comp State (Env Value)
  | .expr value, env => do
    let _ ← value.eval machine engine env
    return env
  | .assign targets value, env => do
    let values ← value.eval machine engine env
    Comp.ofOption (env.assign? targets values)
  | .declare vars none, env =>
    Comp.ofOption (env.set? (vars.map (·.name)) (vars.map fun _ => machine.zero))
  | .declare vars (some value), env => do
    let values ← value.eval machine engine env
    Comp.ofOption (env.set? (vars.map (·.name)) values)
  | .define _, env => return env
  | .branch condition body, env => do
    let value ← condition.evalOne machine engine env
    if machine.isTrue value then env.within (Block.exec body) else return env
  | .switch scrutinee cases, env => do
    let value ← scrutinee.evalOne machine engine env
    Case.exec cases value (pure env) env
  | .loop init condition step body, env =>
    env.within fun env => do
      let env ← Block.exec init env
      engine.loop (Comp.loopStep machine (condition.evalOne machine engine) (Block.exec body)
        (Block.exec step)) env
  | .block body, env => env.within (Block.exec body)

/-- Runs the first case whose literal has a value, and the default case if there is none; if there
is no default case either, this is what happens `otherwise`. -/
def Case.exec : List Case → Value → (otherwise : Comp State (Env Value)) → Env Value →
    Comp State (Env Value)
  | [], _, otherwise, _ => otherwise
  | ⟨none, body⟩ :: cases, value, _, env => Case.exec cases value (env.within (Block.exec body)) env
  | ⟨some literal, body⟩ :: cases, value, otherwise, env =>
    if machine.literal literal = value then env.within (Block.exec body)
    else Case.exec cases value otherwise env

/-- What the statements of a block do, one after the other. -/
def Block.exec : List Stmt → Env Value → Comp State (Env Value)
  | [], env => return env
  | stmt :: stmts, env => do
    let env ← stmt.exec env
    Block.exec stmts env

end

/-- What a function does with its arguments: its return variables start at zero, and their values
in the end are those of the call. -/
def FunctionDef.run (function : FunctionDef) (arguments : List Value) :
    Comp State (List Value) := do
  let env ← Comp.ofOption
    (Env.empty.set? function.interface (arguments ++ function.returns.map fun _ => machine.zero))
  let env ← Block.exec machine engine function.body env
  Comp.ofOption (env.read? (function.returns.map (·.name)))

/-- What a top-level block does. -/
def Block.run (body : Block) : Comp State Unit := do
  let _ ← Block.exec machine engine body Env.empty
  return ()

end Meaning

/-! ## Modules -/

/-- The function of a given name. -/
def Block.function? (module : Block) (name : String) : Option FunctionDef :=
  (Block.functions module).find? fun function => function.name = name

section Modules

variable [DecidableEq Value] (machine : Machine State Value) (module : Block)

/-- What a call of a function of the module does, as far as it nests calls less than `bound` deep
and repeats no loop more than `bound` times. -/
def Block.callWithin : (bound : Nat) → String → List Value → Comp State (List Value)
  | 0, _, _ => .undefined
  | bound + 1, name, arguments =>
    match module.function? name with
    | some function =>
      function.run machine ⟨Block.callWithin bound, fun step => .repeatWith step bound⟩ arguments
    | none => .undefined

/-- The engine of a module, with a bound on calls and loops. -/
def Block.engineWithin (bound : Nat) : Engine State Value where
  call := module.callWithin machine bound
  loop := fun step => .repeatWith step bound

/-- A call of a function of the module, started in a state, has an outcome. -/
def Block.CallEnds (name : String) (arguments : List Value) (state : State)
    (outcome : Outcome State (List Value)) : Prop :=
  ∃ bound, module.callWithin machine bound name arguments state = some outcome

/-- A top-level block of the module, started in a state, has an outcome. -/
def Block.RunEnds (body : Block) (state : State) (outcome : Outcome State Unit) : Prop :=
  ∃ bound, body.run machine (module.engineWithin machine bound) state = some outcome

end Modules

end YulInline
