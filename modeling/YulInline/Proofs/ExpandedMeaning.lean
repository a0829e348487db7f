import YulInline.Proofs.RenamedMeaning
import YulInline.Proofs.ScopedExpansion

/-!
# The meaning of expanded bodies

A body and its expansion do the same, given that calls of the functions that were copied do what the
copied bodies do (`FunctionDef.Called`). What is hoisted out of an expression does what the
arguments and calls in it did, in the same order, and leaves their values in variables that were
given out for them; what remains of the expression finds them there. Two things are said of it.
After the hoisted statements, what remains gives the values of the expression (`Comp.Followed`); and
if all that remains are variables, they hold these values already (`Comp.Held`), so that what is
evaluated in between does not matter.
-/

namespace YulInline

variable {State Value : Type} {module : Block} {caller : String} {taken vars : List String}
  {machine : Machine State Value} {call : String → List Value → Comp State (List Value)}
  {env env' : Env Value}

/-! ## Variables that hold values -/

/-- All variables but those of the given names have kept their values. -/
def Env.Changed (names : List String) (before after : Env Value) : Prop :=
  ∀ name, name ∉ names → after name = before name

theorem Env.Changed.trans {names names' : List String} {between after : Env Value}
    (h : env.Changed names between) (h' : between.Changed names' after) :
    env.Changed (names ++ names') after := by
  intro name hname
  rw [List.mem_append, not_or] at hname
  rw [h' name hname.2, h name hname.1]

theorem Env.Changed.mono {names names' : List String} (h : env.Changed names env')
    (hsub : names ⊆ names') : env.Changed names' env' :=
  fun name hname => h name fun hmem => hname (hsub hmem)

/-- Variables that have not changed agree still. -/
theorem Env.Agree.changed {names : List String} {after : Env Value} (h : env.Agree id vars env')
    (hchanged : env'.Changed names after) (hnew : ∀ name ∈ names, name ∉ vars) :
    env.Agree id vars after := by
  intro name hname
  obtain ⟨value, hvalue, hvalue'⟩ := h name hname
  refine ⟨value, hvalue, ?_⟩
  rw [id, hchanged name fun hmem => hnew name hmem hname]
  exact hvalue'

theorem Env.Changed.map {names : List String} (h : env.Changed names env') {others : List String}
    (hothers : ∀ name ∈ others, name ∉ names) : others.map env' = others.map env :=
  List.map_congr_left fun name hname => h name (hothers name hname)

/-- New variables, as many as there are values, hold these values once they are set. -/
theorem Env.set?_eq_some {names : List String} {values : List Value} (hnodup : names.Nodup)
    (hlen : names.length = values.length) : ∃ after, env.set? names values = some after ∧
      names.map after = values.map some ∧ env.Changed names after := by
  induction names generalizing env values with
  | nil =>
    cases values with
    | nil => exact ⟨env, rfl, rfl, fun _ _ => rfl⟩
    | cons value values => simp at hlen
  | cons name names ih =>
    cases values with
    | nil => simp at hlen
    | cons value values =>
      obtain ⟨hname, hnodup⟩ := List.nodup_cons.mp hnodup
      obtain ⟨after, hset, hvalues, hchanged⟩ :=
        @ih (env.set name value) values hnodup (by simpa using hlen)
      refine ⟨after, hset, ?_, fun other hother => ?_⟩
      · rw [List.map_cons, List.map_cons, hvalues, hchanged name hname, Env.set_self]
      · rw [List.mem_cons, not_or] at hother
        rw [hchanged other hother.2, Env.set_of_ne _ _ hother.1]

theorem Env.Changed.leave {names : List String} {after : Env Value} (h : env.Changed names after) :
    env.Changed names (env.leave after) := by
  intro name hname
  rw [Env.leave, h name hname]
  cases env name <;> rfl

/-- Variables that have been set have values. -/
theorem Env.exists_of_set? {names : List String} {values : List Value} {after : Env Value}
    (h : env.set? names values = some after) {name : String} (hname : name ∈ names) :
    ∃ value, after name = some value := by
  induction names generalizing env values with
  | nil => cases hname
  | cons other names ih =>
    cases values with
    | nil => cases h
    | cons value values =>
      by_cases hmem : name ∈ names
      · exact ih h hmem
      · obtain rfl := (List.mem_cons.mp hname).resolve_right hmem
        exact ⟨value, by rw [Env.set?_of_not_mem hmem h, Env.set_self]⟩

/-- What remains of an expression that is held by a variable. -/
theorem Expr.eval_ident {engine : Engine State Value} {name : String} {values : List Value}
    (h : [name].map env = values.map some) :
    (Expr.ident name).eval machine engine env = pure values := by
  cases values with
  | nil => cases h
  | cons value more =>
    rw [List.map_singleton, List.map_cons, List.cons.injEq] at h
    obtain rfl : more = [] := List.map_eq_nil_iff.mp h.2.symm
    rw [Expr.eval, h.1]
    rfl

/-- What remains of arguments that are all held by variables. -/
theorem Expr.evalArgs_idents {engine : Engine State Value} {arguments : List String}
    {values : List Value} (h : arguments.map env = values.map some) :
    Expr.evalArgs machine engine (arguments.map .ident) env = pure values := by
  induction arguments generalizing values with
  | nil =>
    cases values with
    | nil => rfl
    | cons value values => cases h
  | cons name arguments ih =>
    cases values with
    | nil => cases h
    | cons value values =>
      rw [List.map_cons, List.map_cons, List.cons.injEq] at h
      rw [List.map_cons, Expr.evalArgs, ih h.2, Expr.eval, h.1]
      rfl

theorem Expr.evalArgs_cons (engine : Engine State Value) (arg : Expr) (args : List Expr)
    (env : Env Value) : Expr.evalArgs machine engine (arg :: args) env =
      Expr.evalArgs machine engine args env >>= fun values =>
        arg.evalOne machine engine env >>= fun value => pure (value :: values) := by
  simp only [Expr.evalArgs, Expr.evalOne, bind_assoc]

theorem Embeds.refl (vars : List String) : Embeds id vars vars :=
  ⟨fun _ => id, fun _ _ _ _ => id⟩

theorem rebind_self (names : List String) : rebind id names names = id := by
  induction names with
  | nil => rfl
  | cons name names ih =>
    have hupdate : Function.update id name name = id := Function.update_eq_self name id
    rw [rebind, hupdate, ih]

mutual

theorem Expr.rename_id : ∀ e : Expr, e.rename id = e
  | .literal value => rfl
  | .ident name => rfl
  | .instr op args => by rw [Expr.rename, Expr.renameAll_eq_map, Expr.map_rename_id args]
  | .call callee args => by rw [Expr.rename, Expr.renameAll_eq_map, Expr.map_rename_id args]

theorem Expr.map_rename_id : ∀ args : List Expr, args.map (Expr.rename id) = args
  | [] => rfl
  | arg :: args => by rw [List.map_cons, Expr.rename_id arg, Expr.map_rename_id args]

end

/-- The value of an expression depends on the variables in it only. -/
theorem Expr.evalOne_congr {engine : Engine State Value} {e : Expr} (h : env.Agree id vars env')
    (hvars : e.vars ⊆ vars) : e.evalOne machine engine env = e.evalOne machine engine env' := by
  have hrename : (e.rename id).evalOne machine engine env' = e.evalOne machine engine env :=
    Expr.evalOne_rename h hvars
  rw [Expr.rename_id] at hrename
  exact hrename.symm

theorem Env.Agree.declare {names : List String} (h : env.Agree id vars env')
    (hnew : Declarable taken vars names) (values : List Value) :
    Option.Rel (Env.Agree id (names ++ vars)) (env.set? names values) (env'.set? names values) := by
  have hset := h.set? (Embeds.refl vars) hnew.1 rfl hnew values
  rwa [rebind_self] at hset

theorem Env.Agree.assign {targets : List String} (h : env.Agree id vars env')
    (htargets : targets ⊆ vars) (values : List Value) :
    Option.Rel (Env.Agree id vars) (env.assign? targets values) (env'.assign? targets values) := by
  have hassign := h.assign? (Embeds.refl vars) htargets values
  rwa [List.map_id] at hassign

section Relations

variable [DecidableEq Value]

/-- After the statements `hoisted`, `rest` gives the values of `x`, and only the variables `names`
have changed. -/
def Comp.Followed (machine : Machine State Value)
    (call : String → List Value → Comp State (List Value)) (env : Env Value) (x : Comp State (List Value))
    (hoisted : Block) (rest : Env Value → Comp State (List Value)) (names : List String) : Prop :=
  Comp.Rel (fun values result => values = result.1 ∧ env.Changed names result.2) x do
    let after ← Block.exec machine (.ofCalls call) hoisted env
    let values ← rest after
    return (values, after)

/-- After the statements `hoisted`, the variables `holders` hold the values of `x`, and only the
variables `names` have changed. -/
def Comp.Held (machine : Machine State Value)
    (call : String → List Value → Comp State (List Value)) (env : Env Value) (x : Comp State (List Value))
    (hoisted : Block) (holders names : List String) : Prop :=
  Comp.Rel (fun values after => holders.map after = values.map some ∧ env.Changed names after) x
    (Block.exec machine (.ofCalls call) hoisted env)

theorem Comp.Held.followed {x : Comp State (List Value)} {hoisted : Block}
    {holders names : List String} {rest : Env Value → Comp State (List Value)}
    (h : Comp.Held machine call env x hoisted holders names)
    (hrest : ∀ after values, holders.map after = values.map some → rest after = pure values) :
    Comp.Followed machine call env x hoisted rest names := by
  rw [Comp.Followed, ← bind_pure x]
  refine Comp.Rel.bind h fun values after hafter => ?_
  rw [hrest after values hafter.1, pure_bind]
  exact .pure ⟨rfl, hafter.2⟩

theorem Comp.Followed.bind {x : Comp State (List Value)} {hoisted : Block} {names : List String}
    {rest : Env Value → Comp State (List Value)} {α β : Type} {R : α → β → Prop}
    {next : List Value → Comp State α} {next' : List Value → Env Value → Comp State β}
    (h : Comp.Followed machine call env x hoisted rest names)
    (hnext : ∀ values after, env.Changed names after →
      Comp.Rel R (next values) (next' values after)) :
    Comp.Rel R (x >>= next) (Block.exec machine (.ofCalls call) hoisted env >>= fun after =>
      rest after >>= fun values => next' values after) := by
  have hsame : (Block.exec machine (.ofCalls call) hoisted env >>= fun after =>
        rest after >>= fun values => next' values after) =
      (Block.exec machine (.ofCalls call) hoisted env >>= fun after =>
        rest after >>= fun values => pure (values, after)) >>=
          fun result : List Value × Env Value => next' result.1 result.2 := by
    simp only [bind_assoc, pure_bind]
  rw [hsame]
  exact Comp.Rel.bind h fun values result hresult => hresult.1 ▸ hnext values result.2 hresult.2

/-- What is done with the values next can be done with what remains. -/
theorem Comp.Followed.next {x : Comp State (List Value)} {hoisted : Block} {names : List String}
    {rest : Env Value → Comp State (List Value)}
    (h : Comp.Followed machine call env x hoisted rest names)
    (next : List Value → Comp State (List Value)) :
    Comp.Followed machine call env (x >>= next) hoisted (fun after => rest after >>= next) names := by
  simp only [Comp.Followed, bind_assoc]
  refine h.bind fun values after hchanged => ?_
  rw [← bind_pure (next values), bind_assoc]
  refine (Comp.rel_eq.mpr rfl).bind ?_
  rintro values' - rfl
  exact .pure ⟨rfl, hchanged⟩

/-- Where nothing is hoisted, what remains gives the same values. -/
theorem Comp.Followed.eq {x : Comp State (List Value)} {names : List String}
    {rest : Env Value → Comp State (List Value)}
    (h : Comp.Followed machine call env x [] rest names) : x = rest env := by
  have hrel : Comp.Rel Eq (x >>= pure) (Block.exec machine (.ofCalls call) [] env >>= fun after =>
      rest after >>= pure) :=
    h.bind fun values _ _ => .pure rfl
  rw [Comp.rel_eq, Block.exec, pure_bind, bind_pure, bind_pure] at hrel
  exact hrel

/-! ## Copies -/

/-- Calls of a function do what its body does. -/
def FunctionDef.Called (machine : Machine State Value)
    (call : String → List Value → Comp State (List Value)) (function : FunctionDef) : Prop :=
  call function.name = function.run machine (.ofCalls call)

/-- A block keeps all variables that it does not declare, provided that it is scoped where only
those of the given names are in scope. -/
theorem Block.exec_changed {block : Block} {names : List String}
    (hscoped : Block.Scoped taken names block) (env : Env Value) :
    Comp.Ensures (env.Changed (names ++ Block.declared block))
      (Block.exec machine (.ofCalls call) block env) := by
  intro state after state' heq name hname
  rw [List.mem_append, not_or] at hname
  refine Block.exec_keeps hname.2 (fun hmention => ?_) env state after state' heq
  exact (hscoped.mentions name hmention).elim hname.1 hname.2

/-- A copy does what the function does, if the variables for the arguments hold them. -/
theorem FunctionDef.Copied.exec {callee : FunctionDef} {result : TypedName}
    {arguments : List String} {holder : String} {copy : Block} {values : List Value}
    (h : callee.Copied arguments result.name holder copy) (hscoped : callee.Scoped taken)
    (hreturns : callee.returns = [result]) (hlength : arguments.length = callee.params.length)
    (hnodup : (arguments ++ [holder] ++ Block.declared copy).Nodup)
    (hvalues : arguments.map env = values.map some) (hholder : env holder = some machine.zero) :
    Comp.Rel (fun values' after => [holder].map after = values'.map some ∧
        env.Changed (arguments ++ [holder] ++ Block.declared copy) after)
      (callee.run machine (.ofCalls call) values)
      (env.within (Block.exec machine (.ofCalls call) copy)) := by
  obtain ⟨f, g, hrenamed, hmap⟩ := h.renamed hscoped hreturns hlength
  have hholders := (List.nodup_append'.mp hnodup).1
  have hnew : Declarable [] (arguments ++ [holder]) (Block.gather Stmt.introduced copy) := by
    refine ⟨(List.nodup_append'.mp hnodup).2.1, fun name hname => ⟨fun hmem => ?_, by simp⟩⟩
    exact (List.nodup_append'.mp hnodup).2.2 hmem hname
  have hembeds : Embeds f callee.interface (arguments ++ [holder]) :=
    Embeds.of_map hmap hholders (List.Subset.refl _)
  -- The parameters and the return variable start with the values of the variables for them.
  have hstart : (arguments ++ [holder]).map env = (values ++ [machine.zero]).map some := by
    rw [List.map_append, List.map_append, hvalues, List.map_singleton, List.map_singleton, hholder]
  have hcount : callee.interface.length = (values ++ [machine.zero]).length := by
    rw [← List.length_map (f := f), hmap, ← List.length_map (f := env), hstart, List.length_map]
  obtain ⟨start, hset, hinterface, -⟩ :=
    @Env.set?_eq_some Value Env.empty callee.interface (values ++ [machine.zero]) hscoped.1.1 hcount
  have hagree : start.Agree f callee.interface env := by
    have hsame : callee.interface.map start = callee.interface.map fun name => env (f name) := by
      rw [hinterface, ← hstart, ← hmap, List.map_map]
      rfl
    intro name hname
    have hmem : start name ∈ (values ++ [machine.zero]).map some :=
      hinterface ▸ List.mem_map_of_mem hname
    obtain ⟨value, -, hvalue⟩ := List.mem_map.mp hmem
    exact ⟨value, hvalue.symm, by rw [← List.map_inj_left.mp hsame name hname, hvalue]⟩
  have hexec : Comp.Rel _ (Block.exec machine (.ofCalls call) callee.body start)
      (Block.exec machine (.ofCalls call) copy env) :=
    (hrenamed.exec hscoped.2 hembeds hnew hagree).and_right
      (Block.exec_changed (hrenamed.scoped hscoped.2 hembeds hnew).1 env)
  have hresult : result.name ∈ callee.interface := by
    rw [FunctionDef.interface, hreturns]
    exact List.mem_append_right _ (List.mem_singleton_self _)
  have hlast : f result.name = holder := by
    rw [FunctionDef.interface, hreturns, List.map_append, List.map_singleton, List.map_singleton] at hmap
    exact List.singleton_inj.mp (List.append_inj_right' hmap rfl)
  rw [FunctionDef.run, hreturns, List.map_singleton, hset, Comp.ofOption_some, pure_bind,
    List.map_singleton]
  refine hexec.bind fun inner inner' hinner => ?_
  obtain ⟨value, hvalue, hvalue'⟩ := hinner.1 result.name (List.mem_append_right _ hresult)
  rw [hrenamed.eq_of_mem hscoped.2 hresult, hlast] at hvalue'
  have hread : inner.read? [result.name] = some [value] := by
    rw [Env.read?, hvalue]
    rfl
  rw [hread, Comp.ofOption_some]
  refine .pure ⟨?_, hinner.2.leave⟩
  rw [List.map_singleton, List.map_singleton, Env.leave_of_some _ hholder, hvalue']

/-! ## Expressions -/

/-- The functions that were copied are scoped, and calls of them do what the copied bodies do. -/
def Trace.Called (taken : List String) (machine : Machine State Value)
    (call : String → List Value → Comp State (List Value)) (t : Trace) : Prop :=
  ∀ expansion ∈ t.expansions, expansion.callee.Scoped taken ∧ expansion.callee.Called machine call

theorem Trace.called_append {s t : Trace} :
    (s ++ t).Called taken machine call ↔ s.Called taken machine call ∧ t.Called taken machine call :=
  List.forall_mem_append

theorem Block.exec_append (front back : Block) (engine : Engine State Value) (env : Env Value) :
    Block.exec machine engine (front ++ back) env =
      Block.exec machine engine front env >>= Block.exec machine engine back := by
  induction front generalizing env with
  | nil => rfl
  | cons stmt stmts ih =>
    rw [List.cons_append, Block.exec, Block.exec, bind_assoc]
    exact congrArg _ (funext ih)

/-- After the statements `hoisted`, the variable `holder` holds the value of `x`, and only the
variables `names` have changed. -/
def Comp.HeldBy (machine : Machine State Value)
    (call : String → List Value → Comp State (List Value)) (env : Env Value) (x : Comp State Value)
    (hoisted : Block) (holder : String) (names : List String) : Prop :=
  Comp.Rel (fun value after => after holder = some value ∧ env.Changed names after) x
    (Block.exec machine (.ofCalls call) hoisted env)

theorem Comp.Held.heldBy {arg : Expr} {hoisted : Block} {holder : String} {names : List String}
    (h : Comp.Held machine call env' (arg.eval machine (.ofCalls call) env) hoisted [holder] names) :
    Comp.HeldBy machine call env' (arg.evalOne machine (.ofCalls call) env) hoisted holder names := by
  rw [Comp.HeldBy, Expr.evalOne, ← bind_pure (Block.exec machine (.ofCalls call) hoisted env')]
  refine Comp.Rel.bind h fun values after hafter => ?_
  obtain ⟨hheld, hchanged⟩ := hafter
  cases values with
  | nil => cases hheld
  | cons value more =>
    rw [List.map_singleton, List.map_cons, List.cons.injEq] at hheld
    obtain rfl : more = [] := List.map_eq_nil_iff.mp hheld.2.symm
    exact .pure ⟨hheld.1, hchanged⟩

/-- An argument that is bound to a variable is held by it. -/
theorem Comp.Followed.heldBy {arg arg' : Expr} {hoisted : Block} {names : List String}
    (name type : String)
    (h : Comp.Followed machine call env' (arg.eval machine (.ofCalls call) env) hoisted
      (arg'.eval machine (.ofCalls call)) names) :
    Comp.HeldBy machine call env' (arg.evalOne machine (.ofCalls call) env)
      (hoisted ++ [.declare [⟨name, type⟩] (some arg')]) name (names ++ [name]) := by
  rw [Comp.HeldBy, Block.exec_append, Expr.evalOne]
  have hdeclare : ∀ after, Block.exec machine (.ofCalls call)
      [.declare [⟨name, type⟩] (some arg')] after = arg'.eval machine (.ofCalls call) after >>=
        fun values => Comp.ofOption (after.set? [name] values) := by
    intro after
    rw [Block.exec, Stmt.exec, bind_assoc]
    refine congrArg _ (funext fun values => ?_)
    exact bind_pure _
  rw [funext hdeclare]
  refine h.bind fun values after hafter => ?_
  cases values with
  | nil => exact .undefined
  | cons value more =>
    cases more with
    | cons => exact .undefined
    | nil =>
      refine .pure ⟨Env.set_self .., hafter.trans fun other hother => ?_⟩
      exact Env.set_of_ne _ _ (by simpa using hother)

/-- The statements for one more argument are put behind those for the arguments to its right. -/
theorem Comp.Held.cons {arg : Expr} {args : List Expr} {later front : Block}
    {holder : String} {arguments names names' : List String}
    (hargs : Comp.Held machine call env' (Expr.evalArgs machine (.ofCalls call) args env) later
      arguments names')
    (harg : ∀ between, env'.Changed names' between →
      Comp.HeldBy machine call between (arg.evalOne machine (.ofCalls call) env) front holder names)
    (hapart : ∀ name ∈ arguments, name ∉ names) :
    Comp.Held machine call env' (Expr.evalArgs machine (.ofCalls call) (arg :: args) env)
      (later ++ front) (holder :: arguments) (names ++ names') := by
  rw [Comp.Held, Block.exec_append, Expr.evalArgs_cons]
  refine Comp.Rel.bind hargs fun values between hbetween => ?_
  rw [← bind_pure (Block.exec machine (.ofCalls call) front between)]
  refine Comp.Rel.bind (harg between hbetween.2) fun value after hafter => ?_
  refine .pure ⟨?_, ?_⟩
  · rw [List.map_cons, List.map_cons, hafter.1, hafter.2.map hapart, hbetween.1]
  · exact (hbetween.2.trans hafter.2).mono fun name hname =>
      List.mem_append.mpr (List.mem_append.mp hname).symm

/-- The variable for the result is declared and the copy is run, behind the arguments. -/
theorem Comp.Held.expanded {callee : FunctionDef} {result : TypedName} {args : List Expr}
    {arguments names : List String} {later copy : Block} {holder : String}
    (hargs : Comp.Held machine call env' (Expr.evalArgs machine (.ofCalls call) args env) later
      arguments names)
    (hcopied : callee.Copied arguments result.name holder copy) (hscoped : callee.Scoped taken)
    (hcalled : callee.Called machine call) (hreturns : callee.returns = [result])
    (hlength : arguments.length = callee.params.length) (hsub : arguments.Sublist names)
    (hnodup : (names ++ holder :: Block.declared copy).Nodup) :
    Comp.Held machine call env' ((Expr.call callee.name args).eval machine (.ofCalls call) env)
      (later ++ [.declare [⟨holder, result.type⟩] none, .block copy]) [holder]
      (names ++ holder :: Block.declared copy) := by
  have hplace : ∀ between, Block.exec machine (.ofCalls call)
      [.declare [⟨holder, result.type⟩] none, .block copy] between =
        (between.set holder machine.zero).within (Block.exec machine (.ofCalls call) copy) := by
    intro between
    simp only [Block.exec, Stmt.exec, List.map_cons, List.map_nil, Env.set?, Comp.ofOption_some,
      pure_bind, bind_pure]
  have hnames : (arguments ++ [holder] ++ Block.declared copy).Nodup := by
    rw [List.append_assoc]
    exact hnodup.sublist (hsub.append (List.Sublist.refl _))
  have hholder : holder ∉ arguments := fun hmem =>
    (List.nodup_append'.mp hnodup).2.2 (hsub.subset hmem) (List.mem_cons_self ..)
  rw [Comp.Held, Block.exec_append, Expr.eval, funext hplace]
  refine Comp.Rel.bind hargs fun values between hbetween => ?_
  have hset : between.Changed [holder] (between.set holder machine.zero) :=
    fun name hname => Env.set_of_ne _ _ (by simpa using hname)
  have hvalues : arguments.map (between.set holder machine.zero) = values.map some := by
    rw [hset.map fun name hname hmem => hholder (List.mem_singleton.mp hmem ▸ hname), hbetween.1]
  have hexec : Comp.Rel _ (callee.run machine (.ofCalls call) values) _ :=
    hcopied.exec hscoped hreturns hlength hnames hvalues
      (Env.set_self between holder machine.zero)
  rw [← hcalled] at hexec
  refine hexec.mono fun values' after hafter => ⟨hafter.1, ?_⟩
  refine (hbetween.2.trans (hset.trans hafter.2)).mono fun name hname => ?_
  have hargument := hsub.subset (a := name)
  simp only [List.mem_append, List.mem_cons, List.not_mem_nil, or_false] at hname ⊢
  tauto

/-- One more argument is moved to the front of the arguments to its right. -/
theorem Comp.Held.moved {types : List String} {arg : Expr} {args args' : List Expr}
    {later front : Block} {holder : String} {arguments names : List String} {t : Trace}
    (hspec : Expr.ExpandsArgs module caller types true args later args' t)
    (heq : args' = arguments.map .ident)
    (hargs : Comp.Held machine call env' (Expr.evalArgs machine (.ofCalls call) args env) later
      arguments t.names)
    (harg : ∀ between, env.Agree id vars between →
      Comp.HeldBy machine call between (arg.evalOne machine (.ofCalls call) env) front holder names)
    (hnew : Declarable taken vars (names ++ t.names)) (h : env.Agree id vars env') :
    Comp.Held machine call env' (Expr.evalArgs machine (.ofCalls call) (arg :: args) env)
      (later ++ front) (holder :: arguments) (names ++ t.names) := by
  subst heq
  refine hargs.cons (fun between hbetween => harg between ?_) fun name hname hmem => ?_
  · exact h.changed hbetween fun name hname => (hnew.right.2 name hname).1
  · exact (List.nodup_append'.mp hnew.1).2.2 hmem (hspec.idents_spec.1.subset hname)

mutual

/-- What is hoisted out of an expression and what remains of it give the values of the expression.
-/
theorem Expr.Expands.followed {e e' : Expr} {hoisted : List Stmt} {t : Trace} :
    Expr.Expands module caller e hoisted e' t → ∀ {vars : List String} {env env' : Env Value},
      e.vars ⊆ vars → t.Called taken machine call → Declarable taken vars t.names →
      env.Agree id vars env' →
      Comp.Followed machine call env' (e.eval machine (.ofCalls call) env) hoisted
        (e'.eval machine (.ofCalls call)) t.names
  | .literal value, _, _, _, _, _, _, _ => .pure ⟨rfl, fun _ _ => rfl⟩
  | .ident name, _, env, env', hvars, _, _, h => by
    have hsame : env' name = env name := h.eq (hvars (List.mem_singleton_self name))
    rw [Comp.Followed, Block.exec, pure_bind, Expr.eval, Expr.eval, hsame, bind_assoc]
    cases env name with
    | none => exact .undefined
    | some value => exact .pure ⟨rfl, fun _ _ => rfl⟩
  | .instr op hargs, _, _, _, hvars, hcalled, hnew, h =>
    (hargs.followed hvars hcalled hnew h).next (machine.apply op)
  | .kept hform hresult hcount hargs, _, _, _, hvars, hcalled, hnew, h =>
    (hargs.followed hvars hcalled hnew h).next (call _)
  | .expanded hform hresult hcount hargs hcopy, _, _, _, hvars, hcalled, hnew, h => by
    obtain ⟨hcalled, hcallee⟩ := Trace.called_append.mp hcalled
    obtain ⟨hscoped, hcallee⟩ := hcallee _ (List.mem_singleton_self _)
    obtain ⟨hreturns, -⟩ := FunctionDef.result?_eq_some.mp hresult
    obtain ⟨hsub, -, hlength⟩ := hargs.idents_spec
    have hheld := Comp.Held.expanded (hargs.held rfl rfl hvars hcalled hnew.left h) hcopy hscoped hcallee
      hreturns (hlength.trans hcount) hsub hnew.1
    exact hheld.followed fun after values => Expr.eval_ident

/-- The variable that remains of an expanded call holds its value. -/
theorem Expr.Expands.held {e e' : Expr} {hoisted : List Stmt} {t : Trace} :
    Expr.Expands module caller e hoisted e' t → hoisted ≠ [] → ∀ {name : String}, e' = .ident name →
      ∀ {vars : List String} {env env' : Env Value}, e.vars ⊆ vars → t.Called taken machine call →
      Declarable taken vars t.names → env.Agree id vars env' →
      Comp.Held machine call env' (e.eval machine (.ofCalls call) env) hoisted [name] t.names
  | .ident _, hne, _, _, _, _, _, _, _, _, _ => absurd rfl hne
  | .expanded hform hresult hcount hargs hcopy, _, _, heq, _, _, _, hvars, hcalled, hnew, h => by
    obtain rfl := Expr.ident.inj heq
    obtain ⟨hcalled, hcallee⟩ := Trace.called_append.mp hcalled
    obtain ⟨hscoped, hcallee⟩ := hcallee _ (List.mem_singleton_self _)
    obtain ⟨hreturns, -⟩ := FunctionDef.result?_eq_some.mp hresult
    obtain ⟨hsub, -, hlength⟩ := hargs.idents_spec
    exact Comp.Held.expanded (hargs.held rfl rfl hvars hcalled hnew.left h) hcopy hscoped hcallee
      hreturns (hlength.trans hcount) hsub hnew.1

/-- What is hoisted out of arguments and what remains of them give the values of the arguments. -/
theorem Expr.ExpandsArgs.followed {types : List String} {toFront : Bool} {args args' : List Expr}
    {hoisted : List Stmt} {t : Trace} :
    Expr.ExpandsArgs module caller types toFront args hoisted args' t →
      ∀ {vars : List String} {env env' : Env Value}, Expr.varsOfArgs args ⊆ vars →
      t.Called taken machine call → Declarable taken vars t.names → env.Agree id vars env' →
      Comp.Followed machine call env' (Expr.evalArgs machine (.ofCalls call) args env) hoisted
        (Expr.evalArgs machine (.ofCalls call) args') t.names
  | .nil _ _, _, _, _, _, _, _, _ => .pure ⟨rfl, fun _ _ => rfl⟩
  | @Expr.ExpandsArgs.stays _ _ _ arg arg' args args' later t t' harg hargs, _, env, env', hvars,
      hcalled, hnew, h => by
    obtain ⟨hcalled, hcalled'⟩ := Trace.called_append.mp hcalled
    obtain ⟨hvars, hvars'⟩ := List.append_subset.mp hvars
    rw [Trace.names_append] at hnew ⊢
    simp only [Comp.Followed, Expr.evalArgs_cons, bind_assoc]
    refine (hargs.followed hvars' hcalled' hnew.right h).bind fun values after hafter => ?_
    have hagree := h.changed hafter fun name hname => (hnew.right.2 name hname).1
    have hsame : arg.evalOne machine (.ofCalls call) env = arg'.evalOne machine (.ofCalls call) after := by
      rw [Expr.evalOne, Expr.evalOne, (harg.followed hvars hcalled hnew.left hagree).eq]
    rw [hsame]
    refine (Comp.rel_eq.mpr rfl).bind ?_
    rintro value - rfl
    exact .pure ⟨rfl, hafter.mono (List.subset_append_right ..)⟩
  | .holder harg hhoisted hargs, _, _, _, hvars, hcalled, hnew, h => by
    obtain ⟨arguments, heq⟩ := hargs.idents
    obtain ⟨hcalled, hcalled'⟩ := Trace.called_append.mp hcalled
    obtain ⟨hvars, hvars'⟩ := List.append_subset.mp hvars
    have hheld := Comp.Held.moved hargs heq (hargs.held rfl heq hvars' hcalled' hnew.right h)
      (fun between hbetween => (harg.held hhoisted rfl hvars hcalled hnew.left hbetween).heldBy) hnew h
    rw [heq]
    exact hheld.followed fun after values => Expr.evalArgs_idents
  | @Expr.ExpandsArgs.bound _ _ types _ _ _ name _ _ _ _ _ _ harg hmoved hargs, _, _, _, hvars, hcalled,
      hnew, h => by
    obtain ⟨arguments, heq⟩ := hargs.idents
    obtain ⟨hcalled, hcalled'⟩ := Trace.called_append.mp hcalled
    obtain ⟨hcalled, -⟩ := Trace.called_append.mp hcalled
    obtain ⟨hvars, hvars'⟩ := List.append_subset.mp hvars
    have hheld := Comp.Held.moved hargs heq (hargs.held rfl heq hvars' hcalled' hnew.right h)
      (fun between hbetween => (harg.followed hvars hcalled hnew.left.left hbetween).heldBy name
        (types.headD "")) hnew h
    rw [heq]
    exact hheld.followed fun after values => Expr.evalArgs_idents

/-- Arguments that are all moved to the front are held by variables. -/
theorem Expr.ExpandsArgs.held {types : List String} {toFront : Bool} {args args' : List Expr}
    {hoisted : List Stmt} {t : Trace} :
    Expr.ExpandsArgs module caller types toFront args hoisted args' t → toFront = true →
      ∀ {arguments : List String}, args' = arguments.map .ident →
      ∀ {vars : List String} {env env' : Env Value}, Expr.varsOfArgs args ⊆ vars →
      t.Called taken machine call → Declarable taken vars t.names → env.Agree id vars env' →
      Comp.Held machine call env' (Expr.evalArgs machine (.ofCalls call) args env) hoisted arguments
        t.names
  | .stays _ _, hfront, _, _, _, _, _, _, _, _, _ => by cases hfront
  | .nil _ _, _, arguments, heq, _, _, _, _, _, _, _ => by
    obtain rfl := List.map_eq_nil_iff.mp heq.symm
    exact .pure ⟨rfl, fun _ _ => rfl⟩
  | .holder harg hhoisted hargs, _, [], heq, _, _, _, _, _, _, _ => by cases heq
  | .bound harg hmoved hargs, _, [], heq, _, _, _, _, _, _, _ => by cases heq
  | .holder harg hhoisted hargs, _, _ :: arguments, heq, _, _, _, hvars, hcalled, hnew, h => by
    rw [List.map_cons, List.cons.injEq] at heq
    obtain ⟨hcalled, hcalled'⟩ := Trace.called_append.mp hcalled
    obtain ⟨hvars, hvars'⟩ := List.append_subset.mp hvars
    exact Comp.Held.moved hargs heq.2 (hargs.held rfl heq.2 hvars' hcalled' hnew.right h)
      (fun between hbetween => (harg.held hhoisted heq.1 hvars hcalled hnew.left hbetween).heldBy) hnew h
  | @Expr.ExpandsArgs.bound _ _ types _ _ _ name _ _ _ _ _ _ harg hmoved hargs, _, _ :: arguments, heq,
      _, _, _, hvars, hcalled, hnew, h => by
    rw [List.map_cons, List.cons.injEq] at heq
    obtain ⟨hcalled, hcalled'⟩ := Trace.called_append.mp hcalled
    obtain ⟨hcalled, -⟩ := Trace.called_append.mp hcalled
    obtain ⟨hvars, hvars'⟩ := List.append_subset.mp hvars
    rw [← Expr.ident.inj heq.1]
    exact Comp.Held.moved hargs heq.2 (hargs.held rfl heq.2 hvars' hcalled' hnew.right h)
      (fun between hbetween => (harg.followed hvars hcalled hnew.left.left hbetween).heldBy name
        (types.headD "")) hnew h

end

/-! ## Statements -/

mutual

/-- What is hoisted out of a statement, and then what becomes of it, does what the statement does.
-/
theorem Stmt.Expands.exec {stmt stmt' : Stmt} {hoisted : List Stmt} {t : Trace} :
    Stmt.Expands module caller stmt hoisted stmt' t → t.complete = true →
      ∀ {vars : List String} {env env' : Env Value}, stmt.Scoped taken vars →
      t.Called taken machine call → Declarable taken vars t.names →
      (∀ name ∈ t.names, name ∉ stmt.gather Stmt.introduced) → env.Agree id vars env' →
      Comp.Rel (Env.Agree id (stmt.declares ++ vars)) (stmt.exec machine (.ofCalls call) env)
        (Block.exec machine (.ofCalls call) hoisted env' >>= stmt'.exec machine (.ofCalls call))
  | .untouched _, hcomplete, _, _, _, _, _, _, _, _ => by cases hcomplete
  | .expr hvalue, _, _, _, _, hscoped, hcalled, hnew, _, h => by
    rw [Stmt.Scoped] at hscoped
    simp only [Stmt.exec]
    refine (hvalue.followed hscoped hcalled hnew h).bind fun values after hafter => .pure ?_
    exact h.changed hafter fun name hname => (hnew.2 name hname).1
  | .assign targets hvalue, _, _, _, _, hscoped, hcalled, hnew, _, h => by
    rw [Stmt.Scoped] at hscoped
    simp only [Stmt.exec]
    refine (hvalue.followed hscoped.2 hcalled hnew h).bind fun values after hafter => .ofOption ?_
    exact (h.changed hafter fun name hname => (hnew.2 name hname).1).assign hscoped.1 values
  | .empty _, _, _, _, _, hscoped, _, _, _, h => by
    rw [Stmt.Scoped] at hscoped
    exact .ofOption (h.declare hscoped.1 _)
  | .declare vars hvalue, _, _, _, _, hscoped, hcalled, hnew, _, h => by
    rw [Stmt.Scoped] at hscoped
    simp only [Stmt.exec]
    refine (hvalue.followed hscoped.2 hcalled hnew h).bind fun values after hafter => .ofOption ?_
    exact (h.changed hafter fun name hname => (hnew.2 name hname).1).declare hscoped.1 values
  | .branch hcondition hbody, hcomplete, _, _, _, hscoped, hcalled, hnew, hapart, h => by
    rw [Stmt.Scoped] at hscoped
    rw [Stmt.gather_branch] at hapart
    simp only [Trace.names_append, List.mem_append, not_or] at hnew hapart
    obtain ⟨-, hcomplete⟩ := (Trace.complete_append _ _).mp hcomplete
    obtain ⟨hcalled, hcalled'⟩ := Trace.called_append.mp hcalled
    simp only [Stmt.exec, Expr.evalOne, bind_assoc]
    refine (hcondition.followed hscoped.1 hcalled hnew.left h).bind fun values after hafter => ?_
    have hagree := h.changed hafter fun name hname => (hnew.left.2 name hname).1
    refine (Comp.rel_eq.mpr rfl).bind ?_
    rintro value - rfl
    split
    · refine .within hagree (hbody.exec hcomplete hscoped.2 hcalled' hnew.right (fun name hname => ?_)
        hagree) fun _ _ => rfl
      exact (hapart name (Or.inr hname)).2
    · exact .pure hagree
  | .switch hscrutinee hcases, hcomplete, _, _, _, hscoped, hcalled, hnew, hapart, h => by
    rw [Stmt.Scoped] at hscoped
    rw [Stmt.gather_switch] at hapart
    simp only [Trace.names_append, List.mem_append, not_or] at hnew hapart
    obtain ⟨-, hcomplete⟩ := (Trace.complete_append _ _).mp hcomplete
    obtain ⟨hcalled, hcalled'⟩ := Trace.called_append.mp hcalled
    simp only [Stmt.exec, Expr.evalOne, bind_assoc]
    refine (hscrutinee.followed hscoped.1 hcalled hnew.left h).bind fun values after hafter => ?_
    have hagree := h.changed hafter fun name hname => (hnew.left.2 name hname).1
    refine (Comp.rel_eq.mpr rfl).bind ?_
    rintro value - rfl
    refine hcases.exec hcomplete hscoped.2 hcalled' hnew.right (fun name hname => ?_) hagree value
      (.pure hagree)
    exact (hapart name (Or.inr hname)).2
  | @Stmt.Expands.loop _ _ condition init _ _ _ _ _ _ _ _ hinit hstep hbody, hcomplete, vars, _, _,
      hscoped, hcalled, hnew, hapart, h => by
    rw [Stmt.Scoped] at hscoped
    simp only [Stmt.gather_loop, Trace.names_append, List.mem_append, not_or] at hnew hapart
    obtain ⟨hcomplete, hcomplete₃⟩ := (Trace.complete_append _ _).mp hcomplete
    obtain ⟨hcomplete₁, hcomplete₂⟩ := (Trace.complete_append _ _).mp hcomplete
    obtain ⟨hcalled, hcalled₃⟩ := Trace.called_append.mp hcalled
    obtain ⟨hcalled₁, hcalled₂⟩ := Trace.called_append.mp hcalled
    have hnewInside : Declarable taken (Block.declares init ++ vars) _ := hnew.weaken
      fun name hname hmem => (hapart name (by simpa [or_assoc] using hname)).2.1.1
        (Block.declares_subset_declared init hmem)
    simp only [Stmt.exec, Block.exec, pure_bind]
    refine .within h (?_ : Comp.Rel (Env.Agree id (Block.declares init ++ vars)) _ _) fun _ _ => rfl
    refine (hinit.exec hcomplete₁ hscoped.1 hcalled₁ hnew.left.left
      (fun name hname => (hapart name (Or.inl (Or.inl hname))).2.1.1) h).bind
        fun inner inner' hinner => ?_
    refine Comp.Rel.loop (fun inner inner' => ?_) hinner
    refine Comp.Rel.loopStep (fun inner inner' hinner => ?_) (fun inner inner' hinner => ?_)
      fun inner inner' hinner => ?_
    · exact Expr.evalOne_congr hinner hscoped.2.1
    · refine .within hinner (hbody.exec hcomplete₃ hscoped.2.2.2 hcalled₃ hnewInside.right
        (fun name hname => ?_) hinner) fun _ _ => rfl
      exact (hapart name (Or.inr hname)).2.2
    · refine .within hinner (hstep.exec hcomplete₂ hscoped.2.2.1 hcalled₂ hnewInside.left.right
        (fun name hname => ?_) hinner) fun _ _ => rfl
      exact (hapart name (Or.inl (Or.inr hname))).2.1.2
  | .block hbody, hcomplete, _, _, _, hscoped, hcalled, hnew, hapart, h => by
    rw [Stmt.Scoped] at hscoped
    rw [Stmt.gather_block] at hapart
    simp only [Stmt.exec, Block.exec, pure_bind]
    refine .within h (hbody.exec hcomplete hscoped hcalled hnew (fun name hname hmem => ?_) h)
      fun _ _ => rfl
    exact hapart name hname (List.mem_append_right _ hmem)

theorem Case.Expands.exec {cases cases' : List Case} {t : Trace} :
    Case.Expands module caller cases cases' t → t.complete = true →
      ∀ {vars : List String} {env env' : Env Value}, Case.Scoped taken vars cases →
      t.Called taken machine call → Declarable taken vars t.names →
      (∀ name ∈ t.names, name ∉ Case.gather Stmt.introduced cases) → env.Agree id vars env' →
      ∀ (value : Value) {otherwise otherwise' : Comp State (Env Value)},
      Comp.Rel (Env.Agree id vars) otherwise otherwise' →
      Comp.Rel (Env.Agree id vars) (Case.exec machine (.ofCalls call) cases value otherwise env)
        (Case.exec machine (.ofCalls call) cases' value otherwise' env')
  | .nil, _, _, _, _, _, _, _, _, _, _, _, _, hotherwise => hotherwise
  | .cons none hbody hcases, hcomplete, _, _, _, hscoped, hcalled, hnew, hapart, h, value, _, _,
      hotherwise => by
    rw [Case.Scoped] at hscoped
    simp only [Case.gather_cons, Trace.names_append, List.mem_append, not_or] at hnew hapart
    obtain ⟨hcomplete, hcomplete'⟩ := (Trace.complete_append _ _).mp hcomplete
    obtain ⟨hcalled, hcalled'⟩ := Trace.called_append.mp hcalled
    simp only [Case.exec]
    refine hcases.exec hcomplete' hscoped.2 hcalled' hnew.right
      (fun name hname => (hapart name (Or.inr hname)).2) h value ?_
    exact .within h (hbody.exec hcomplete hscoped.1 hcalled hnew.left
      (fun name hname => (hapart name (Or.inl hname)).1) h) fun _ _ => rfl
  | .cons (some literal) hbody hcases, hcomplete, _, _, _, hscoped, hcalled, hnew, hapart, h, value, _,
      _, hotherwise => by
    rw [Case.Scoped] at hscoped
    simp only [Case.gather_cons, Trace.names_append, List.mem_append, not_or] at hnew hapart
    obtain ⟨hcomplete, hcomplete'⟩ := (Trace.complete_append _ _).mp hcomplete
    obtain ⟨hcalled, hcalled'⟩ := Trace.called_append.mp hcalled
    simp only [Case.exec]
    split
    · exact .within h (hbody.exec hcomplete hscoped.1 hcalled hnew.left
        (fun name hname => (hapart name (Or.inl hname)).1) h) fun _ _ => rfl
    · exact hcases.exec hcomplete' hscoped.2 hcalled' hnew.right
        (fun name hname => (hapart name (Or.inr hname)).2) h value hotherwise

/-- What becomes of a block does what the block does. -/
theorem Block.Expands.exec {block block' : Block} {t : Trace} :
    Block.Expands module caller block block' t → t.complete = true →
      ∀ {vars : List String} {env env' : Env Value}, Block.Scoped taken vars block →
      t.Called taken machine call → Declarable taken vars t.names →
      (∀ name ∈ t.names, name ∉ Block.gather Stmt.introduced block) → env.Agree id vars env' →
      Comp.Rel (Env.Agree id (Block.declares block ++ vars))
        (Block.exec machine (.ofCalls call) block env)
        (Block.exec machine (.ofCalls call) block' env')
  | .nil, _, _, _, _, _, _, _, _, h => .pure h
  | .hold hstmt hstmts, hcomplete, _, _, _, _, _, _, _, _ => by
    obtain ⟨hcomplete, -⟩ := (Trace.complete_append _ _).mp hcomplete
    cases ((Trace.complete_append _ _).mp hcomplete).2
  | @Block.Expands.cons _ _ stmt stmt' hoisted stmts stmts' t t' hstmt hstmts, hcomplete, vars, _, _,
      hscoped, hcalled, hnew, hapart, h => by
    rw [Block.scoped_cons] at hscoped
    simp only [Block.gather_cons, Trace.names_append, List.mem_append, not_or] at hnew hapart
    obtain ⟨hcomplete, hcomplete'⟩ := (Trace.complete_append _ _).mp hcomplete
    obtain ⟨hcalled, hcalled'⟩ := Trace.called_append.mp hcalled
    have hnew' : Declarable taken (stmt.declares ++ vars) t'.names := hnew.right.weaken
      fun name hname hmem => (hapart name (Or.inr hname)).1 (stmt.declares_sublist_gather.subset hmem)
    rw [Block.exec_append, Block.exec]
    simp only [Block.exec]
    rw [← bind_assoc]
    refine (hstmt.exec hcomplete hscoped.1 hcalled hnew.left
      (fun name hname => (hapart name (Or.inl hname)).1) h).bind fun inner inner' hinner => ?_
    refine (hstmts.exec hcomplete' hscoped.2 hcalled' hnew'
      (fun name hname => (hapart name (Or.inr hname)).2) hinner).mono fun last last' hlast => ?_
    refine hlast.mono fun name hname => ?_
    simp only [Block.declares_cons, List.mem_append] at hname ⊢
    tauto

end

/-! ## Bodies -/

/-- What becomes of a function does what the function does. -/
theorem FunctionDef.run_expands {function : FunctionDef} {body : Block} {t : Trace}
    (hbody : Block.Expands module function.name function.body body t) (hcomplete : t.complete = true)
    (hscoped : function.Scoped taken) (hcalled : t.Called taken machine call)
    (hnew : Declarable taken function.interface t.names)
    (hapart : ∀ name ∈ t.names, name ∉ Block.gather Stmt.introduced function.body) :
    ({ function with body } : FunctionDef).run machine (.ofCalls call) =
      function.run machine (.ofCalls call) := by
  funext arguments
  refine (Comp.rel_eq.mp ?_).symm
  rw [FunctionDef.run, FunctionDef.run]
  show Comp.Rel Eq (Comp.ofOption (Env.empty.set? function.interface _) >>= _)
    (Comp.ofOption (Env.empty.set? function.interface _) >>= _)
  cases hset : Env.empty.set? function.interface
      (arguments ++ function.returns.map fun _ => machine.zero) with
  | none => exact .undefined
  | some start =>
    have hstart : start.Agree id function.interface start := fun name hname =>
      (Env.exists_of_set? hset hname).imp fun _ hvalue => ⟨hvalue, hvalue⟩
    rw [Comp.ofOption_some, pure_bind, pure_bind]
    refine (hbody.exec hcomplete hscoped.2 hcalled hnew hapart hstart).bind fun last last' hlast => ?_
    have hreturns : function.returns.map (·.name) ⊆ Block.declares function.body ++ function.interface :=
      fun name hname => List.mem_append_right _ (List.mem_append_right _ hname)
    have hread := hlast.read? hreturns
    rw [List.map_id] at hread
    rw [hread]
    exact Comp.rel_eq.mpr rfl

/-- What becomes of a top-level block does what the block does. -/
theorem Block.run_expands {body body' : Block} {t : Trace}
    (hbody : Block.Expands module caller body body' t) (hcomplete : t.complete = true)
    (hscoped : Block.Scoped taken [] body) (hcalled : t.Called taken machine call)
    (hnew : Declarable taken [] t.names)
    (hapart : ∀ name ∈ t.names, name ∉ Block.gather Stmt.introduced body) :
    body'.run machine (.ofCalls call) = body.run machine (.ofCalls call) := by
  refine (Comp.rel_eq.mp ?_).symm
  have hempty : Env.Agree id [] (Env.empty : Env Value) Env.empty := by simp [Env.Agree]
  exact (hbody.exec hcomplete hscoped hcalled hnew hapart hempty).bind fun _ _ _ => .pure rfl

end Relations

end YulInline
