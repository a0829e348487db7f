import YulInline.Proofs.BodyCopies
import YulInline.Inliner.Visit

/-!
# What an expansion is

The inliner is a program over a state; here is what it does to a tree, said without the state.
`Expr.Expands` relates an expression to what is hoisted out of it and what remains of it, and
`Block.Expands` a body to its expansion. Both come with a `Trace` of the names that were given out
and of the calls that were expanded, so that freshness and the origin of the copies can be said of a
whole body, or a whole module, at once.

A body may be copied while its own expansion is under way. For this reason `Block.Expands` also
relates a body to the forms that it goes through: some statements are `untouched` still, and what
was hoisted out of the condition of a statement is held back (`Block.Expands.hold`) until the blocks
inside that statement have been visited. The trace says whether there is any of this.
-/

namespace YulInline

/-! ## Functions of a module -/

/-- A function is one of the functions of a module, except perhaps for its body. -/
def FunctionDef.FormIn (function : FunctionDef) (module : Block) : Prop :=
  ∃ original ∈ Block.functions module, function = { original with body := function.body }

/-- Calls that are expanded are those of functions with one return variable in other bodies. -/
theorem FunctionDef.result?_eq_some {function : FunctionDef} {caller : String}
    {result : TypedName} :
    function.result? caller = some result ↔
      function.returns = [result] ∧ function.name ≠ caller := by
  rw [FunctionDef.result?]
  constructor
  · intro h
    split at h
    · next other hreturns =>
      split at h
      · cases h
      · next hname => exact ⟨by rw [hreturns, Option.some.inj h], hname⟩
    · cases h
  · rintro ⟨hreturns, hname⟩
    rw [hreturns]
    exact if_neg hname

/-- A block is a copy of the body of a function, for a call whose arguments are held by the
variables `arguments`, and whose result is to be held by `holder`. -/
def FunctionDef.Copied (function : FunctionDef) (arguments : List String) (result holder : String)
    (copy : Block) : Prop :=
  Block.definitions function.body = [] ∧ ∃ names : NameSupply,
    copy = (Block.copy (function.copyRule arguments result holder) function.body { names }).1

/-! ## Traces -/

/-- What is recorded of an expansion. -/
@[ext] structure Trace where
  /-- The names that were given out, the earliest first. -/
  names : List String := []
  /-- The calls that were expanded, the earliest first. -/
  expansions : List Expansion := []
  /-- The statements that were hoisted and have not been put in place. -/
  held : List Stmt := []
  /-- Whether everything has been visited and put in place. -/
  complete : Bool := true

namespace Trace

instance : Append Trace :=
  ⟨fun s t => ⟨s.names ++ t.names, s.expansions ++ t.expansions, s.held ++ t.held,
    s.complete && t.complete⟩⟩

/-- The trace of statements that are held back. -/
def onHold (held : List Stmt) : Trace :=
  { held, complete := false }

@[simp] theorem names_append (s t : Trace) : (s ++ t).names = s.names ++ t.names := rfl

@[simp] theorem expansions_append (s t : Trace) :
    (s ++ t).expansions = s.expansions ++ t.expansions := rfl

@[simp] theorem held_append (s t : Trace) : (s ++ t).held = s.held ++ t.held := rfl

@[simp] theorem complete_append (s t : Trace) :
    (s ++ t).complete = true ↔ s.complete = true ∧ t.complete = true :=
  Bool.and_eq_true_iff

theorem append_assoc (s t u : Trace) : s ++ t ++ u = s ++ (t ++ u) :=
  Trace.ext (List.append_assoc ..) (List.append_assoc ..) (List.append_assoc ..)
    (Bool.and_assoc ..)

@[simp] theorem append_empty (t : Trace) : t ++ {} = t :=
  Trace.ext (List.append_nil _) (List.append_nil _) (List.append_nil _) (Bool.and_true _)

@[simp] theorem empty_append (t : Trace) : ({} : Trace) ++ t = t :=
  Trace.ext rfl rfl rfl (Bool.true_and _)

/-- The names and expansions of a trace are some of those of another, in the same order. -/
structure Within (s t : Trace) : Prop where
  names : s.names.Sublist t.names
  expansions : s.expansions.Sublist t.expansions

theorem Within.refl (t : Trace) : t.Within t :=
  ⟨List.Sublist.refl _, List.Sublist.refl _⟩

theorem Within.trans {s t u : Trace} (h : s.Within t) (h' : t.Within u) : s.Within u :=
  ⟨h.names.trans h'.names, h.expansions.trans h'.expansions⟩

theorem Within.append_left (s t : Trace) : s.Within (s ++ t) :=
  ⟨List.sublist_append_left .., List.sublist_append_left ..⟩

theorem Within.append {s t s' t' : Trace} (h : s.Within t) (h' : s'.Within t') :
    (s ++ s').Within (t ++ t') :=
  ⟨h.names.append h'.names, h.expansions.append h'.expansions⟩

/-- What has no names and expansions adds nothing. -/
theorem Within.append_empty {s t u : Trace} (h : s.Within t) (h' : u.Within {}) :
    (s ++ u).Within t :=
  t.append_empty ▸ h.append h'

end Trace

/-! ## Expressions -/

section Expands

variable (module : Block) (caller : String)

mutual

/-- An expression in the body of `caller`, what is hoisted out of it, and what remains of it. -/
inductive Expr.Expands : Expr → List Stmt → Expr → Trace → Prop where
  | literal (value : Literal) : Expr.Expands (.literal value) [] (.literal value) {}
  | ident (name : String) : Expr.Expands (.ident name) [] (.ident name) {}
  | instr (op : String) {args args' : List Expr} {hoisted : List Stmt} {t : Trace}
    (hargs : Expr.ExpandsArgs [] false args hoisted args' t) :
    Expr.Expands (.instr op args) hoisted (.instr op args') t
  /-- A call that stays. -/
  | kept {callee : FunctionDef} {args args' : List Expr} {hoisted : List Stmt} {t : Trace}
    (hform : callee.FormIn module) (hresult : callee.result? caller = none)
    (hcount : args.length = callee.params.length)
    (hargs : Expr.ExpandsArgs (callee.params.map (·.type)) false args hoisted args' t) :
    Expr.Expands (.call callee.name args) hoisted (.call callee.name args') t
  /-- A call that is expanded: `holder` is the variable for its result. -/
  | expanded {callee : FunctionDef} {result : TypedName} {args : List Expr}
    {arguments : List String} {hoisted : List Stmt} {t : Trace} {holder : String} {copy : Block}
    (hform : callee.FormIn module) (hresult : callee.result? caller = some result)
    (hcount : args.length = callee.params.length)
    (hargs : Expr.ExpandsArgs (callee.params.map (·.type)) true args hoisted
      (arguments.map .ident) t)
    (hcopy : callee.Copied arguments result.name holder copy) :
    Expr.Expands (.call callee.name args)
      (hoisted ++ [.declare [⟨holder, result.type⟩] none, .block copy]) (.ident holder)
      (t ++ { names := holder :: Block.declared copy,
              expansions := [⟨caller, callee, arguments, holder⟩] })

/-- Arguments, what is hoisted out of them, and what remains of them. If `toFront` holds, all of
them are moved to the front. -/
inductive Expr.ExpandsArgs :
    List String → Bool → List Expr → List Stmt → List Expr → Trace → Prop where
  | nil (types : List String) (toFront : Bool) : Expr.ExpandsArgs types toFront [] [] [] {}
  /-- An argument that stays in place. -/
  | stays {types : List String} {arg arg' : Expr} {args args' : List Expr} {later : List Stmt}
    {t t' : Trace} (harg : Expr.Expands arg [] arg' t)
    (hargs : Expr.ExpandsArgs types.tail false args later args' t') :
    Expr.ExpandsArgs types false (arg :: args) later (arg' :: args') (t ++ t')
  /-- An argument that is the result of an expanded call already. -/
  | holder {types : List String} {toFront : Bool} {arg : Expr} {name : String}
    {args args' : List Expr} {hoisted later : List Stmt} {t t' : Trace}
    (harg : Expr.Expands arg hoisted (.ident name) t) (hhoisted : hoisted ≠ [])
    (hargs : Expr.ExpandsArgs types.tail true args later args' t') :
    Expr.ExpandsArgs types toFront (arg :: args) (later ++ hoisted) (.ident name :: args') (t ++ t')
  /-- An argument that is bound to a variable. -/
  | bound {types : List String} {toFront : Bool} {arg arg' : Expr} {name : String}
    {args args' : List Expr} {hoisted later : List Stmt} {t t' : Trace}
    (harg : Expr.Expands arg hoisted arg' t)
    (hmoved : hoisted = [] ∧ toFront = true ∨ hoisted ≠ [] ∧ arg'.ident? = none)
    (hargs : Expr.ExpandsArgs types.tail true args later args' t') :
    Expr.ExpandsArgs types toFront (arg :: args)
      (later ++ (hoisted ++ [.declare [⟨name, types.headD ""⟩] (some arg')]))
      (.ident name :: args') (t ++ { names := [name] } ++ t')

end

/-! ## Statements -/

mutual

/-- A statement in the body of `caller`, what is hoisted out of it, and what remains of it. -/
inductive Stmt.Expands : Stmt → List Stmt → Stmt → Trace → Prop where
  | untouched (stmt : Stmt) : Stmt.Expands stmt [] stmt { complete := false }
  | expr {value value' : Expr} {hoisted : List Stmt} {t : Trace}
    (hvalue : Expr.Expands module caller value hoisted value' t) :
    Stmt.Expands (.expr value) hoisted (.expr value') t
  | assign (targets : List String) {value value' : Expr} {hoisted : List Stmt} {t : Trace}
    (hvalue : Expr.Expands module caller value hoisted value' t) :
    Stmt.Expands (.assign targets value) hoisted (.assign targets value') t
  | empty (vars : List TypedName) :
    Stmt.Expands (.declare vars none) [] (.declare vars none) {}
  | declare (vars : List TypedName) {value value' : Expr} {hoisted : List Stmt} {t : Trace}
    (hvalue : Expr.Expands module caller value hoisted value' t) :
    Stmt.Expands (.declare vars (some value)) hoisted (.declare vars (some value')) t
  | branch {condition condition' : Expr} {body body' : Block} {hoisted : List Stmt} {t t' : Trace}
    (hcondition : Expr.Expands module caller condition hoisted condition' t)
    (hbody : Block.Expands body body' t') :
    Stmt.Expands (.branch condition body) hoisted (.branch condition' body') (t ++ t')
  | switch {scrutinee scrutinee' : Expr} {cases cases' : List Case} {hoisted : List Stmt}
    {t t' : Trace} (hscrutinee : Expr.Expands module caller scrutinee hoisted scrutinee' t)
    (hcases : Case.Expands cases cases' t') :
    Stmt.Expands (.switch scrutinee cases) hoisted (.switch scrutinee' cases') (t ++ t')
  | loop (condition : Expr) {init init' step step' body body' : Block} {t t' t'' : Trace}
    (hinit : Block.Expands init init' t) (hstep : Block.Expands step step' t')
    (hbody : Block.Expands body body' t'') :
    Stmt.Expands (.loop init condition step body) [] (.loop init' condition step' body')
      (t ++ t' ++ t'')
  | block {body body' : Block} {t : Trace} (hbody : Block.Expands body body' t) :
    Stmt.Expands (.block body) [] (.block body') t

/-- The cases of a `switch`, and what they become. -/
inductive Case.Expands : List Case → List Case → Trace → Prop where
  | nil : Case.Expands [] [] {}
  | cons (value : Option Literal) {body body' : Block} {cases cases' : List Case} {t t' : Trace}
    (hbody : Block.Expands body body' t) (hcases : Case.Expands cases cases' t') :
    Case.Expands (⟨value, body⟩ :: cases) (⟨value, body'⟩ :: cases') (t ++ t')

/-- A block, and what it becomes. -/
inductive Block.Expands : List Stmt → List Stmt → Trace → Prop where
  | nil : Block.Expands [] [] {}
  | cons {stmt stmt' : Stmt} {hoisted stmts stmts' : List Stmt} {t t' : Trace}
    (hstmt : Stmt.Expands stmt hoisted stmt' t) (hstmts : Block.Expands stmts stmts' t') :
    Block.Expands (stmt :: stmts) (hoisted ++ stmt' :: stmts') (t ++ t')
  /-- What is hoisted out of a statement is held back. -/
  | hold {stmt stmt' : Stmt} {hoisted stmts stmts' : List Stmt} {t t' : Trace}
    (hstmt : Stmt.Expands stmt hoisted stmt' t) (hstmts : Block.Expands stmts stmts' t') :
    Block.Expands (stmt :: stmts) (stmt' :: stmts') (t ++ Trace.onHold hoisted ++ t')

end

end Expands

theorem Stmt.withBody_of_body? {stmt : Stmt} {body : Block} (h : stmt.body? = some body) :
    stmt.withBody body = stmt := by
  cases stmt with
  | define function =>
    cases function
    rw [← Option.some.inj h]
    rfl
  | block original =>
    rw [← Option.some.inj h]
    rfl
  | _ => cases h

/-- The function in whose body a statement of the root block puts its own calls; a top-level block
belongs to none, which is told by the empty name. -/
def Stmt.callerName : Stmt → String
  | .define function => function.name
  | _ => ""

/-- A statement of the root block, and what it becomes. -/
inductive Stmt.RootExpands (module : Block) : Stmt → Stmt → Trace → Prop where
  | block {body body' : Block} {t : Trace} (hbody : Block.Expands module "" body body' t) :
    Stmt.RootExpands module (.block body) (.block body') t
  | define {function : FunctionDef} {body : Block} {t : Trace}
    (hbody : Block.Expands module function.name function.body body t) :
    Stmt.RootExpands module (.define function) (.define { function with body }) t
  | other {stmt : Stmt} (hbody : stmt.body? = none) : Stmt.RootExpands module stmt stmt {}

end YulInline
