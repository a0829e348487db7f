import YulInline.Proofs.Runs

/-!
# The structure that is kept

Inlining adds to blocks and takes nothing away. `Block.Extended` says what a block may become: the
statements it had, in their order, each with other statements in front of it. A statement that was
there keeps everything except its expression, in which some parts may have been replaced by
variables (`Expr.Replaced`), and the blocks inside it, which are extended in turn. What stands in
front of it is a declaration of one variable, or a declaration of one variable without a value
together with the block that assigns to it (`Block.Inserted`). All of these variables are from a
given list of names; for a run of the inliner it is that of the names which were given out.

Nothing is put into the root block, whose statements correspond one to one (`Stmt.RootKept`).
-/

namespace YulInline

section Relations

variable (fresh : List String)

mutual

/-- An expression, and what it is with some of its parts replaced by variables in `fresh`. -/
inductive Expr.Replaced : Expr → Expr → Prop where
  | literal (value : Literal) : Expr.Replaced (.literal value) (.literal value)
  | ident (name : String) : Expr.Replaced (.ident name) (.ident name)
  | instr (op : String) {args args' : List Expr} (hargs : Expr.ReplacedArgs args args') :
    Expr.Replaced (.instr op args) (.instr op args')
  | call (callee : String) {args args' : List Expr} (hargs : Expr.ReplacedArgs args args') :
    Expr.Replaced (.call callee args) (.call callee args')
  /-- The whole expression is replaced. -/
  | variable (e : Expr) {name : String} (hname : name ∈ fresh) : Expr.Replaced e (.ident name)

/-- Arguments, and what they are with some of their parts replaced. -/
inductive Expr.ReplacedArgs : List Expr → List Expr → Prop where
  | nil : Expr.ReplacedArgs [] []
  | cons {arg arg' : Expr} {args args' : List Expr} (harg : Expr.Replaced arg arg')
    (hargs : Expr.ReplacedArgs args args') : Expr.ReplacedArgs (arg :: args) (arg' :: args')

end

/-- Statements that may be put in front of another one. -/
inductive Block.Inserted : List Stmt → Prop where
  | nil : Block.Inserted []
  /-- A variable in `fresh` with its value. -/
  | value {name : String} (type : String) (value : Expr) {stmts : List Stmt} (hname : name ∈ fresh)
    (hstmts : Block.Inserted stmts) :
    Block.Inserted (.declare [⟨name, type⟩] (some value) :: stmts)
  /-- A variable in `fresh` without a value, and a block. -/
  | copy {name : String} (type : String) (body : Block) {stmts : List Stmt} (hname : name ∈ fresh)
    (hstmts : Block.Inserted stmts) :
    Block.Inserted (.declare [⟨name, type⟩] none :: .block body :: stmts)

mutual

/-- A statement, and what it may become in its place. -/
inductive Stmt.Kept : Stmt → Stmt → Prop where
  | expr {value value' : Expr} (hvalue : value.Replaced fresh value') :
    Stmt.Kept (.expr value) (.expr value')
  | assign (targets : List String) {value value' : Expr} (hvalue : value.Replaced fresh value') :
    Stmt.Kept (.assign targets value) (.assign targets value')
  | empty (vars : List TypedName) : Stmt.Kept (.declare vars none) (.declare vars none)
  | declare (vars : List TypedName) {value value' : Expr} (hvalue : value.Replaced fresh value') :
    Stmt.Kept (.declare vars (some value)) (.declare vars (some value'))
  | branch {condition condition' : Expr} {body body' : Block}
    (hcondition : condition.Replaced fresh condition') (hbody : Block.Extended body body') :
    Stmt.Kept (.branch condition body) (.branch condition' body')
  | switch {scrutinee scrutinee' : Expr} {cases cases' : List Case}
    (hscrutinee : scrutinee.Replaced fresh scrutinee') (hcases : Case.Kept cases cases') :
    Stmt.Kept (.switch scrutinee cases) (.switch scrutinee' cases')
  /-- The condition of a loop is not touched. -/
  | loop (condition : Expr) {init init' step step' body body' : Block}
    (hinit : Block.Extended init init') (hstep : Block.Extended step step')
    (hbody : Block.Extended body body') :
    Stmt.Kept (.loop init condition step body) (.loop init' condition step' body')
  | block {body body' : Block} (hbody : Block.Extended body body') :
    Stmt.Kept (.block body) (.block body')

/-- The cases of a `switch`, and what they may become. -/
inductive Case.Kept : List Case → List Case → Prop where
  | nil : Case.Kept [] []
  | cons (value : Option Literal) {body body' : Block} {cases cases' : List Case}
    (hbody : Block.Extended body body') (hcases : Case.Kept cases cases') :
    Case.Kept (⟨value, body⟩ :: cases) (⟨value, body'⟩ :: cases')

/-- A block, and what it may become. -/
inductive Block.Extended : List Stmt → List Stmt → Prop where
  | nil : Block.Extended [] []
  | cons {stmt stmt' : Stmt} {inserted stmts stmts' : List Stmt}
    (hinserted : Block.Inserted fresh inserted) (hstmt : Stmt.Kept stmt stmt')
    (hstmts : Block.Extended stmts stmts') :
    Block.Extended (stmt :: stmts) (inserted ++ stmt' :: stmts')

end

/-- A statement of the root block, and what it may become. -/
inductive Stmt.RootKept : Stmt → Stmt → Prop where
  | define {function : FunctionDef} {body : Block}
    (hbody : Block.Extended fresh function.body body) :
    Stmt.RootKept (.define function) (.define { function with body })
  | block {body body' : Block} (hbody : Block.Extended fresh body body') :
    Stmt.RootKept (.block body) (.block body')

end Relations

/-! ## What an expansion keeps -/

variable {module : Block} {caller : String} {fresh : List String}

theorem Block.Inserted.append {front back : List Stmt} (hfront : Block.Inserted fresh front)
    (hback : Block.Inserted fresh back) : Block.Inserted fresh (front ++ back) := by
  induction hfront with
  | nil => exact hback
  | value type value hname _ ih => exact .value type value hname ih
  | copy type body hname _ ih => exact .copy type body hname ih

mutual

/-- What is hoisted out of an expression may stand in front of its statement, and the expression
keeps everything else, if all names that are given out are in `fresh`. -/
theorem Expr.Expands.keeps {e e' : Expr} {hoisted : List Stmt} {t : Trace} :
    Expr.Expands module caller e hoisted e' t → t.names ⊆ fresh →
      e.Replaced fresh e' ∧ Block.Inserted fresh hoisted
  | .literal value, _ => ⟨.literal value, .nil⟩
  | .ident name, _ => ⟨.ident name, .nil⟩
  | .instr op hargs, hfresh => by
    obtain ⟨hreplaced, hinserted⟩ := hargs.keeps hfresh
    exact ⟨.instr op hreplaced, hinserted⟩
  | .kept _ _ _ hargs, hfresh => by
    obtain ⟨hreplaced, hinserted⟩ := hargs.keeps hfresh
    exact ⟨.call _ hreplaced, hinserted⟩
  | .expanded _ _ _ hargs _, hfresh => by
    rw [Trace.names_append, List.append_subset, List.cons_subset] at hfresh
    obtain ⟨-, hinserted⟩ := hargs.keeps hfresh.1
    exact ⟨.variable _ hfresh.2.1, hinserted.append (.copy _ _ hfresh.2.1 .nil)⟩

theorem Expr.ExpandsArgs.keeps {types : List String} {toFront : Bool} {args args' : List Expr}
    {hoisted : List Stmt} {t : Trace} :
    Expr.ExpandsArgs module caller types toFront args hoisted args' t → t.names ⊆ fresh →
      Expr.ReplacedArgs fresh args args' ∧ Block.Inserted fresh hoisted
  | .nil _ _, _ => ⟨.nil, .nil⟩
  | .stays harg hargs, hfresh => by
    rw [Trace.names_append, List.append_subset] at hfresh
    obtain ⟨hreplaced, -⟩ := harg.keeps hfresh.1
    obtain ⟨hrest, hlater⟩ := hargs.keeps hfresh.2
    exact ⟨.cons hreplaced hrest, hlater⟩
  | .holder harg _ hargs, hfresh => by
    rw [Trace.names_append, List.append_subset] at hfresh
    obtain ⟨hreplaced, hinserted⟩ := harg.keeps hfresh.1
    obtain ⟨hrest, hlater⟩ := hargs.keeps hfresh.2
    exact ⟨.cons hreplaced hrest, hlater.append hinserted⟩
  | .bound harg _ hargs, hfresh => by
    rw [Trace.names_append, Trace.names_append, List.append_subset, List.append_subset,
      List.cons_subset] at hfresh
    obtain ⟨⟨hfirst, hname, -⟩, hothers⟩ := hfresh
    obtain ⟨-, hinserted⟩ := harg.keeps hfirst
    obtain ⟨hrest, hlater⟩ := hargs.keeps hothers
    exact ⟨.cons (.variable _ hname) hrest, hlater.append (hinserted.append (.value _ _ hname .nil))⟩

end

mutual

/-- A statement that is expanded completely keeps its place, with statements in front of it. -/
theorem Stmt.Expands.keeps {stmt stmt' : Stmt} {hoisted : List Stmt} {t : Trace} :
    Stmt.Expands module caller stmt hoisted stmt' t → t.complete = true → t.names ⊆ fresh →
      stmt.Kept fresh stmt' ∧ Block.Inserted fresh hoisted
  | .untouched _, h, _ => by simp at h
  | .expr hvalue, _, hfresh => by
    obtain ⟨hreplaced, hinserted⟩ := hvalue.keeps hfresh
    exact ⟨.expr hreplaced, hinserted⟩
  | .assign targets hvalue, _, hfresh => by
    obtain ⟨hreplaced, hinserted⟩ := hvalue.keeps hfresh
    exact ⟨.assign targets hreplaced, hinserted⟩
  | .empty vars, _, _ => ⟨.empty vars, .nil⟩
  | .declare vars hvalue, _, hfresh => by
    obtain ⟨hreplaced, hinserted⟩ := hvalue.keeps hfresh
    exact ⟨.declare vars hreplaced, hinserted⟩
  | .branch hcondition hbody, h, hfresh => by
    rw [Trace.complete_append] at h
    rw [Trace.names_append, List.append_subset] at hfresh
    obtain ⟨hreplaced, hinserted⟩ := hcondition.keeps hfresh.1
    exact ⟨.branch hreplaced (hbody.keeps h.2 hfresh.2), hinserted⟩
  | .switch hscrutinee hcases, h, hfresh => by
    rw [Trace.complete_append] at h
    rw [Trace.names_append, List.append_subset] at hfresh
    obtain ⟨hreplaced, hinserted⟩ := hscrutinee.keeps hfresh.1
    exact ⟨.switch hreplaced (hcases.keeps h.2 hfresh.2), hinserted⟩
  | .loop condition hinit hstep hbody, h, hfresh => by
    rw [Trace.complete_append, Trace.complete_append] at h
    rw [Trace.names_append, Trace.names_append, List.append_subset, List.append_subset] at hfresh
    exact ⟨.loop condition (hinit.keeps h.1.1 hfresh.1.1) (hstep.keeps h.1.2 hfresh.1.2)
      (hbody.keeps h.2 hfresh.2), .nil⟩
  | .block hbody, h, hfresh => ⟨.block (hbody.keeps h hfresh), .nil⟩

theorem Case.Expands.keeps {cases cases' : List Case} {t : Trace} :
    Case.Expands module caller cases cases' t → t.complete = true → t.names ⊆ fresh →
      Case.Kept fresh cases cases'
  | .nil, _, _ => .nil
  | .cons value hbody hcases, h, hfresh => by
    rw [Trace.complete_append] at h
    rw [Trace.names_append, List.append_subset] at hfresh
    exact .cons value (hbody.keeps h.1 hfresh.1) (hcases.keeps h.2 hfresh.2)

theorem Block.Expands.keeps {block block' : Block} {t : Trace} :
    Block.Expands module caller block block' t → t.complete = true → t.names ⊆ fresh →
      Block.Extended fresh block block'
  | .nil, _, _ => .nil
  | .cons hstmt hstmts, h, hfresh => by
    rw [Trace.complete_append] at h
    rw [Trace.names_append, List.append_subset] at hfresh
    obtain ⟨hkept, hinserted⟩ := hstmt.keeps h.1 hfresh.1
    exact .cons hinserted hkept (hstmts.keeps h.2 hfresh.2)
  | .hold _ _, h, _ => by
    simp [Trace.onHold] at h

end

/-- The same for a statement of the root block. -/
theorem Stmt.RootExpands.keeps {stmt stmt' : Stmt} {t : Trace} (h : stmt.RootExpands module stmt' t)
    (hcomplete : t.complete = true) (hfresh : t.names ⊆ fresh)
    (hbody : ∃ body, stmt.body? = some body) : stmt.RootKept fresh stmt' := by
  cases h with
  | block hexpands => exact .block (hexpands.keeps hcomplete hfresh)
  | define hexpands => exact .define (hexpands.keeps hcomplete hfresh)
  | other hnone =>
    obtain ⟨body, hsome⟩ := hbody
    rw [hnone] at hsome
    cases hsome

/-! ## Whole runs -/

/-- Inlining keeps the statements of the root block, and extends the blocks in them by declarations
of variables that were given out and by copies of bodies. -/
theorem inline_keeps_structure {result : Block} {names after : NameSupply}
    (hinline : inline module names = .ok (result, after)) :
    ∃ fresh, Dispensed names fresh after ∧ List.Forall₂ (Stmt.RootKept fresh) module result := by
  have hspec := inline_spec module names
  rw [hinline] at hspec
  obtain ⟨final, own, h, rfl, rfl, -⟩ := hspec
  refine ⟨_, h.names, List.forall₂_iff_get.mpr ⟨h.length.symm, fun i hi hi' => ?_⟩⟩
  obtain ⟨stmt, stmt', hstmt, hstmt', hroot, hcomplete⟩ := h.complete i hi
  obtain rfl : module[i] = stmt :=
    Option.some.inj ((List.getElem?_eq_getElem hi).symm.trans hstmt)
  obtain rfl : final.module[i] = stmt' :=
    Option.some.inj ((List.getElem?_eq_getElem hi').symm.trans hstmt')
  refine hroot.keeps hcomplete (fun name hname => ?_) (h.bodies _ (List.getElem_mem hi))
  exact List.mem_flatMap.mpr ⟨i, List.mem_range.mpr hi, hname⟩

/-- A function, and a block that calls it in a loop, in its condition and in its body. -/
def nestedCalls : Block :=
  [.define ⟨"f", [⟨"x", "u8"⟩], [⟨"r", ""⟩], [.assign ["r"] (.ident "x")]⟩,
    .block
      [.loop [] (.call "f" [.literal ⟨.number, "1", ""⟩]) []
        [.branch (.call "f" [.call "f" [.literal ⟨.number, "2", ""⟩]])
          [.expr (.instr "stop" [])]]]]

theorem inline_keeps_structure_nestedCalls :
    ∃ result after, inline nestedCalls (.ofBlock nestedCalls) = .ok (result, after) ∧
      ∃ fresh, Dispensed (.ofBlock nestedCalls) fresh after ∧
        List.Forall₂ (Stmt.RootKept fresh) nestedCalls result := by
  have hsucceeds : (inline nestedCalls (.ofBlock nestedCalls)).isOk = true := by decide +kernel
  cases hinline : inline nestedCalls (.ofBlock nestedCalls) with
  | error error =>
    rw [hinline] at hsucceeds
    cases hsucceeds
  | ok output => exact ⟨output.1, output.2, rfl, inline_keeps_structure hinline⟩

end YulInline
