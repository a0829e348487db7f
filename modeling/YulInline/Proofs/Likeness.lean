import YulInline.Inliner.BodyCopy
import Mathlib.Data.List.Forall2
import Mathlib.Logic.Equiv.Basic

/-!
# Trees that are alike

Two trees are alike if they differ in the spelling of names only. `Block.Alike twins` says which
names stand in the place of which: every name in one tree and its counterpart in the other are a
pair in `twins`. Functions are called the same in both, down to their parameters and return
variables. As long as equal names have equal counterparts and different ones have different
(`Twins.Faithful`), a bijection of all names turns the one tree into the other, `Block.mapNames`.

The pairs only become more in the course of a run, and what is alike stays alike when there are
more.
-/

namespace YulInline

/-- The names that correspond to each other in two trees. -/
abbrev Twins := List (String × String)

/-- Names are equal exactly if their counterparts are. -/
def Twins.Faithful (twins : Twins) : Prop :=
  ∀ p ∈ twins, ∀ q ∈ twins, p.1 = q.1 ↔ p.2 = q.2

section Alike

variable (twins : Twins)

/-- Lists of names that correspond to each other. -/
def Twins.Names : List String → List String → Prop :=
  List.Forall₂ fun name name' => (name, name') ∈ twins

/-- Variables with the same type whose names correspond to each other. -/
structure TypedName.Alike (var var' : TypedName) : Prop where
  name : (var.name, var'.name) ∈ twins
  type : var'.type = var.type

/-- The names in the head of a function are their own counterparts. -/
def FunctionDef.OwnTwins (function : FunctionDef) : Prop :=
  (function.name, function.name) ∈ twins ∧
    ∀ var ∈ function.params ++ function.returns, (var.name, var.name) ∈ twins

mutual

/-- Expressions that differ in the names of variables only. -/
inductive Expr.Alike : Expr → Expr → Prop where
  | literal (value : Literal) : Expr.Alike (.literal value) (.literal value)
  | ident {name name' : String} (hname : (name, name') ∈ twins) :
    Expr.Alike (.ident name) (.ident name')
  | instr (op : String) {args args' : List Expr} (hargs : Expr.AlikeArgs args args') :
    Expr.Alike (.instr op args) (.instr op args')
  | call {callee : String} {args args' : List Expr} (hcallee : (callee, callee) ∈ twins)
    (hargs : Expr.AlikeArgs args args') : Expr.Alike (.call callee args) (.call callee args')

/-- Arguments that differ in the names of variables only. -/
inductive Expr.AlikeArgs : List Expr → List Expr → Prop where
  | nil : Expr.AlikeArgs [] []
  | cons {arg arg' : Expr} {args args' : List Expr} (harg : Expr.Alike arg arg')
    (hargs : Expr.AlikeArgs args args') : Expr.AlikeArgs (arg :: args) (arg' :: args')

end

mutual

/-- Statements that differ in the names of variables only. -/
inductive Stmt.Alike : Stmt → Stmt → Prop where
  | expr {value value' : Expr} (hvalue : value.Alike twins value') :
    Stmt.Alike (.expr value) (.expr value')
  | assign {targets targets' : List String} {value value' : Expr}
    (htargets : twins.Names targets targets') (hvalue : value.Alike twins value') :
    Stmt.Alike (.assign targets value) (.assign targets' value')
  | empty {vars vars' : List TypedName} (hvars : List.Forall₂ (TypedName.Alike twins) vars vars') :
    Stmt.Alike (.declare vars none) (.declare vars' none)
  | declare {vars vars' : List TypedName} {value value' : Expr}
    (hvars : List.Forall₂ (TypedName.Alike twins) vars vars')
    (hvalue : value.Alike twins value') :
    Stmt.Alike (.declare vars (some value)) (.declare vars' (some value'))
  | define {function : FunctionDef} {body : Block} (hown : function.OwnTwins twins)
    (hbody : Block.Alike function.body body) :
    Stmt.Alike (.define function) (.define { function with body })
  | branch {condition condition' : Expr} {body body' : Block}
    (hcondition : condition.Alike twins condition') (hbody : Block.Alike body body') :
    Stmt.Alike (.branch condition body) (.branch condition' body')
  | switch {scrutinee scrutinee' : Expr} {cases cases' : List Case}
    (hscrutinee : scrutinee.Alike twins scrutinee') (hcases : Case.Alike cases cases') :
    Stmt.Alike (.switch scrutinee cases) (.switch scrutinee' cases')
  | loop {condition condition' : Expr} {init init' step step' body body' : Block}
    (hinit : Block.Alike init init') (hcondition : condition.Alike twins condition')
    (hstep : Block.Alike step step') (hbody : Block.Alike body body') :
    Stmt.Alike (.loop init condition step body) (.loop init' condition' step' body')
  | block {body body' : Block} (hbody : Block.Alike body body') :
    Stmt.Alike (.block body) (.block body')

/-- Cases that differ in the names of variables only. -/
inductive Case.Alike : List Case → List Case → Prop where
  | nil : Case.Alike [] []
  | cons (value : Option Literal) {body body' : Block} {cases cases' : List Case}
    (hbody : Block.Alike body body') (hcases : Case.Alike cases cases') :
    Case.Alike (⟨value, body⟩ :: cases) (⟨value, body'⟩ :: cases')

/-- Blocks that differ in the names of variables only. -/
inductive Block.Alike : List Stmt → List Stmt → Prop where
  | nil : Block.Alike [] []
  | cons {stmt stmt' : Stmt} {stmts stmts' : List Stmt} (hstmt : Stmt.Alike stmt stmt')
    (hstmts : Block.Alike stmts stmts') : Block.Alike (stmt :: stmts) (stmt' :: stmts')

end

/-- Functions that differ in the names of the variables in their bodies only. -/
def FunctionDef.Alike (function function' : FunctionDef) : Prop :=
  Stmt.Alike twins (.define function) (.define function')

end Alike

variable {twins later : Twins}

/-! ## More names -/

theorem Twins.Names.mono (h : twins ⊆ later) {names names' : List String}
    (hnames : twins.Names names names') : later.Names names names' :=
  List.Forall₂.imp (fun _ _ hname => h hname) hnames

theorem TypedName.Alike.mono_all (h : twins ⊆ later) {vars vars' : List TypedName}
    (hvars : List.Forall₂ (TypedName.Alike twins) vars vars') :
    List.Forall₂ (TypedName.Alike later) vars vars' :=
  hvars.imp fun _ _ hvar => ⟨h hvar.name, hvar.type⟩

theorem FunctionDef.OwnTwins.mono (h : twins ⊆ later) {function : FunctionDef}
    (hown : function.OwnTwins twins) : function.OwnTwins later :=
  ⟨h hown.1, fun var hvar => h (hown.2 var hvar)⟩

mutual

/-- What is alike stays alike when more names correspond to each other. -/
theorem Expr.Alike.mono (h : twins ⊆ later) {e e' : Expr} :
    Expr.Alike twins e e' → Expr.Alike later e e'
  | .literal value => .literal value
  | .ident hname => .ident (h hname)
  | .instr op hargs => .instr op (hargs.mono h)
  | .call hcallee hargs => .call (h hcallee) (hargs.mono h)

theorem Expr.AlikeArgs.mono (h : twins ⊆ later) {args args' : List Expr} :
    Expr.AlikeArgs twins args args' → Expr.AlikeArgs later args args'
  | .nil => .nil
  | .cons harg hargs => .cons (harg.mono h) (hargs.mono h)

end

mutual

theorem Stmt.Alike.mono (h : twins ⊆ later) {stmt stmt' : Stmt} :
    Stmt.Alike twins stmt stmt' → Stmt.Alike later stmt stmt'
  | .expr hvalue => .expr (hvalue.mono h)
  | .assign htargets hvalue => .assign (htargets.mono h) (hvalue.mono h)
  | .empty hvars => .empty (TypedName.Alike.mono_all h hvars)
  | .declare hvars hvalue => .declare (TypedName.Alike.mono_all h hvars) (hvalue.mono h)
  | .define hown hbody => .define (hown.mono h) (hbody.mono h)
  | .branch hcondition hbody => .branch (hcondition.mono h) (hbody.mono h)
  | .switch hscrutinee hcases => .switch (hscrutinee.mono h) (hcases.mono h)
  | .loop hinit hcondition hstep hbody =>
    .loop (hinit.mono h) (hcondition.mono h) (hstep.mono h) (hbody.mono h)
  | .block hbody => .block (hbody.mono h)

theorem Case.Alike.mono (h : twins ⊆ later) {cases cases' : List Case} :
    Case.Alike twins cases cases' → Case.Alike later cases cases'
  | .nil => .nil
  | .cons value hbody hcases => .cons value (hbody.mono h) (hcases.mono h)

theorem Block.Alike.mono (h : twins ⊆ later) {block block' : Block} :
    Block.Alike twins block block' → Block.Alike later block block'
  | .nil => .nil
  | .cons hstmt hstmts => .cons (hstmt.mono h) (hstmts.mono h)

end

/-! ## A tree is like itself -/

theorem TypedName.alike_self {vars : List TypedName}
    (h : ∀ name ∈ vars.map (·.name), (name, name) ∈ twins) :
    List.Forall₂ (TypedName.Alike twins) vars vars :=
  List.forall₂_same.mpr fun _ hvar => ⟨h _ (List.mem_map_of_mem hvar), rfl⟩

mutual

/-- A tree is like itself if every name in it is its own counterpart. -/
theorem Expr.alike_self : ∀ e : Expr, (∀ name ∈ e.names, (name, name) ∈ twins) →
    Expr.Alike twins e e
  | .literal value, _ => .literal value
  | .ident name, h => .ident (h name (by simp [Expr.names]))
  | .instr op args, h => by
    rw [Expr.names] at h
    exact .instr op (Expr.alikeArgs_self args h)
  | .call callee args, h => by
    rw [Expr.names, List.forall_mem_cons] at h
    exact .call h.1 (Expr.alikeArgs_self args h.2)

theorem Expr.alikeArgs_self : ∀ args : List Expr,
    (∀ name ∈ Expr.namesOfArgs args, (name, name) ∈ twins) → Expr.AlikeArgs twins args args
  | [], _ => .nil
  | arg :: args, h => by
    rw [Expr.namesOfArgs, List.forall_mem_append] at h
    exact .cons (Expr.alike_self arg h.1) (Expr.alikeArgs_self args h.2)

end

mutual

theorem Stmt.alike_self : ∀ stmt : Stmt, (∀ name ∈ stmt.names, (name, name) ∈ twins) →
    Stmt.Alike twins stmt stmt
  | .expr value, h => by
    rw [Stmt.names] at h
    exact .expr (Expr.alike_self value h)
  | .assign targets value, h => by
    rw [Stmt.names, List.forall_mem_append] at h
    exact .assign (List.forall₂_same.mpr h.1) (Expr.alike_self value h.2)
  | .declare vars none, h => by
    rw [Stmt.names, List.forall_mem_append] at h
    exact .empty (TypedName.alike_self h.1)
  | .declare vars (some value), h => by
    rw [Stmt.names, List.forall_mem_append] at h
    exact .declare (TypedName.alike_self h.1) (Expr.alike_self value h.2)
  | .define ⟨name, params, returns, body⟩, h => by
    rw [Stmt.names, List.forall_mem_cons, List.forall_mem_append, ← List.map_append] at h
    have hown : FunctionDef.OwnTwins twins ⟨name, params, returns, body⟩ :=
      ⟨h.1, fun var hvar => h.2.1 _ (List.mem_map_of_mem hvar)⟩
    exact .define hown (Block.alike_self body h.2.2)
  | .branch condition body, h => by
    rw [Stmt.names, List.forall_mem_append] at h
    exact .branch (Expr.alike_self condition h.1) (Block.alike_self body h.2)
  | .switch scrutinee cases, h => by
    rw [Stmt.names, List.forall_mem_append] at h
    exact .switch (Expr.alike_self scrutinee h.1) (Case.alike_self cases h.2)
  | .loop init condition step body, h => by
    simp only [Stmt.names, List.forall_mem_append] at h
    exact .loop (Block.alike_self init h.1.1.1) (Expr.alike_self condition h.1.1.2)
      (Block.alike_self step h.1.2) (Block.alike_self body h.2)
  | .block body, h => by
    rw [Stmt.names] at h
    exact .block (Block.alike_self body h)

theorem Case.alike_self : ∀ cases : List Case,
    (∀ name ∈ Case.namesOfCases cases, (name, name) ∈ twins) → Case.Alike twins cases cases
  | [], _ => .nil
  | ⟨value, body⟩ :: cases, h => by
    rw [Case.namesOfCases, List.forall_mem_append] at h
    exact .cons value (Block.alike_self body h.1) (Case.alike_self cases h.2)

theorem Block.alike_self : ∀ block : Block,
    (∀ name ∈ Block.names block, (name, name) ∈ twins) → Block.Alike twins block block
  | [], _ => .nil
  | stmt :: stmts, h => by
    rw [Block.names, List.forall_mem_append] at h
    exact .cons (Stmt.alike_self stmt h.1) (Block.alike_self stmts h.2)

end

/-! ## What alike trees share -/

theorem Expr.Alike.ident?_isSome {e e' : Expr} (h : Expr.Alike twins e e') :
    e'.ident?.isSome = e.ident?.isSome := by
  cases h <;> rfl

theorem Expr.AlikeArgs.length {args args' : List Expr} (h : Expr.AlikeArgs twins args args') :
    args'.length = args.length := by
  induction args generalizing args' with
  | nil =>
    cases h
    rfl
  | cons arg args ih =>
    cases h with
    | cons _ hargs => rw [List.length_cons, List.length_cons, ih hargs]

theorem Block.Alike.isEmpty {block block' : Block} (h : Block.Alike twins block block') :
    block'.isEmpty = block.isEmpty := by
  cases h <;> rfl

theorem Block.Alike.append {front front' back back' : Block}
    (hfront : Block.Alike twins front front') (hback : Block.Alike twins back back') :
    Block.Alike twins (front ++ back) (front' ++ back') := by
  induction front generalizing front' with
  | nil =>
    cases hfront
    exact hback
  | cons stmt stmts ih =>
    cases hfront with
    | cons hstmt hstmts => exact .cons hstmt (ih hstmts)

/-- Blocks are alike if their statements are, one by one. -/
theorem Block.alike_iff_forall₂ {block block' : Block} :
    Block.Alike twins block block' ↔ List.Forall₂ (Stmt.Alike twins) block block' := by
  constructor
  · intro h
    induction block generalizing block' with
    | nil =>
      cases h
      exact .nil
    | cons stmt stmts ih =>
      cases h with
      | cons hstmt hstmts => exact .cons hstmt (ih hstmts)
  · intro h
    induction h with
    | nil => exact .nil
    | cons hstmt _ ih => exact .cons hstmt ih

/-! ## Renaming everything -/

section MapNames

variable (f : String → String)

mutual

/-- The expression with all names in it replaced, those of functions too. -/
def Expr.mapNames : Expr → Expr
  | .literal value => .literal value
  | .ident name => .ident (f name)
  | .instr op args => .instr op (Expr.mapNamesOfArgs args)
  | .call callee args => .call (f callee) (Expr.mapNamesOfArgs args)

/-- The arguments with all names in them replaced. -/
def Expr.mapNamesOfArgs : List Expr → List Expr
  | [] => []
  | arg :: args => Expr.mapNames arg :: Expr.mapNamesOfArgs args

end

/-- The variable under another name. -/
def TypedName.mapName (var : TypedName) : TypedName :=
  { var with name := f var.name }

mutual

/-- The statement with all names in it replaced. -/
def Stmt.mapNames : Stmt → Stmt
  | .expr value => .expr (value.mapNames f)
  | .assign targets value => .assign (targets.map f) (value.mapNames f)
  | .declare vars value =>
    .declare (vars.map (TypedName.mapName f)) (value.map (Expr.mapNames f))
  | .define ⟨name, params, returns, body⟩ =>
    .define ⟨f name, params.map (TypedName.mapName f), returns.map (TypedName.mapName f),
      Block.mapNames body⟩
  | .branch condition body => .branch (condition.mapNames f) (Block.mapNames body)
  | .switch scrutinee cases => .switch (scrutinee.mapNames f) (Case.mapNames cases)
  | .loop init condition step body =>
    .loop (Block.mapNames init) (condition.mapNames f) (Block.mapNames step) (Block.mapNames body)
  | .block body => .block (Block.mapNames body)

/-- The cases with all names in them replaced. -/
def Case.mapNames : List Case → List Case
  | [] => []
  | ⟨value, body⟩ :: cases => ⟨value, Block.mapNames body⟩ :: Case.mapNames cases

/-- The block with all names in it replaced. -/
def Block.mapNames : List Stmt → List Stmt
  | [] => []
  | stmt :: stmts => Stmt.mapNames stmt :: Block.mapNames stmts

end

variable {f}

theorem Twins.Names.eq_map (hf : ∀ p ∈ twins, f p.1 = p.2) {names names' : List String}
    (h : twins.Names names names') : names' = names.map f := by
  induction h with
  | nil => rfl
  | cons hname _ ih => rw [List.map_cons, hf _ hname, ← ih]

theorem TypedName.Alike.eq_mapName (hf : ∀ p ∈ twins, f p.1 = p.2) {vars vars' : List TypedName}
    (h : List.Forall₂ (TypedName.Alike twins) vars vars') :
    vars' = vars.map (TypedName.mapName f) := by
  induction h with
  | nil => rfl
  | @cons var var' _ _ hvar _ ih =>
    have heq : var' = var.mapName f := by
      cases var'
      rw [mapName, hf _ hvar.name, ← hvar.type]
    rw [List.map_cons, ← heq, ← ih]

/-- Variables that are their own counterparts keep their names. -/
theorem TypedName.map_mapName_self (hf : ∀ p ∈ twins, f p.1 = p.2) {vars : List TypedName}
    (h : ∀ var ∈ vars, (var.name, var.name) ∈ twins) : vars.map (TypedName.mapName f) = vars :=
  (Alike.eq_mapName hf (List.forall₂_same.mpr fun _ hvar => ⟨h _ hvar, rfl⟩)).symm

mutual

/-- A map that takes every name to its counterpart takes a tree to those that are like it. -/
theorem Expr.Alike.eq_mapNames (hf : ∀ p ∈ twins, f p.1 = p.2) {e e' : Expr} :
    Expr.Alike twins e e' → e' = e.mapNames f
  | .literal _ => by rw [Expr.mapNames]
  | .ident hname => by rw [Expr.mapNames, hf _ hname]
  | .instr _ hargs => by rw [Expr.mapNames, ← hargs.eq_mapNames hf]
  | .call hcallee hargs => by rw [Expr.mapNames, hf _ hcallee, ← hargs.eq_mapNames hf]

theorem Expr.AlikeArgs.eq_mapNames (hf : ∀ p ∈ twins, f p.1 = p.2) {args args' : List Expr} :
    Expr.AlikeArgs twins args args' → args' = Expr.mapNamesOfArgs f args
  | .nil => rfl
  | .cons harg hargs => by
    rw [Expr.mapNamesOfArgs, ← harg.eq_mapNames hf, ← hargs.eq_mapNames hf]

end

mutual

theorem Stmt.Alike.eq_mapNames (hf : ∀ p ∈ twins, f p.1 = p.2) {stmt stmt' : Stmt} :
    Stmt.Alike twins stmt stmt' → stmt' = stmt.mapNames f
  | .expr hvalue => by
    rw [Stmt.mapNames, ← hvalue.eq_mapNames hf]
  | .assign htargets hvalue => by
    rw [Stmt.mapNames, ← htargets.eq_map hf, ← hvalue.eq_mapNames hf]
  | .empty hvars => by
    rw [Stmt.mapNames, ← TypedName.Alike.eq_mapName hf hvars]
    rfl
  | .declare hvars hvalue => by
    rw [Stmt.mapNames, ← TypedName.Alike.eq_mapName hf hvars, Option.map_some,
      ← hvalue.eq_mapNames hf]
  | @Stmt.Alike.define _ ⟨name, params, returns, body⟩ _ hown hbody => by
    obtain ⟨hname, hvars⟩ := hown
    rw [List.forall_mem_append] at hvars
    rw [Stmt.mapNames, hf _ hname, TypedName.map_mapName_self hf hvars.1,
      TypedName.map_mapName_self hf hvars.2, ← hbody.eq_mapNames hf]
  | .branch hcondition hbody => by
    rw [Stmt.mapNames, ← hcondition.eq_mapNames hf, ← hbody.eq_mapNames hf]
  | .switch hscrutinee hcases => by
    rw [Stmt.mapNames, ← hscrutinee.eq_mapNames hf, ← hcases.eq_mapNames hf]
  | .loop hinit hcondition hstep hbody => by
    rw [Stmt.mapNames, ← hinit.eq_mapNames hf, ← hcondition.eq_mapNames hf,
      ← hstep.eq_mapNames hf, ← hbody.eq_mapNames hf]
  | .block hbody => by
    rw [Stmt.mapNames, ← hbody.eq_mapNames hf]

theorem Case.Alike.eq_mapNames (hf : ∀ p ∈ twins, f p.1 = p.2) {cases cases' : List Case} :
    Case.Alike twins cases cases' → cases' = Case.mapNames f cases
  | .nil => rfl
  | .cons _ hbody hcases => by
    rw [Case.mapNames, ← hbody.eq_mapNames hf, ← hcases.eq_mapNames hf]

theorem Block.Alike.eq_mapNames (hf : ∀ p ∈ twins, f p.1 = p.2) {block block' : Block} :
    Block.Alike twins block block' → block' = Block.mapNames f block
  | .nil => rfl
  | .cons hstmt hstmts => by
    rw [Block.mapNames, ← hstmt.eq_mapNames hf, ← hstmts.eq_mapNames hf]

end

end MapNames

/-- Where the counterparts of equal names, and only those, are equal, some bijection of all names
takes every name to its counterpart. -/
theorem Twins.Faithful.exists_perm (h : twins.Faithful) :
    ∃ π : Equiv.Perm String, ∀ p ∈ twins, π p.1 = p.2 := by
  induction twins with
  | nil => exact ⟨Equiv.refl String, by simp⟩
  | cons q twins ih =>
    obtain ⟨π, hπ⟩ := ih fun p hp r hr =>
      h p (List.mem_cons_of_mem q hp) r (List.mem_cons_of_mem q hr)
    -- What `q` is taken to so far changes places with its counterpart.
    refine ⟨π.trans (Equiv.swap (π q.1) q.2), fun p hp => ?_⟩
    rw [Equiv.trans_apply]
    rcases List.mem_cons.mp hp with rfl | hmem
    · exact Equiv.swap_apply_left ..
    · have hsame := h p hp q (List.mem_cons_self ..)
      by_cases heq : p.1 = q.1
      · rw [heq, Equiv.swap_apply_left, hsame.mp heq]
      · rw [Equiv.swap_apply_of_ne_of_ne, hπ p hmem]
        · exact fun hne => heq (π.injective hne)
        · rw [hπ p hmem]
          exact fun hne => heq (hsame.mpr hne)

end YulInline
