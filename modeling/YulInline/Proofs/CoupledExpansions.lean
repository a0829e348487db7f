import YulInline.Proofs.Visits

/-!
# Expansions that demand functions in two ways

Apart from demanding functions and changing its body, an expansion reads the module, gives out names
and logs what it has expanded: such steps are `InlineM.Still`. So what is to be shown of all that an
expansion does to the root block and to the pending functions is shown of the demands and the
changes.

This is said of two expansions of a body that differ in how they demand functions: what relates the
two ways of demanding relates the expansions, provided that the relation survives sequencing and
relates all other steps to themselves (`Site.Paired` for expressions, `Site.Coupled` for bodies).
Relations are marked with the functions that are demanded on the way. Those of an expression are the
functions that its calls are of, in the order in which the calls are met; what a visit of a body
demands depends on what it reads, so that a relation has to hold there whatever is demanded.
-/

namespace YulInline

namespace InlineM

variable {α β : Type} {rel : Inliner → Inliner → Prop}

/-- However the computation ends, the states before and after it are related. -/
def Ends (rel : Inliner → Inliner → Prop) (action : InlineM α) : Prop :=
  ∀ inliner, action.Outcome inliner (fun _ after => rel inliner after) fun _ after =>
    rel inliner after

theorem Ends.mono {rel' : Inliner → Inliner → Prop} {action : InlineM α} (h : action.Ends rel)
    (himp : ∀ before after, rel before after → rel' before after) : action.Ends rel' :=
  fun inliner => (h inliner).mono (fun _ after => himp inliner after) fun _ after =>
    himp inliner after

theorem Ends.bind {action : InlineM α} {next : α → InlineM β} (h : action.Ends rel)
    (hnext : ∀ a, (next a).Ends rel)
    (htrans : ∀ before between after, rel before between → rel between after → rel before after) :
    (action >>= next).Ends rel := by
  intro inliner
  refine (h inliner).bind (fun a between hbetween => ?_) fun _ _ => id
  exact (hnext a between).mono (fun _ after => htrans _ _ after hbetween) fun _ after =>
    htrans _ _ after hbetween

/-- Two sequences do the same if their first parts do, and their second parts do wherever the first
part leads. -/
theorem Outcome.bind_congr {action action' : InlineM α} {next next' : α → InlineM β}
    {inliner : Inliner} {success : α → Inliner → Prop} (heq : action inliner = action' inliner)
    (h : action.Outcome inliner success fun _ _ => True)
    (hnext : ∀ a after, success a after → next a after = next' a after) :
    (action >>= next) inliner = (action' >>= next') inliner := by
  rw [InlineM.Outcome] at h
  cases hrun : action inliner with
  | ok a after =>
    rw [hrun] at h
    rw [bind_of_ok hrun, bind_of_ok (heq.symm.trans hrun)]
    exact hnext a after h
  | error error after => rw [bind_of_error hrun, bind_of_error (heq.symm.trans hrun)]

/-! ## Steps that leave the module alone -/

/-- However the computation ends, it leaves the root block and the pending functions alone. -/
def Still (action : InlineM α) : Prop :=
  action.Ends fun before after => after.module = before.module ∧ after.pending = before.pending

theorem Still.bind {action : InlineM α} {next : α → InlineM β} (h : action.Still)
    (hnext : ∀ a, (next a).Still) : (action >>= next).Still :=
  Ends.bind h hnext fun _ _ _ hbetween hafter =>
    ⟨hafter.1.trans hbetween.1, hafter.2.trans hbetween.2⟩

theorem still_pure (a : α) : (pure a : InlineM α).Still :=
  fun _ => ⟨rfl, rfl⟩

theorem still_throw (error : InlineError) : (throw error : InlineM α).Still :=
  fun _ => ⟨rfl, rfl⟩

theorem still_get : (get : InlineM Inliner).Still :=
  fun _ => ⟨rfl, rfl⟩

theorem still_modify {f : Inliner → Inliner}
    (hf : ∀ inliner, (f inliner).module = inliner.module ∧ (f inliner).pending = inliner.pending) :
    (modify f : InlineM Unit).Still :=
  hf

theorem still_function (name : String) : (function name).Still := by
  intro inliner
  refine (outcome_function inliner name).mono ?_ ?_
  · rintro found after ⟨rfl, -⟩
    exact ⟨rfl, rfl⟩
  · rintro error after ⟨rfl, -⟩
    exact ⟨rfl, rfl⟩

theorem still_freshName (stem : String) : (freshName stem).Still :=
  fun _ => ⟨rfl, rfl⟩

theorem still_copyBlock (rule : CopyRule) (block : Block) : (copyBlock rule block).Still := by
  intro inliner
  rw [InlineM.Outcome]
  cases hdefinitions : Block.gather Stmt.ownDefinition block with
  | nil =>
    rw [copyBlock_eq_ok hdefinitions]
    exact ⟨rfl, rfl⟩
  | cons name later =>
    obtain ⟨names, hcopy⟩ := copyBlock_eq_error hdefinitions
    rw [hcopy]
    exact ⟨rfl, rfl⟩

theorem still_checkArity (function : FunctionDef) (count : Nat) :
    (checkArity function count).Still := by
  rw [checkArity]
  split
  · exact still_pure ()
  · exact still_throw _

theorem still_argumentNames (callee : String) (args : List Expr) :
    (argumentNames callee args).Still := by
  rw [argumentNames]
  induction args with
  | nil => exact still_pure []
  | cons arg args ih =>
    rw [List.mapM_cons]
    refine Still.bind ?_ fun name => ih.bind fun names => still_pure _
    split
    · exact still_pure _
    · exact still_throw _

theorem still_bindArgument (hint type : String) (toFront : Bool) (hoisted : List Stmt)
    (arg : Expr) : (bindArgument hint type toFront hoisted arg).Still := by
  rw [bindArgument]
  split
  · exact still_pure _
  · exact (still_freshName hint).bind fun name => still_pure _

theorem still_expandCall (site : Site) (callee : FunctionDef) (result : TypedName)
    (args : List Expr) : (expandCall site callee result args).Still := by
  rw [expandCall]
  refine (still_argumentNames _ _).bind fun arguments => ?_
  refine (still_freshName _).bind fun name => ?_
  refine (still_function _).bind fun callee => ?_
  refine (still_copyBlock _ _).bind fun body => ?_
  refine Still.bind ?_ fun _ => still_pure _
  exact still_modify fun _ => ⟨rfl, rfl⟩

end InlineM

/-! ## The expansion of an expression -/

open InlineM

/-- What is needed of a relation between computations to hold of the expansions of an expression
that demand functions in two ways. It is marked with the functions that are demanded on the way. -/
structure Site.Paired (site : Site) (demand : String → InlineM Unit)
    (rel : List String → ∀ α : Type, InlineM α → InlineM α → Prop) : Prop where
  /-- It relates steps that leave the module alone to themselves. -/
  still : ∀ {α : Type} {action : InlineM α}, action.Still → rel [] α action action
  /-- It relates failures to themselves, whatever would have been demanded otherwise. -/
  throw : ∀ (wanted : List String) (α : Type) (error : InlineError),
    rel wanted α (throw error) (throw error)
  /-- It relates the two ways of demanding. -/
  demand : ∀ name, rel [name] Unit (site.demand name) (demand name)
  /-- It relates sequences whose parts are related; the demands of the parts add up. -/
  bind : ∀ {wanted wanted' : List String} {α β : Type} {action action' : InlineM α}
    {next next' : α → InlineM β}, rel wanted α action action' →
    (∀ a, rel wanted' β (next a) (next' a)) →
    rel (wanted ++ wanted') β (action >>= next) (action' >>= next')

/-- What is needed of a relation between computations to hold of the expansions of a body. -/
structure Site.Coupled (site : Site) (demand : String → InlineM Unit)
    (rel : List String → ∀ α : Type, InlineM α → InlineM α → Prop) : Prop
    extends site.Paired demand rel where
  /-- It allows the body that is being expanded to be changed. -/
  publish : ∀ body, rel [] Unit (site.publish body) (site.publish body)

section Expand

variable {site : Site} {demand : String → InlineM Unit}
  {rel : List String → ∀ α : Type, InlineM α → InlineM α → Prop}

namespace Site.Paired

variable {wanted : List String} {α β : Type} {action action' : InlineM α}
  {next next' : α → InlineM β}

/-- Nothing is demanded before the second part. -/
theorem before_bind (h : site.Paired demand rel) (haction : rel [] α action action')
    (hnext : ∀ a, rel wanted β (next a) (next' a)) :
    rel wanted β (action >>= next) (action' >>= next') :=
  h.bind haction hnext

/-- Nothing is demanded after the first part. -/
theorem bind_after (h : site.Paired demand rel) (haction : rel wanted α action action')
    (hnext : ∀ a, rel [] β (next a) (next' a)) :
    rel wanted β (action >>= next) (action' >>= next') := by
  have hboth := h.bind haction hnext
  rwa [List.append_nil] at hboth

end Site.Paired

mutual

theorem Expr.expand_coupled (h : site.Paired demand rel) :
    ∀ e : Expr, rel (e.calls.map Prod.fst) _ (e.expand site) (e.expand { site with demand })
  | .literal value => by
    rw [Expr.expand, Expr.expand, Expr.calls]
    exact h.still (still_pure _)
  | .ident name => by
    rw [Expr.expand, Expr.expand, Expr.calls]
    exact h.still (still_pure _)
  | .instr op args => by
    rw [Expr.expand, Expr.expand, Expr.calls]
    exact h.bind_after (Expr.expandArgs_coupled h args [] [] false) fun _ => h.still (still_pure _)
  | .call name args => by
    rw [Expr.expand, Expr.expand, Expr.calls, List.map_cons, ← List.singleton_append]
    refine h.bind (h.demand name) fun _ => ?_
    refine h.before_bind (h.still (still_function name)) fun callee => ?_
    refine h.before_bind (h.still (still_checkArity callee args.length)) fun _ => ?_
    refine h.bind_after (Expr.expandArgs_coupled h args _ _ _) fun _ => h.still ?_
    cases callee.result? site.caller with
    | none => exact still_pure _
    | some result => exact (still_expandCall site callee result _).bind fun _ => still_pure _

theorem Expr.expandArgs_coupled (h : site.Paired demand rel) :
    ∀ (args : List Expr) (hints types : List String) (toFront : Bool),
      rel ((Expr.callsOfArgs args).map Prod.fst) _ (Expr.expandArgs site hints types toFront args)
        (Expr.expandArgs { site with demand } hints types toFront args)
  | [], hints, types, toFront => by
    rw [Expr.expandArgs, Expr.expandArgs, Expr.callsOfArgs]
    exact h.still (still_pure _)
  | arg :: args, hints, types, toFront => by
    rw [Expr.expandArgs, Expr.expandArgs, Expr.callsOfArgs, List.map_append]
    refine h.bind (Expr.expand_coupled h arg) fun _ => ?_
    refine h.before_bind (h.still (still_bindArgument _ _ _ _ _)) fun _ => ?_
    exact h.bind_after (Expr.expandArgs_coupled h args _ _ _) fun _ => h.still (still_pure _)

end

end Expand

/-! ## The visit of a body -/

section Visit

theorem Site.still_block (site : Site) (path : BlockPath) : (site.block path).Still := by
  rw [Site.block]
  refine still_get.bind fun inliner => ?_
  split
  · exact still_pure _
  · exact still_throw _

theorem Site.still_statement (site : Site) (path : BlockPath) (index : Nat) :
    (site.statement path index).Still := by
  rw [Site.statement]
  refine (site.still_block path).bind fun block => ?_
  split
  · exact still_pure _
  · exact still_throw _

variable {site : Site} {demand : String → InlineM Unit}
  {rel : ∀ α : Type, InlineM α → InlineM α → Prop}

/-- What is demanded does not matter. -/
theorem Site.Paired.sequence {α β : Type} {action action' : InlineM α} {next next' : α → InlineM β}
    (h : site.Paired demand fun _ => rel) (haction : rel α action action')
    (hnext : ∀ a, rel β (next a) (next' a)) : rel β (action >>= next) (action' >>= next') :=
  @Site.Paired.bind _ _ _ h [] [] _ _ _ _ _ _ haction hnext

theorem Site.Paired.forM {γ : Type} {action action' : γ → InlineM Unit} {cs : List γ}
    (h : site.Paired demand fun _ => rel) (hrel : ∀ c, rel Unit (action c) (action' c)) :
    rel Unit (cs.forM action) (cs.forM action') := by
  induction cs with
  | nil => exact h.still (still_pure ())
  | cons c cs ih => exact h.sequence (hrel c) fun _ => ih

namespace Site.Coupled

/-- A change of a block is a change of the body, or fails. -/
theorem update (h : site.Coupled demand fun _ => rel) (path : BlockPath)
    (change : Block → Option Block) : rel Unit (site.update path change) (site.update path change) := by
  rw [Site.update]
  refine h.sequence (h.still still_get) fun inliner => ?_
  split
  · exact h.publish _
  · exact h.throw [] ..

theorem insert (h : site.Coupled demand fun _ => rel) (path : BlockPath) (index : Nat)
    (stmts : List Stmt) : rel Unit (site.insert path index stmts) (site.insert path index stmts) := by
  rw [Site.insert]
  split
  · exact h.still (still_pure ())
  · exact h.update path _

theorem visitValue (h : site.Coupled demand fun _ => rel) (path : BlockPath) (index : Nat)
    (value? : Option Expr) :
    rel _ (site.visitValue path index value?)
      (({ site with demand } : Site).visitValue path index value?) := by
  cases value? with
  | none => exact h.still (still_pure [])
  | some value =>
    rw [Site.visitValue, Site.visitValue]
    refine h.sequence (Expr.expand_coupled h.toPaired value) fun _ => ?_
    exact h.sequence (h.update path _) fun _ => h.still (still_pure _)

theorem visitStatement (h : site.Coupled demand fun _ => rel) {visit visit' : BlockPath → InlineM Unit}
    (hvisit : ∀ path, rel Unit (visit path) (visit' path)) (path : BlockPath) (index : Nat) :
    rel _ (site.visitStatement visit path index)
      (({ site with demand } : Site).visitStatement visit' path index) := by
  rw [Site.visitStatement, Site.visitStatement]
  refine h.sequence (h.still (site.still_statement path index)) fun stmt => ?_
  cases stmt.function? with
  | some function => exact h.throw [] ..
  | none =>
    refine h.sequence (h.visitValue path index _) fun hoisted => ?_
    refine h.sequence (h.forM fun child => hvisit _) fun _ => ?_
    exact h.still (still_pure _)

theorem visitBlock (h : site.Coupled demand fun _ => rel) (fuel : Nat) :
    ∀ (path : BlockPath) (index : Nat), rel Unit (site.visitBlock fuel path index)
      (({ site with demand } : Site).visitBlock fuel path index) := by
  induction fuel with
  | zero => exact fun path index => h.still (still_pure ())
  | succ fuel ih =>
    intro path index
    rw [Site.visitBlock, Site.visitBlock]
    refine h.sequence (h.still (site.still_block path)) fun block => ?_
    split
    · refine h.sequence (h.visitStatement (fun path => ih path 0) path index) fun hoisted => ?_
      exact h.sequence (h.insert path index hoisted) fun _ => ih path _
    · exact h.still (still_pure ())

end Site.Coupled

/-- Ways of demanding that are related have the expansions of a body related. -/
theorem InlineM.expandBody_coupled (h : site.Coupled demand fun _ => rel) (body : Block) :
    rel Unit (expandBody site body) (expandBody { site with demand } body) :=
  h.visitBlock (Block.extent body) [] 0

end Visit

end YulInline
