import YulInline.Proofs.CoupledExpansions
import YulInline.Proofs.DirectExpansion

/-!
# What an expansion demands

What the expansion of a body demands are the functions that its calls are of, in the order in which
the calls are met. By recursion on its statements this is said of two expansions of the body that
differ in how they demand functions, and of any relation between them that is marked with what is
demanded (`Block.expand_coupled`). With the same way of demanding on both sides it says what an
expansion does by itself (`Site.Marked`).
-/

namespace YulInline

open InlineM

/-! ## The expansion of a body -/

section Expand

variable {site : Site} {demand : String → InlineM Unit}
  {rel : List String → ∀ α : Type, InlineM α → InlineM α → Prop}

mutual

theorem Stmt.expand_coupled (h : site.Coupled demand rel) :
    ∀ (stmt : Stmt) (plug : Stmt → Block),
      rel ((stmt.gather Stmt.ownCalls).map Prod.fst) _ (stmt.expand site plug)
        (stmt.expand { site with demand } plug)
  | .expr value, plug => by
    rw [Stmt.expand, Stmt.expand, Stmt.gather_expr, Stmt.ownCalls]
    refine h.bind_after (Expr.expand_coupled h.toPaired value) fun _ => ?_
    exact h.before_bind (h.publish _) fun _ => h.still (still_pure _)
  | .assign targets value, plug => by
    rw [Stmt.expand, Stmt.expand, Stmt.gather_assign, Stmt.ownCalls]
    refine h.bind_after (Expr.expand_coupled h.toPaired value) fun _ => ?_
    exact h.before_bind (h.publish _) fun _ => h.still (still_pure _)
  | .declare vars none, plug => by
    rw [Stmt.expand, Stmt.expand, Stmt.gather_declare, Stmt.ownCalls, Expr.callsOfValue]
    exact h.still (still_pure _)
  | .declare vars (some value), plug => by
    rw [Stmt.expand, Stmt.expand, Stmt.gather_declare, Stmt.ownCalls, Expr.callsOfValue]
    refine h.bind_after (Expr.expand_coupled h.toPaired value) fun _ => ?_
    exact h.before_bind (h.publish _) fun _ => h.still (still_pure _)
  | .define function, plug => by
    rw [Stmt.expand, Stmt.expand]
    exact h.throw ..
  | .branch condition body, plug => by
    rw [Stmt.expand, Stmt.expand, Stmt.gather_branch, Stmt.ownCalls, List.map_append]
    refine h.bind (Expr.expand_coupled h.toPaired condition) fun _ => ?_
    refine h.before_bind (h.publish _) fun _ => ?_
    exact h.bind_after (Block.expand_coupled h body _) fun _ => h.still (still_pure _)
  | .switch scrutinee cases, plug => by
    rw [Stmt.expand, Stmt.expand, Stmt.gather_switch, Stmt.ownCalls, List.map_append]
    refine h.bind (Expr.expand_coupled h.toPaired scrutinee) fun _ => ?_
    refine h.before_bind (h.publish _) fun _ => ?_
    exact h.bind_after (Case.expand_coupled h cases _) fun _ => h.still (still_pure _)
  | .loop init condition step body, plug => by
    rw [Stmt.expand, Stmt.expand, Stmt.gather_loop, Stmt.ownCalls, List.nil_append, List.map_append,
      List.map_append, List.append_assoc]
    refine h.bind (Block.expand_coupled h init _) fun _ => ?_
    refine h.bind (Block.expand_coupled h step _) fun _ => ?_
    exact h.bind_after (Block.expand_coupled h body _) fun _ => h.still (still_pure _)
  | .block body, plug => by
    rw [Stmt.expand, Stmt.expand, Stmt.gather_block, Stmt.ownCalls, List.nil_append]
    exact h.bind_after (Block.expand_coupled h body _) fun _ => h.still (still_pure _)

theorem Case.expand_coupled (h : site.Coupled demand rel) :
    ∀ (cases : List Case) (plug : List Case → Block),
      rel ((Case.gather Stmt.ownCalls cases).map Prod.fst) _ (Case.expandCases site plug cases)
        (Case.expandCases { site with demand } plug cases)
  | [], plug => by
    rw [Case.expandCases, Case.expandCases, Case.gather_nil]
    exact h.still (still_pure _)
  | ⟨value, body⟩ :: cases, plug => by
    rw [Case.expandCases, Case.expandCases, Case.gather_cons, List.map_append]
    refine h.bind (Block.expand_coupled h body _) fun _ => ?_
    exact h.bind_after (Case.expand_coupled h cases _) fun _ => h.still (still_pure _)

/-- Ways of demanding that are related have the expansions of a block related. What an expansion
demands are the functions that its calls are of. -/
theorem Block.expand_coupled (h : site.Coupled demand rel) :
    ∀ (block : Block) (plug : Block → Block),
      rel ((Block.calls block).map Prod.fst) _ (Block.expand site plug block)
        (Block.expand { site with demand } plug block)
  | [], plug => by
    rw [Block.expand, Block.expand, Block.calls, Block.gather_nil]
    exact h.still (still_pure _)
  | stmt :: stmts, plug => by
    rw [Block.expand, Block.expand, Block.calls, Block.gather_cons, List.map_append]
    refine h.bind (Stmt.expand_coupled h stmt _) fun _ => ?_
    refine h.before_bind (h.publish _) fun _ => ?_
    exact h.bind_after (Block.expand_coupled h stmts _) fun _ => h.still (still_pure _)

end

theorem InlineM.expandBodyDirectly_coupled (h : site.Coupled demand rel) (body : Block) :
    rel ((Block.calls body).map Prod.fst) Unit (expandBodyDirectly site body)
      (expandBodyDirectly { site with demand } body) := by
  rw [expandBodyDirectly, expandBodyDirectly]
  exact h.bind_after (Block.expand_coupled h body id) fun _ => h.still (still_pure _)

end Expand

/-! ## What a successful expansion leads to -/

namespace InlineM

variable {α β : Type}

/-- Wherever the computation succeeds, the states before and after it are related. -/
def Leads (rel : Inliner → Inliner → Prop) (action : InlineM α) : Prop :=
  ∀ inliner, action.Outcome inliner (fun _ after => rel inliner after) fun _ _ => True

theorem Leads.mono {rel rel' : Inliner → Inliner → Prop} {action : InlineM α}
    (h : action.Leads rel) (himp : ∀ before after, rel before after → rel' before after) :
    action.Leads rel' :=
  fun inliner => (h inliner).mono (fun _ after => himp inliner after) fun _ _ _ => trivial

theorem Leads.bind {rel rel' rel'' : Inliner → Inliner → Prop} {action : InlineM α}
    {next : α → InlineM β} (h : action.Leads rel) (hnext : ∀ a, (next a).Leads rel')
    (htrans : ∀ before between after, rel before between → rel' between after →
      rel'' before after) : (action >>= next).Leads rel'' := by
  intro inliner
  refine (h inliner).bind (fun a between hbetween => ?_) fun _ _ _ => trivial
  exact (hnext a between).mono (fun _ after hafter => htrans _ _ _ hbetween hafter)
    fun _ _ _ => trivial

theorem Ends.leads {rel : Inliner → Inliner → Prop} {action : InlineM α} (h : action.Ends rel) :
    action.Leads rel :=
  fun inliner => (h inliner).mono (fun _ _ => id) fun _ _ _ => trivial

end InlineM

/-- What is needed of a relation between the states before and after a part of an expansion, marked
with the functions that the part demands, to hold of the whole. -/
structure Site.Marked (site : Site) (rel : List String → Inliner → Inliner → Prop) : Prop where
  /-- It allows steps that leave the module alone. -/
  quiet : ∀ {before after : Inliner}, after.module = before.module →
    after.pending = before.pending → rel [] before after
  /-- It allows the body that is being expanded to be changed. -/
  publish : ∀ (before : Inliner) (body : Block), rel [] before (before.setBody site.position body)
  /-- Demands lead to related states. -/
  demand : ∀ name, (site.demand name).Leads (rel [name])
  /-- The demands of two parts add up. -/
  trans : ∀ {wanted wanted' : List String} {before between after : Inliner},
    rel wanted before between → rel wanted' between after → rel (wanted ++ wanted') before after

section Marked

variable {site : Site} {rel : List String → Inliner → Inliner → Prop}

theorem Site.Marked.coupled (h : site.Marked rel) :
    site.Coupled site.demand fun wanted _ action _ => action.Leads (rel wanted) where
  still haction := (Ends.leads haction).mono fun _ _ hsame => h.quiet hsame.1 hsame.2
  throw _ _ _ _ := trivial
  publish body inliner := h.publish inliner body
  demand := h.demand
  bind haction hnext := haction.bind hnext fun _ _ _ => h.trans

/-- The expansion of a body demands the functions that its calls are of. -/
theorem InlineM.expandBodyDirectly_leads (h : site.Marked rel) (body : Block) :
    (expandBodyDirectly site body).Leads (rel ((Block.calls body).map Prod.fst)) :=
  expandBodyDirectly_coupled h.coupled body

end Marked

end YulInline
