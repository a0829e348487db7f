import YulInline.Proofs.DirectExpansion
import YulInline.Proofs.SuspendedBodies

/-!
# Visits in place

A visit reads and changes its body at paths, and fails where a path leads nowhere. The recursion of
`Block.expand` has the statements at hand, and the whole body as a function of them. The two do the
same in every state in which the body stands in the module and its expansion is not interfered with
(`expandBody_eq_directly`). So no visit comes to a position that denotes nothing.

A path leads to a block of a body if that body is `plug` of the block, whatever the block is
(`BlockPath.Opens`). What is carried along a visit is the present state of its body
(`Inliner.Holds`): a demand leaves it alone, and each change is the one that the recursion publishes
(`Site.Follows`).
-/

namespace YulInline

/-! ## Paths -/

namespace Block

variable {change : Block → Option Block}

theorem descend?_append (path path' : BlockPath) (block : Block) :
    Block.descend? (path ++ path') block = (Block.descend? path block).bind (Block.descend? path') := by
  induction path generalizing block with
  | nil => rfl
  | cons step path ih =>
    obtain ⟨index, child⟩ := step
    simp only [List.cons_append, Block.descend?]
    cases block[index]? with
    | none => rfl
    | some stmt =>
      cases hchild : stmt.child? child with
      | none => simp only [Option.bind_some, hchild, Option.bind_none]
      | some block => simp only [Option.bind_some, hchild, ih]

theorem update?_append (path path' : BlockPath) :
    Block.update? change (path ++ path') = Block.update? (Block.update? change path') path := by
  induction path with
  | nil => rfl
  | cons step path ih =>
    funext block
    simp only [List.cons_append, Block.update?, ih]

theorem getElem?_plug (before after : List Stmt) (stmt : Stmt) :
    (before ++ stmt :: after)[before.length]? = some stmt := by
  simp

theorem set_plug (before after : List Stmt) (stmt stmt' : Stmt) :
    (before ++ stmt :: after).set before.length stmt' = before ++ stmt' :: after := by
  simp

theorem insertAt?_plug (before after stmts : List Stmt) :
    Block.insertAt? before.length stmts (before ++ after) = some (before ++ (stmts ++ after)) := by
  simp [Block.insertAt?]

theorem setValue?_plug (before after : List Stmt) (stmt : Stmt) (value : Expr) :
    Block.setValue? before.length value (before ++ stmt :: after) =
      some (before ++ stmt.withValue value :: after) := by
  rw [Block.setValue?, getElem?_plug, Option.map_some, set_plug]

end Block

/-- The statements that `around` makes of a block have that block as one of theirs. -/
def Child.Opens (child : Child) (around : Block → Stmt) : Prop :=
  ∀ block, (around block).child? child = some block ∧
    ∀ change, (around block).updateChild? change child = (change block).map around

theorem Child.opens_case (scrutinee : Expr) (before after : List Case) (value : Option Literal) :
    (Child.case before.length).Opens fun body =>
      .switch scrutinee (before ++ ⟨value, body⟩ :: after) := by
  refine fun block => ⟨by simp [Stmt.child?], fun change => ?_⟩
  simp [Stmt.updateChild?]

/-- The path leads to a block of a body that is `plug` of that block. -/
def BlockPath.Opens (path : BlockPath) (plug : Block → Block) : Prop :=
  ∀ block, Block.descend? path (plug block) = some block ∧
    ∀ change, Block.update? change path (plug block) = (change block).map plug

theorem BlockPath.opens_nil : BlockPath.Opens [] id :=
  fun _ => ⟨rfl, fun _ => Option.map_id'.symm⟩

/-- A path goes on into a block of a statement. -/
theorem BlockPath.Opens.step {path : BlockPath} {plug : Block → Block} (h : path.Opens plug)
    {child : Child} {around : Block → Stmt} (hchild : child.Opens around)
    (before after : List Stmt) :
    BlockPath.Opens (path ++ [(before.length, child)]) fun block =>
      plug (before ++ around block :: after) := by
  intro block
  obtain ⟨hread, hwrite⟩ := hchild block
  refine ⟨?_, fun change => ?_⟩
  · rw [Block.descend?_append, (h _).1]
    simp only [Option.bind_some, Block.descend?, Block.getElem?_plug, hread]
  · rw [Block.update?_append, (h _).2]
    simp only [Block.update?, Block.getElem?_plug, Option.bind_some, hwrite, Option.map_map]
    congr 1
    funext block
    exact congrArg plug (Block.set_plug ..)

/-! ## The body that is being visited -/

theorem Stmt.withBody_withBody (body body' : Block) (stmt : Stmt) :
    (stmt.withBody body).withBody body' = stmt.withBody body' := by
  cases stmt <;> rfl

/-- A statement of the root block that has a body keeps one. -/
theorem Stmt.body?_withBody {stmt : Stmt} {original : Block} (h : stmt.body? = some original)
    (body : Block) : (stmt.withBody body).body? = some body := by
  cases stmt with
  | define function => rfl
  | block body => rfl
  | _ => cases h

variable {module : Block}

/-- The expansion of a body rests, and the statement that holds it is the one given. -/
structure Inliner.Holds (inliner : Inliner) (module : Block) (position : Nat) (root : Stmt) : Prop
    extends inliner.Rests module position where
  present : inliner.module[position]? = some root

namespace Inliner.Holds

variable {before after : Inliner} {position : Nat} {root : Stmt}

/-- A demand leaves the body alone. -/
theorem kept (h : before.Holds module position root) (hkept : Kept module none before after) :
    after.Holds module position root :=
  ⟨h.toRests.kept hkept, (hkept.bodies position (by simp) h.awake).trans h.present⟩

theorem setBody (h : before.Holds module position root) (body : Block) :
    (before.setBody position body).Holds module position (root.withBody body) := by
  refine ⟨h.toRests.kept (Kept.setBody before position body), ?_⟩
  rw [Inliner.setBody, List.getElem?_modify_eq, h.present]
  rfl

theorem body?_eq (h : before.Holds module position root) : before.body? position = root.body? := by
  rw [Inliner.body?, h.present, Option.bind_some]

/-- A body that is put in place as it is there already changes nothing. -/
theorem setBody_eq (h : before.Holds module position root) {body : Block}
    (hbody : root.body? = some body) : before.setBody position body = before := by
  have hmodule : before.module.modify position (·.withBody body) = before.module := by
    refine List.ext_getElem? fun i => ?_
    rw [List.getElem?_modify]
    split
    · next heq =>
      rw [← heq, h.present]
      exact congrArg some (Stmt.withBody_of_body? hbody)
    · exact id_map _
  rw [Inliner.setBody, hmodule]

end Inliner.Holds

/-! ## Visits that follow the recursion -/

open InlineM

namespace Site

variable {site : Site} {root : Stmt} {α β α' β' : Type}

/-- As long as the body is `present`, the visit `action` does what `action'` does, whose result `b`
tells the one of the visit and the body then, `next b`. -/
def Follows (site : Site) (module : Block) (root : Stmt) (present : Block) (action : InlineM α)
    (action' : InlineM β) (next : β → Block) (value : β → α) : Prop :=
  ∀ inliner, inliner.Holds module site.position (root.withBody present) →
    action'.Outcome inliner
      (fun b after => action inliner = .ok (value b) after ∧
        after.Holds module site.position (root.withBody (next b)))
      (fun error after => action inliner = .error error after)

variable {present : Block} {action : InlineM α} {action' : InlineM β} {next : β → Block}
  {value : β → α}

theorem Follows.bind {andThen : α → InlineM α'} {andThen' : β → InlineM β'} {next' : β' → Block}
    {value' : β' → α'} (h : site.Follows module root present action action' next value)
    (hthen : ∀ b, site.Follows module root (next b) (andThen (value b)) (andThen' b) next' value') :
    site.Follows module root present (action >>= andThen) (action' >>= andThen') next' value' := by
  intro inliner hholds
  refine (h inliner hholds).bind ?_ ?_
  · rintro b after ⟨hrun, hholds'⟩
    rw [bind_of_ok hrun]
    exact hthen b after hholds'
  · intro error after hrun
    exact bind_of_error hrun

/-- The recursion goes on to put its result together. -/
theorem Follows.map {next' : β' → Block} {value' : β' → α} {action' : InlineM β'} {f : β' → β}
    (h : site.Follows module root present action action' next' value')
    (hnext : ∀ b, next (f b) = next' b) (hvalue : ∀ b, value (f b) = value' b) :
    site.Follows module root present action (action' >>= fun b => pure (f b)) next value := by
  intro inliner hholds
  refine (h inliner hholds).bind ?_ fun _ _ => id
  rintro b after ⟨hrun, hholds'⟩
  exact ⟨hvalue b ▸ hrun, hnext b ▸ hholds'⟩

theorem follows_pure {a : α} {b : β} (hnext : next b = present) (hvalue : value b = a) :
    site.Follows module root present (pure a) (pure b) next value := by
  intro inliner hholds
  subst hnext hvalue
  exact ⟨rfl, hholds⟩

theorem follows_throw (error : InlineError) :
    site.Follows module root present (throw error) (throw error) next value :=
  fun _ _ => rfl

/-- What reads something that is there follows what has it at hand. -/
theorem Follows.read {γ : Type} {reading : InlineM γ} {c : γ} {andThen : γ → InlineM α}
    (hread : ∀ inliner, inliner.Holds module site.position (root.withBody present) →
      reading inliner = .ok c inliner)
    (h : site.Follows module root present (andThen c) action' next value) :
    site.Follows module root present (reading >>= andThen) action' next value := by
  intro inliner hholds
  rw [bind_of_ok (hread inliner hholds)]
  exact h inliner hholds

/-- A step that leaves the body alone is the same on both sides. -/
theorem follows_keeps {action : InlineM α} (h : action.Keeps module none) :
    site.Follows module root present action action (fun _ => present) id := by
  intro inliner hholds
  have hkept := h inliner
  rw [InlineM.Outcome] at hkept ⊢
  cases hrun : action inliner with
  | ok a after =>
    rw [hrun] at hkept
    exact ⟨rfl, hholds.kept (hkept hholds.shaped)⟩
  | error error after => rfl

/-! ### Reading and changing the body -/

variable {path : BlockPath} {plug : Block → Block} {block : Block}

theorem block_eq {original : Block} (hroot : root.body? = some original) (hpath : path.Opens plug)
    {inliner : Inliner} (h : inliner.Holds module site.position (root.withBody (plug block))) :
    site.block path inliner = .ok block inliner := by
  show EStateM.run (site.block path) inliner = _
  rw [Site.block, EStateM.run_bind, EStateM.run_get]
  simp only [h.body?_eq, Stmt.body?_withBody hroot, Option.bind_some, (hpath block).1]
  rfl

theorem statement_eq {original : Block} (hroot : root.body? = some original)
    (hpath : path.Opens plug) {before after : List Stmt} {stmt : Stmt} {inliner : Inliner}
    (h : inliner.Holds module site.position (root.withBody (plug (before ++ stmt :: after)))) :
    site.statement path before.length inliner = .ok stmt inliner := by
  show EStateM.run (site.statement path before.length) inliner = _
  rw [Site.statement, EStateM.run_bind, EStateM.run, block_eq hroot hpath h]
  simp only [Block.getElem?_plug]
  rfl

/-- A change of the block to which a path leads is published by the recursion. -/
theorem follows_update {original : Block} (hroot : root.body? = some original)
    (hpath : path.Opens plug) {change : Block → Option Block} {block' : Block}
    (hchange : change block = some block') :
    site.Follows module root (plug block) (site.update path change) (site.publish (plug block'))
      (fun _ => plug block') id := by
  intro inliner h
  have hrun : site.update path change inliner =
      .ok () (inliner.setBody site.position (plug block')) := by
    show EStateM.run (site.update path change) inliner = _
    rw [Site.update, EStateM.run_bind, EStateM.run_get]
    simp only [h.body?_eq, Stmt.body?_withBody hroot, Option.bind_some, (hpath block).2, hchange,
      Option.map_some]
    rfl
  refine ⟨hrun, ?_⟩
  have hholds := h.setBody (plug block')
  rwa [Stmt.withBody_withBody] at hholds

/-- Nothing is changed where the recursion publishes the body as it is. -/
theorem follows_nothing {original : Block} (hroot : root.body? = some original) :
    site.Follows module root present (pure ()) (site.publish present) (fun _ => present) id := by
  intro inliner h
  have hrun : site.publish present inliner = .ok () (inliner.setBody site.position present) := rfl
  rw [InlineM.Outcome, hrun, h.setBody_eq (Stmt.body?_withBody hroot present)]
  exact ⟨rfl, h⟩

/-- What was hoisted is put in front, if there is anything. -/
theorem follows_insert {original : Block} (hroot : root.body? = some original)
    (hpath : path.Opens plug) (before after hoisted : List Stmt) :
    site.Follows module root (plug (before ++ after)) (site.insert path before.length hoisted)
      (site.publish (plug (before ++ (hoisted ++ after))))
      (fun _ => plug (before ++ (hoisted ++ after))) id := by
  rw [Site.insert]
  split
  · next hempty =>
    obtain rfl := List.isEmpty_iff.mp hempty
    exact follows_nothing hroot
  · exact follows_update hroot hpath (Block.insertAt?_plug before after hoisted)

/-! ### Expressions, statements and blocks -/

/-- The expansion of an expression leaves alone all but the bodies of pending functions. -/
theorem expand_keeps (hdemand : ∀ name, (site.demand name).Keeps module none) (value : Expr) :
    (value.expand site).Keeps module none :=
  have hpaired : site.Paired site.demand fun _ _ action _ => action.Keeps module none :=
    { still := fun haction => haction.keeps
      throw := fun _ _ error => (still_throw error).keeps
      demand := hdemand
      bind := fun haction hnext => haction.bind hnext }
  Expr.expand_coupled hpaired value

variable {original : Block} {action'' : InlineM β'} {value' : β → α}

/-- The expression of a statement is expanded, and then it is written back. -/
theorem follows_value (hdemand : ∀ name, (site.demand name).Keeps module none) {index : Nat}
    {value : Expr} {andThen : List Stmt → InlineM α} {andThen' : List Stmt × Expr → InlineM β}
    (hthen : ∀ hoisted value, site.Follows module root present
      (site.update path (Block.setValue? index value) >>= fun _ => andThen hoisted)
      (andThen' (hoisted, value)) next value') :
    site.Follows module root present (site.visitValue path index (some value) >>= andThen)
      (value.expand site >>= andThen') next value' := by
  rw [Site.visitValue, bind_assoc]
  refine (follows_keeps (expand_keeps hdemand value)).bind ?_
  rintro ⟨hoisted, value⟩
  simp only [bind_assoc, pure_bind]
  exact hthen hoisted value

/-- The blocks of a statement are visited one after the other. -/
theorem Follows.child {visit : Child → InlineM Unit} {child : Child} {children : List Child}
    {andThen : Unit → InlineM α} {andThen' : β' → InlineM β} {next' : β' → Block}
    (h : site.Follows module root present (visit child) action'' next' fun _ => ())
    (hthen : ∀ b, site.Follows module root (next' b) (children.forM visit >>= andThen) (andThen' b)
      next value) :
    site.Follows module root present ((child :: children).forM visit >>= andThen)
      (action'' >>= andThen') next value := by
  have hfirst : (child :: children).forM visit >>= andThen =
      visit child >>= fun _ => children.forM visit >>= andThen := bind_assoc ..
  rw [hfirst]
  exact h.bind hthen

/-- A statement is read, and then its expression and its blocks are visited. -/
theorem follows_parts (hroot : root.body? = some original) (hpath : path.Opens plug)
    {before after : List Stmt} {stmt : Stmt} (hstmt : stmt.function? = none)
    {visit : BlockPath → InlineM Unit} {value : β → List Stmt}
    (h : site.Follows module root (plug (before ++ stmt :: after))
      (do
        let hoisted ← site.visitValue path before.length stmt.value?
        stmt.children.forM fun child => visit (path ++ [(before.length, child)])
        return hoisted)
      action' next value) :
    site.Follows module root (plug (before ++ stmt :: after))
      (site.visitStatement visit path before.length) action' next value := by
  rw [Site.visitStatement]
  refine Follows.read (fun _ hholds => statement_eq hroot hpath hholds) ?_
  rw [hstmt]
  exact h

mutual

theorem follows_stmt (hdemand : ∀ name, (site.demand name).Keeps module none)
    (hroot : root.body? = some original) :
    ∀ (stmt : Stmt) (fuel : Nat) {path : BlockPath} {plug : Block → Block}
      (before after : List Stmt), path.Opens plug → stmt.extent ≤ fuel →
      site.Follows module root (plug (before ++ stmt :: after))
        (site.visitStatement (fun path => site.visitBlock fuel path 0) path before.length)
        (stmt.expand site fun stmt => plug (before ++ stmt :: after))
        (fun r => plug (before ++ r.2 :: after)) Prod.fst
  | .expr value, fuel, path, plug, before, after, hpath, hfuel => by
    rw [Stmt.expand]
    refine follows_parts hroot hpath rfl ?_
    refine follows_value hdemand fun hoisted value => ?_
    exact (follows_update hroot hpath (Block.setValue?_plug ..)).bind fun _ => follows_pure rfl rfl
  | .assign targets value, fuel, path, plug, before, after, hpath, hfuel => by
    rw [Stmt.expand]
    refine follows_parts hroot hpath rfl ?_
    refine follows_value hdemand fun hoisted value => ?_
    exact (follows_update hroot hpath (Block.setValue?_plug ..)).bind fun _ => follows_pure rfl rfl
  | .declare vars none, fuel, path, plug, before, after, hpath, hfuel => by
    rw [Stmt.expand]
    refine follows_parts hroot hpath rfl ?_
    exact follows_pure rfl rfl
  | .declare vars (some value), fuel, path, plug, before, after, hpath, hfuel => by
    rw [Stmt.expand]
    refine follows_parts hroot hpath rfl ?_
    refine follows_value hdemand fun hoisted value => ?_
    exact (follows_update hroot hpath (Block.setValue?_plug ..)).bind fun _ => follows_pure rfl rfl
  | .define function, fuel, path, plug, before, after, hpath, hfuel => by
    rw [Site.visitStatement, Stmt.expand]
    refine Follows.read (fun _ h => statement_eq hroot hpath h) ?_
    exact follows_throw _
  | .branch condition body, fuel, path, plug, before, after, hpath, hfuel => by
    rw [Stmt.expand]
    rw [Stmt.extent] at hfuel
    refine follows_parts hroot hpath rfl ?_
    refine follows_value hdemand fun hoisted condition => ?_
    refine (follows_update hroot hpath (Block.setValue?_plug ..)).bind fun _ => ?_
    have hchild : Child.body.Opens (.branch condition) := fun _ => ⟨rfl, fun _ => rfl⟩
    exact (follows_block hdemand hroot body fuel [] (hpath.step hchild before after) hfuel).child
      fun _ => follows_pure rfl rfl
  | .switch scrutinee cases, fuel, path, plug, before, after, hpath, hfuel => by
    rw [Stmt.expand]
    rw [Stmt.extent] at hfuel
    refine follows_parts hroot hpath rfl ?_
    refine follows_value hdemand fun hoisted scrutinee => ?_
    refine (follows_update hroot hpath (Block.setValue?_plug ..)).bind fun _ => ?_
    rw [Stmt.children, List.range_eq_range']
    exact (follows_cases hdemand hroot cases fuel [] before after scrutinee hpath hfuel).bind
      fun _ => follows_pure rfl rfl
  | .loop init condition step body, fuel, path, plug, before, after, hpath, hfuel => by
    rw [Stmt.expand]
    rw [Stmt.extent] at hfuel
    refine follows_parts hroot hpath rfl ?_
    have hinit : Child.pre.Opens fun init => .loop init condition step body :=
      fun _ => ⟨rfl, fun _ => rfl⟩
    refine (follows_block hdemand hroot init fuel [] (hpath.step hinit before after)
      (by omega)).child fun init => ?_
    have hstep : Child.post.Opens fun step => .loop init condition step body :=
      fun _ => ⟨rfl, fun _ => rfl⟩
    refine (follows_block hdemand hroot step fuel [] (hpath.step hstep before after)
      (by omega)).child fun step => ?_
    have hbody : Child.body.Opens fun body => .loop init condition step body :=
      fun _ => ⟨rfl, fun _ => rfl⟩
    exact (follows_block hdemand hroot body fuel [] (hpath.step hbody before after)
      (by omega)).child fun _ => follows_pure rfl rfl
  | .block body, fuel, path, plug, before, after, hpath, hfuel => by
    rw [Stmt.expand]
    rw [Stmt.extent] at hfuel
    refine follows_parts hroot hpath rfl ?_
    have hchild : Child.body.Opens .block := fun _ => ⟨rfl, fun _ => rfl⟩
    exact (follows_block hdemand hroot body fuel [] (hpath.step hchild before after) hfuel).child
      fun _ => follows_pure rfl rfl

theorem follows_cases (hdemand : ∀ name, (site.demand name).Keeps module none)
    (hroot : root.body? = some original) :
    ∀ (cases : List Case) (fuel : Nat) (earlier : List Case) {path : BlockPath}
      {plug : Block → Block} (before after : List Stmt) (scrutinee : Expr),
      path.Opens plug → Case.extentOfCases cases ≤ fuel →
      site.Follows module root (plug (before ++ .switch scrutinee (earlier ++ cases) :: after))
        (((List.range' earlier.length cases.length).map Child.case).forM fun child =>
          site.visitBlock fuel (path ++ [(before.length, child)]) 0)
        (Case.expandCases site (fun cases =>
          plug (before ++ .switch scrutinee (earlier ++ cases) :: after)) cases)
        (fun cases => plug (before ++ .switch scrutinee (earlier ++ cases) :: after)) fun _ => ()
  | [], fuel, earlier, path, plug, before, after, scrutinee, hpath, hfuel => by
    rw [Case.expandCases]
    exact follows_pure rfl rfl
  | ⟨value, body⟩ :: cases, fuel, earlier, path, plug, before, after, scrutinee, hpath, hfuel => by
    rw [Case.expandCases]
    rw [Case.extentOfCases] at hfuel
    have hchild := Child.opens_case scrutinee earlier cases value
    have hbody := follows_block hdemand hroot body fuel [] (hpath.step hchild before after)
      (by omega)
    refine hbody.bind fun body => ?_
    have hcases := follows_cases hdemand hroot cases fuel (earlier ++ [⟨value, body⟩]) before after
      scrutinee hpath (by omega)
    simp only [List.append_assoc, List.singleton_append, List.length_append, List.length_singleton]
      at hcases
    exact hcases.map (fun _ => rfl) fun _ => rfl

theorem follows_block (hdemand : ∀ name, (site.demand name).Keeps module none)
    (hroot : root.body? = some original) :
    ∀ (stmts : List Stmt) (fuel : Nat) (before : List Stmt) {path : BlockPath}
      {plug : Block → Block}, path.Opens plug → Block.extent stmts ≤ fuel →
      site.Follows module root (plug (before ++ stmts))
        (site.visitBlock fuel path before.length)
        (Block.expand site (fun stmts => plug (before ++ stmts)) stmts)
        (fun stmts => plug (before ++ stmts)) fun _ => ()
  | [], fuel, before, path, plug, hpath, hfuel => by
    rw [Block.expand]
    cases fuel with
    | zero => exact follows_pure rfl rfl
    | succ fuel =>
      rw [Site.visitBlock]
      refine Follows.read (fun _ h => block_eq hroot hpath h) ?_
      rw [if_neg (by simp)]
      exact follows_pure rfl rfl
  | stmt :: stmts, fuel, before, path, plug, hpath, hfuel => by
    rw [Block.expand]
    rw [Block.extent] at hfuel
    obtain ⟨fuel, rfl⟩ := Nat.exists_eq_add_one_of_ne_zero (Nat.ne_zero_of_lt hfuel)
    rw [Site.visitBlock]
    refine Follows.read (fun _ h => block_eq hroot hpath h) ?_
    rw [if_pos (by simp)]
    refine (follows_stmt hdemand hroot stmt fuel before stmts hpath (by omega)).bind
      fun (hoisted, stmt) => ?_
    refine (follows_insert hroot hpath before (stmt :: stmts) hoisted).bind fun _ => ?_
    have hrest := follows_block hdemand hroot stmts fuel (before ++ hoisted ++ [stmt]) hpath
      (by omega)
    simp only [List.append_assoc, List.singleton_append, List.length_append, List.length_singleton,
      ← Nat.add_assoc] at hrest
    exact hrest.map (fun _ => rfl) fun _ => rfl

end

end Site

/-- In a state in which the expansion of a body rests, visiting it does what the recursion does. -/
theorem InlineM.expandBody_eq_directly {site : Site}
    (hdemand : ∀ name, (site.demand name).Keeps module none) {inliner : Inliner} {body : Block}
    (hrests : inliner.Rests module site.position) (hbody : inliner.body? site.position = some body) :
    expandBody site body inliner = expandBodyDirectly site body inliner := by
  obtain ⟨root, hroot, hstmt⟩ := Option.bind_eq_some_iff.mp hbody
  have hsame : root.withBody body = root := Stmt.withBody_of_body? hstmt
  have hholds : inliner.Holds module site.position (root.withBody (id ([] ++ body))) :=
    ⟨hrests, hroot.trans (congrArg some hsame.symm)⟩
  have hfollows := Site.follows_block hdemand hstmt body (Block.extent body) []
    BlockPath.opens_nil le_rfl inliner hholds
  rw [InlineM.Outcome] at hfollows
  show site.visitBlock (Block.extent body) [] 0 inliner =
    (Block.expand site (fun stmts => id ([] ++ stmts)) body >>= fun _ => pure ()) inliner
  cases hrun : Block.expand site (fun stmts => id ([] ++ stmts)) body inliner with
  | ok stmts after =>
    rw [hrun] at hfollows
    rw [bind_of_ok hrun]
    exact hfollows.1
  | error error after =>
    rw [hrun] at hfollows
    rw [bind_of_error hrun]
    exact hfollows

end YulInline
