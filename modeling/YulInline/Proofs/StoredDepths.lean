import YulInline.Proofs.JsonReading
import YulInline.Stored.Decoding

/-!
# How deep a stored module is nested

Decoding never adds a level. What is decoded from a value, by whichever of the forms that are
accepted, has a stored form that is nested no deeper than the value (`Block.depth_of_ofJson?`).
Arrays that stand for records are as deep as the objects, and what a record leaves out adds nothing,
because a value that may be left out is not nested at all.
-/

namespace YulInline

open Json (Field KindForm record? kindAndRecord? kind?)

namespace Json

/-- Items that are decoded one by one. -/
theorem forall₂_of_mapM {α β : Type} {decode? : α → Option β} {items : List α} {xs : List β}
    (h : items.mapM decode? = some xs) :
    List.Forall₂ (fun item x => decode? item = some x) items xs := by
  induction items generalizing xs with
  | nil =>
    obtain rfl := Option.some.inj h
    exact .nil
  | cons item items ih =>
    simp only [List.mapM_cons, Option.bind_eq_bind, Option.bind_eq_some_iff, Option.pure_def,
      Option.some.injEq] at h
    obtain ⟨x, hx, rest, hrest, rfl⟩ := h
    exact .cons hx (ih hrest)

theorem exists_of_mapM {α β : Type} {decode? : α → Option β} {items : List α} {xs : List β}
    (h : items.mapM decode? = some xs) : ∀ x ∈ xs, ∃ item ∈ items, decode? item = some x := by
  have hitems := forall₂_of_mapM h
  clear h
  induction hitems with
  | nil => exact List.forall_mem_nil _
  | cons hitem _ ih =>
    refine List.forall_mem_cons.mpr ⟨⟨_, List.mem_cons_self, hitem⟩, fun x hx => ?_⟩
    obtain ⟨item, hmem, hdecode⟩ := ih x hx
    exact ⟨item, List.mem_cons_of_mem _ hmem, hdecode⟩

theorem Field.depth_of_inOrder? {fields : List Field} {items values : List Json}
    (habsent : ∀ field ∈ fields, ∀ value ∈ field.absent, value.depth = 0)
    (h : Field.inOrder? fields items = some values) :
    ∀ value ∈ values, value.depth ≤ depthOfItems items := by
  induction fields generalizing items values with
  | nil =>
    cases items with
    | nil =>
      obtain rfl := Option.some.inj h
      exact List.forall_mem_nil _
    | cons item items => cases h
  | cons field fields ih =>
    obtain ⟨hfield, hfields⟩ := List.forall_mem_cons.mp habsent
    cases items with
    | nil =>
      rw [Field.inOrder?] at h
      split at h
      · next value _ hvalue =>
        obtain ⟨rest, hrest, rfl⟩ := Option.map_eq_some_iff.mp h
        exact List.forall_mem_cons.mpr ⟨(hfield value hvalue).le, ih hfields hrest⟩
      · cases h
    | cons item items =>
      obtain ⟨rest, hrest, rfl⟩ := Option.map_eq_some_iff.mp h
      refine List.forall_mem_cons.mpr ⟨le_max_left _ _, fun value hvalue => ?_⟩
      exact (ih hfields hrest value hvalue).trans (le_max_right _ _)

theorem Field.depth_of_find? {field : Field} {members : List (String × Json)} {value : Json}
    (habsent : ∀ value ∈ field.absent, value.depth = 0) (h : field.find? members = some value) :
    value.depth ≤ depthOfMembers members := by
  rw [Field.find?] at h
  split at h
  · exact (habsent value h).le.trans (Nat.zero_le _)
  · next key found hfilter =>
    obtain rfl := Option.some.inj h
    have hmem : (key, found) ∈ members :=
      (List.mem_filter.mp (hfilter ▸ List.mem_singleton_self _)).1
    exact depthOfMembers_le_iff.mp le_rfl _ hmem
  · cases h

/-- What the fields of a record find is nested less deep than the record. -/
theorem depth_of_record? {fields : List Field} {json : Json} {values : List Json}
    (h : record? fields json = some values)
    (habsent : ∀ field ∈ fields, ∀ value ∈ field.absent, value.depth = 0) :
    0 < json.depth ∧ ∀ value ∈ values, value.depth < json.depth := by
  rw [record?.eq_def] at h
  split at h
  · next members =>
    refine ⟨Nat.succ_pos _, fun value hvalue => Nat.lt_succ_of_le ?_⟩
    obtain ⟨field, hfield, hfind⟩ := exists_of_mapM h value hvalue
    exact Field.depth_of_find? (habsent field hfield) hfind
  · next items =>
    exact ⟨Nat.succ_pos _, fun value hvalue =>
      Nat.lt_succ_of_le (Field.depth_of_inOrder? habsent h value hvalue)⟩
  · cases h

/-- What is made of the values of a record is made of values that are nested less deep. -/
theorem exists_values {α : Type} {fields : List Field} {json : Json} {x : α}
    {decode? : List Json → Option α} (h : (record? fields json).bind decode? = some x)
    (habsent : ∀ field ∈ fields, ∀ value ∈ field.absent, value.depth = 0) :
    ∃ values, decode? values = some x ∧ ∀ value ∈ values, value.depth < json.depth := by
  obtain ⟨values, hrecord, hdecode⟩ := Option.bind_eq_some_iff.mp h
  exact ⟨values, hdecode, (depth_of_record? hrecord habsent).2⟩

theorem depth_of_kindAndRecord? {json kind content : Json}
    (h : kindAndRecord? json = some (kind, content)) : content.depth ≤ json.depth := by
  rw [kindAndRecord?.eq_def] at h
  split at h
  · next members =>
    split at h
    · obtain ⟨-, rfl⟩ := Prod.mk.inj (Option.some.inj h)
      exact depth_filter_le _ members
    · cases h
  · obtain ⟨-, rfl⟩ := Prod.mk.inj (Option.some.inj h)
    exact Nat.succ_le_succ (le_max_right _ _)
  · cases h

theorem depth_of_items {α : Type} {encode : α → Json} {decode? : Json → Option α}
    (hdecode : ∀ {json x}, decode? json = some x → (encode x).depth ≤ json.depth)
    {items : List Json} {xs : List α} (h : items.mapM decode? = some xs) :
    depthOfItems (xs.map encode) ≤ depthOfItems items := by
  have hitems := forall₂_of_mapM h
  clear h
  induction hitems with
  | nil => exact le_rfl
  | cons hitem _ ih => exact max_le_max (hdecode hitem) ih

theorem items?_eq_some {json : Json} {items : List Json} (h : json.items? = some items) :
    json = .arr items := by
  cases json with
  | arr => rw [Option.some.inj h]
  | _ => cases h

end Json

/-! ## Names, variables and literals -/

theorem TypedName.depth_of_ofJson? {json : Json} {var : TypedName}
    (h : TypedName.ofJson? json = some var) : var.toJson.depth ≤ json.depth := by
  obtain ⟨_, hrecord, -⟩ := Option.bind_eq_some_iff.mp h
  exact (Json.depth_of_record? hrecord (by decide)).1

theorem TypedName.depth_of_listOfJson? {json : Json} {vars : List TypedName}
    (h : TypedName.listOfJson? json = some vars) :
    (Json.arr (vars.map TypedName.toJson)).depth ≤ json.depth := by
  obtain ⟨items, hitems, hvars⟩ := Option.bind_eq_some_iff.mp h
  obtain rfl := Json.items?_eq_some hitems
  exact Nat.succ_le_succ (Json.depth_of_items TypedName.depth_of_ofJson? hvars)

theorem Json.depth_of_name? {json : Json} {name : String} (h : json.name? = some name) :
    (Json.ofName name).depth ≤ json.depth := by
  obtain ⟨_, hrecord, -⟩ := Option.bind_eq_some_iff.mp h
  exact (Json.depth_of_record? hrecord (by decide)).1

theorem Literal.depth_of_ofJson? {json : Json} {literal : Literal}
    (h : Literal.ofJson? json = some literal) : (Json.obj literal.members).depth ≤ json.depth := by
  obtain ⟨_, hrecord, -⟩ := Option.bind_eq_some_iff.mp h
  exact (Json.depth_of_record? hrecord (by decide)).1

theorem Literal.depth_of_ofJsonOrNull? {json : Json} {literal : Option Literal}
    (h : Literal.ofJsonOrNull? json = some literal) :
    (Literal.toJson literal).depth ≤ json.depth := by
  rw [Literal.ofJsonOrNull?.eq_def] at h
  split at h
  · obtain rfl := Option.some.inj h
    exact Nat.zero_le _
  · obtain ⟨literal, hliteral, rfl⟩ := Option.map_eq_some_iff.mp h
    exact Literal.depth_of_ofJson? hliteral

/-! ## Expressions -/

theorem Expr.toJsons_eq_map (args : List Expr) : Expr.toJsons args = args.map Expr.toJson := by
  induction args with
  | nil => rfl
  | cons arg args ih => rw [Expr.toJsons, ih, List.map_cons]

theorem Expr.depth_of_ofJsonWith? {fuel : Nat} {json : Json} {expr : Expr}
    (h : Expr.ofJsonWith? fuel json = some expr) : expr.toJson.depth ≤ json.depth := by
  induction fuel generalizing json expr with
  | zero => cases h
  | succ fuel ih =>
    simp only [Expr.ofJsonWith?, Option.bind_eq_bind, Option.bind_eq_some_iff, Prod.exists] at h
    obtain ⟨kind, content, hnode, exprKind, -, h⟩ := h
    have hle := Json.depth_of_kindAndRecord? hnode
    cases exprKind with
    | literal =>
      simp only [Option.bind_eq_some_iff, Option.pure_def, Option.some.injEq] at h
      obtain ⟨literal, hliteral, rfl⟩ := h
      exact (Literal.depth_of_ofJson? hliteral).trans hle
    | ident =>
      simp only [Option.bind_eq_some_iff, Option.pure_def, Option.some.injEq] at h
      obtain ⟨name, hname, rfl⟩ := h
      exact (Json.depth_of_name? hname).trans hle
    | instr =>
      obtain ⟨values, h, hvalues⟩ := Json.exists_values h (by decide)
      split at h
      · simp only [Option.bind_eq_some_iff, Option.pure_def, Option.some.injEq] at h
        obtain ⟨op, -, items, hitems, args, hargs, rfl⟩ := h
        obtain rfl := Json.items?_eq_some hitems
        have hdepth := Json.depth_of_items ih hargs
        have hlt := hvalues (.arr items) (by simp)
        simp only [Expr.toJson, Expr.toJsons_eq_map, Json.ofKind, Json.depth,
          Json.depthOfMembers] at hlt ⊢
        omega
      · cases h
    | call =>
      obtain ⟨values, h, hvalues⟩ := Json.exists_values h (by decide)
      split at h
      · simp only [Option.bind_eq_some_iff, Option.pure_def, Option.some.injEq] at h
        obtain ⟨callee, -, items, hitems, args, hargs, rfl⟩ := h
        obtain rfl := Json.items?_eq_some hitems
        have hdepth := Json.depth_of_items ih hargs
        have hlt := hvalues (.arr items) (by simp)
        simp only [Expr.toJson, Expr.toJsons_eq_map, Json.ofKind, Json.ofName, Json.depth,
          Json.depthOfMembers] at hlt ⊢
        omega
      · cases h

theorem Expr.depth_of_ofJson? {json : Json} {expr : Expr} (h : Expr.ofJson? json = some expr) :
    expr.toJson.depth ≤ json.depth :=
  Expr.depth_of_ofJsonWith? h

theorem Expr.depth_of_ofJsonOrNull? {json : Json} {expr : Option Expr}
    (h : Expr.ofJsonOrNull? json = some expr) : (Expr.toJsonOrNull expr).depth ≤ json.depth := by
  rw [Expr.ofJsonOrNull?.eq_def] at h
  split at h
  · obtain rfl := Option.some.inj h
    exact Nat.zero_le _
  · obtain ⟨expr, hexpr, rfl⟩ := Option.map_eq_some_iff.mp h
    exact Expr.depth_of_ofJson? hexpr

/-! ## Statements -/

theorem Stmt.toJsons_eq_map (stmts : List Stmt) : Stmt.toJsons stmts = stmts.map Stmt.toJson := by
  induction stmts with
  | nil => rfl
  | cons stmt stmts ih => rw [Stmt.toJsons, ih, List.map_cons]

section

variable {stmt? : Json → Option Stmt}
  (hstmt : ∀ {json stmt}, stmt? json = some stmt → stmt.toJson.depth ≤ json.depth)

include hstmt

theorem Block.depth_of_ofJsonWith? {json : Json} {body : List Stmt}
    (h : Block.ofJsonWith? stmt? json = some body) : (Block.toJson body).depth ≤ json.depth := by
  obtain ⟨values, h, hvalues⟩ := Json.exists_values h (by decide)
  split at h
  · obtain ⟨items, hitems, hbody⟩ := Option.bind_eq_some_iff.mp h
    obtain rfl := Json.items?_eq_some hitems
    have hdepth := Json.depth_of_items hstmt hbody
    have hlt := hvalues (.arr items) (by simp)
    simp only [Block.toJson, Stmt.toJsons_eq_map, Json.depth, Json.depthOfMembers] at hlt ⊢
    omega
  · cases h

theorem Case.depth_of_ofJsonWith? {items : List Json} {cases : List Case}
    (h : items.mapM (Case.ofJsonWith? stmt?) = some cases) :
    Json.depthOfItems (Case.toJsons cases) ≤ Json.depthOfItems items := by
  have hitems := Json.forall₂_of_mapM h
  clear h
  induction hitems with
  | nil => exact le_rfl
  | @cons item case items cases hitem _ ih =>
    obtain ⟨value, body⟩ := case
    refine max_le_max ?_ ih
    obtain ⟨values, h, hvalues⟩ := Json.exists_values hitem (by decide)
    split at h
    · simp only [Option.bind_eq_bind, Option.bind_eq_some_iff, Option.pure_def, Option.some.injEq,
        Case.mk.injEq] at h
      obtain ⟨_, hvalue, _, hbody, rfl, rfl⟩ := h
      simp only [List.forall_mem_cons] at hvalues
      have hvalue := Literal.depth_of_ofJsonOrNull? hvalue
      have hbody := Block.depth_of_ofJsonWith? hstmt hbody
      simp only [Block.toJson, Json.depth, Json.depthOfMembers] at hbody ⊢
      omega
    · cases h

theorem FunctionDef.depth_of_ofJsonWith? {json : Json} {function : FunctionDef}
    (h : FunctionDef.ofJsonWith? stmt? json = some function) :
    (Stmt.define function).toJson.depth ≤ json.depth := by
  obtain ⟨name, params, returns, body⟩ := function
  obtain ⟨values, h, hvalues⟩ := Json.exists_values h (by decide)
  split at h
  · simp only [Option.bind_eq_bind, Option.bind_eq_some_iff, Option.pure_def, Option.some.injEq,
      FunctionDef.mk.injEq] at h
    obtain ⟨_, -, _, hparams, _, hreturns, _, hbody, rfl, rfl, rfl, rfl⟩ := h
    simp only [List.forall_mem_cons] at hvalues
    have hparams := TypedName.depth_of_listOfJson? hparams
    have hreturns := TypedName.depth_of_listOfJson? hreturns
    have hbody := Block.depth_of_ofJsonWith? hstmt hbody
    simp only [Block.toJson, Stmt.toJson, Json.ofKind, Json.depth, Json.depthOfMembers] at *
    omega
  · cases h

end

theorem Stmt.depth_of_ofJsonWith? {fuel : Nat} {form : KindForm} {json : Json} {stmt : Stmt}
    (h : Stmt.ofJsonWith? fuel form json = some stmt) : stmt.toJson.depth ≤ json.depth := by
  induction fuel generalizing form json stmt with
  | zero => cases h
  | succ fuel ih =>
    simp only [Stmt.ofJsonWith?, Option.bind_eq_bind, Option.bind_eq_some_iff, Prod.exists] at h
    obtain ⟨kind, content, hnode, stmtKind, -, h⟩ := h
    refine le_trans ?_ (Json.depth_of_kindAndRecord? hnode)
    cases stmtKind with
    | expression =>
      obtain ⟨values, h, hvalues⟩ := Json.exists_values h (by decide)
      split at h
      · simp only [Option.bind_eq_some_iff, Option.pure_def, Option.some.injEq] at h
        obtain ⟨value, hvalue, rfl⟩ := h
        simp only [List.forall_mem_cons] at hvalues
        have hvalue := Expr.depth_of_ofJson? hvalue
        simp only [Stmt.toJson, Json.ofKind, Json.depth, Json.depthOfMembers]
        omega
      · cases h
    | assignment =>
      obtain ⟨values, h, hvalues⟩ := Json.exists_values h (by decide)
      split at h
      · simp only [Option.bind_eq_some_iff, Option.pure_def, Option.some.injEq] at h
        obtain ⟨items, hitems, targets, htargets, value, hvalue, rfl⟩ := h
        obtain rfl := Json.items?_eq_some hitems
        simp only [List.forall_mem_cons] at hvalues
        have htargets := Json.depth_of_items Json.depth_of_name? htargets
        have hvalue := Expr.depth_of_ofJson? hvalue
        simp only [Stmt.toJson, Json.ofKind, Json.depth, Json.depthOfMembers] at *
        omega
      · cases h
    | declaration =>
      obtain ⟨values, h, hvalues⟩ := Json.exists_values h (by decide)
      split at h
      · simp only [Option.bind_eq_some_iff, Option.pure_def, Option.some.injEq] at h
        obtain ⟨vars, hvars, value, hvalue, rfl⟩ := h
        simp only [List.forall_mem_cons] at hvalues
        have hvars := TypedName.depth_of_listOfJson? hvars
        have hvalue := Expr.depth_of_ofJsonOrNull? hvalue
        simp only [Stmt.toJson, Json.ofKind, Json.depth, Json.depthOfMembers] at *
        omega
      · cases h
    | definition =>
      simp only [Option.bind_eq_some_iff, Option.pure_def, Option.some.injEq] at h
      obtain ⟨function, hfunction, rfl⟩ := h
      exact FunctionDef.depth_of_ofJsonWith? ih hfunction
    | branch =>
      obtain ⟨values, h, hvalues⟩ := Json.exists_values h (by decide)
      split at h
      · simp only [Option.bind_eq_some_iff, Option.pure_def, Option.some.injEq] at h
        obtain ⟨condition, hcondition, body, hbody, rfl⟩ := h
        simp only [List.forall_mem_cons] at hvalues
        have hcondition := Expr.depth_of_ofJson? hcondition
        have hbody := Block.depth_of_ofJsonWith? ih hbody
        simp only [Block.toJson, Stmt.toJson, Json.ofKind, Json.depth, Json.depthOfMembers] at *
        omega
      · cases h
    | switch =>
      obtain ⟨values, h, hvalues⟩ := Json.exists_values h (by decide)
      split at h
      · simp only [Option.bind_eq_some_iff, Option.pure_def, Option.some.injEq] at h
        obtain ⟨scrutinee, hscrutinee, items, hitems, cases, hcases, rfl⟩ := h
        obtain rfl := Json.items?_eq_some hitems
        simp only [List.forall_mem_cons] at hvalues
        have hscrutinee := Expr.depth_of_ofJson? hscrutinee
        have hcases := Case.depth_of_ofJsonWith? ih hcases
        simp only [Stmt.toJson, Json.ofKind, Json.depth, Json.depthOfMembers] at *
        omega
      · cases h
    | loop =>
      obtain ⟨values, h, hvalues⟩ := Json.exists_values h (by decide)
      split at h
      · simp only [Option.bind_eq_some_iff, Option.pure_def, Option.some.injEq] at h
        obtain ⟨init, hinit, condition, hcondition, step, hstep, body, hbody, rfl⟩ := h
        simp only [List.forall_mem_cons] at hvalues
        have hinit := Block.depth_of_ofJsonWith? ih hinit
        have hcondition := Expr.depth_of_ofJson? hcondition
        have hstep := Block.depth_of_ofJsonWith? ih hstep
        have hbody := Block.depth_of_ofJsonWith? ih hbody
        simp only [Block.toJson, Stmt.toJson, Json.ofKind, Json.depth, Json.depthOfMembers] at *
        omega
      · cases h
    | block =>
      simp only [Option.bind_eq_some_iff, Option.pure_def, Option.some.injEq] at h
      obtain ⟨body, hbody, rfl⟩ := h
      exact Block.depth_of_ofJsonWith? ih hbody

/-- A module that is read is not nested deeper than the value that it is read from. -/
theorem Block.depth_of_ofJson? {json : Json} {block : Block} (h : Block.ofJson? json = some block) :
    block.toJson.depth ≤ json.depth :=
  Block.depth_of_ofJsonWith? Stmt.depth_of_ofJsonWith? h

end YulInline
