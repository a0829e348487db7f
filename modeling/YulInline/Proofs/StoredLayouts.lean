import YulInline.Proofs.JsonWriting
import YulInline.Proofs.Rearrangements
import YulInline.Stored.Decoding

/-!
# Reading rearranged modules

However the stored form of a module is rearranged (`Json.Rearranged`), it is decoded to the module
(`Block.ofJson?_rearranged`): the induction is on the module, and in each case the fields of the
node find rearrangements of what the encoding has put there. So any text of such a form is read as
the module, as long as it is not nested deeper than a text may be (`Block.ofText?_of_rearranged`).
-/

namespace YulInline

open Json (Field KindForm Rearranged ItemsRearranged Written kind?)

namespace Json

theorem Field.reads_required {key : String} {value : Json} (htag : key ≠ "type_name")
    (hvalue : key = "value" → value ≠ .null) : (Field.required key).Reads (key, value) := by
  refine ⟨rfl, fun homissible => ?_⟩
  rcases homissible.eq_or with ⟨hkey, -⟩ | ⟨hkey, hnull⟩
  · exact absurd hkey htag
  · exact absurd hnull (hvalue hkey)

theorem Field.reads_nullable (value : Json) : (Field.nullable "value").Reads ("value", value) := by
  refine ⟨rfl, fun homissible => ?_⟩
  rcases homissible.eq_or with ⟨hkey, -⟩ | ⟨-, hnull⟩
  · simp at hkey
  · exact congrArg some hnull.symm

theorem Field.reads_typeTag (text : String) :
    Field.typeTag.Reads ("type_name", .str text) := by
  refine ⟨rfl, fun homissible => ?_⟩
  rcases homissible.eq_or with ⟨-, htext⟩ | ⟨hkey, -⟩
  · exact congrArg some htext.symm
  · simp at hkey

theorem Rearranged.exists_arr {items : List Json} {json : Json} (h : Rearranged (.arr items) json) :
    ∃ items', json = .arr items' ∧ ItemsRearranged items items' := by
  cases h with
  | arr hitems => exact ⟨_, rfl, hitems⟩

theorem Rearranged.depth_pos {members : List (String × Json)} {json : Json}
    (h : Rearranged (.obj members) json) : 0 < json.depth := by
  cases h with
  | obj _ _ _ => exact Nat.succ_pos _

theorem ItemsRearranged.mapM {α : Type} {encode : α → Json} {decode? : Json → Option α}
    (hdecode : ∀ {x json}, Rearranged (encode x) json → decode? json = some x) :
    {xs : List α} → {items : List Json} → ItemsRearranged (xs.map encode) items →
      items.mapM decode? = some xs
  | [], _, .nil => rfl
  | x :: xs, _, .cons hitem hitems => by
    rw [List.mapM_cons, hdecode hitem, hitems.mapM hdecode]
    rfl

end Json

/-! ## Kinds -/

theorem ExprKind.kind?_name (form : KindForm) (kind : ExprKind) :
    kind? form ExprKind.name ExprKind.all (.str kind.name) = some kind := by
  cases kind <;> rfl

theorem StmtKind.kind?_name (form : KindForm) (kind : StmtKind) :
    kind? form StmtKind.name StmtKind.all (.str kind.name) = some kind := by
  cases kind <;> rfl

theorem LiteralKind.ofJson?_name (kind : LiteralKind) :
    LiteralKind.ofJson? (.str kind.name) = some kind := by
  cases kind <;> rfl

/-! ## Names, variables and literals -/

theorem TypedName.ofJson?_rearranged {var : TypedName} {json : Json}
    (h : Rearranged var.toJson json) : TypedName.ofJson? json = some var := by
  obtain ⟨_, hrecord, hvalues⟩ := h.record? (by simp)
    (.cons (Field.reads_required (by simp) (by simp)) (.cons (Field.reads_typeTag _) .nil))
  rcases hvalues with _ | ⟨⟨hname, -⟩, _ | ⟨⟨htype, -⟩, _ | _⟩⟩
  simp only [TypedName.ofJson?, hrecord, hname.eq_str, htype.eq_str, Json.str?,
    Option.bind_eq_bind, Option.bind_some, Option.pure_def]

theorem TypedName.listOfJson?_rearranged {vars : List TypedName} {json : Json}
    (h : Rearranged (.arr (vars.map TypedName.toJson)) json) :
    TypedName.listOfJson? json = some vars := by
  obtain ⟨items, rfl, hitems⟩ := h.exists_arr
  simp only [TypedName.listOfJson?, Json.items?, Option.bind_eq_bind, Option.bind_some,
    hitems.mapM TypedName.ofJson?_rearranged]

theorem Json.name?_rearranged {name : String} {json : Json} (h : Rearranged (.ofName name) json) :
    json.name? = some name := by
  obtain ⟨_, hrecord, hvalues⟩ := h.record? (by simp)
    (.cons (Field.reads_required (by simp) (by simp)) .nil)
  rcases hvalues with _ | ⟨⟨hname, -⟩, _ | _⟩
  simp only [Json.name?, hrecord, hname.eq_str, Json.str?, Option.bind_eq_bind, Option.bind_some]

theorem Literal.ofJson?_rearranged {literal : Literal} {json : Json}
    (h : Rearranged (.obj literal.members) json) : Literal.ofJson? json = some literal := by
  obtain ⟨_, hrecord, hvalues⟩ := h.record? (by simp [Literal.members])
    (.cons (Field.reads_required (by simp) (by simp))
      (.cons (Field.reads_required (by simp) (by simp)) (.cons (Field.reads_typeTag _) .nil)))
  rcases hvalues with _ | ⟨⟨hkind, -⟩, _ | ⟨⟨hvalue, -⟩, _ | ⟨⟨htype, -⟩, _ | _⟩⟩⟩
  simp only [Literal.ofJson?, hrecord, hkind.eq_str, LiteralKind.ofJson?_name, hvalue.eq_str,
    htype.eq_str, Json.str?, Option.bind_eq_bind, Option.bind_some, Option.pure_def]

theorem Literal.ofJsonOrNull?_rearranged {literal : Option Literal} {json : Json}
    (h : Rearranged (Literal.toJson literal) json) :
    Literal.ofJsonOrNull? json = some literal := by
  cases literal with
  | none =>
    cases h
    rfl
  | some literal =>
    have hliteral := Literal.ofJson?_rearranged h
    cases h with
    | obj _ _ _ => simp only [Literal.ofJsonOrNull?, hliteral, Option.map_some]

/-! ## Expressions -/

theorem Expr.toJson_eq_obj (expr : Expr) : ∃ members, expr.toJson = .obj members := by
  cases expr <;> exact ⟨_, rfl⟩

theorem Expr.depth_pos_of_rearranged {expr : Expr} {json : Json} (h : Rearranged expr.toJson json) :
    0 < json.depth := by
  obtain ⟨members, hmembers⟩ := expr.toJson_eq_obj
  exact (hmembers ▸ h).depth_pos

mutual

theorem Expr.ofJsonWith?_rearranged : (expr : Expr) → {fuel : Nat} → {json : Json} →
    Rearranged expr.toJson json → json.depth ≤ fuel + 1 →
      Expr.ofJsonWith? (fuel + 1) json = some expr
  | .literal value, fuel, json, h, hdepth => by
    obtain ⟨content, hnode, hcontent, hle⟩ := h.kindAndRecord?
      (by simp [Literal.members]) (by simp [Literal.members])
    simp only [Expr.ofJsonWith?, hnode, ExprKind.kind?_name, Literal.ofJson?_rearranged hcontent,
      Option.bind_eq_bind, Option.bind_some, Option.pure_def]
  | .ident name, fuel, json, h, hdepth => by
    obtain ⟨content, hnode, hcontent, hle⟩ := h.kindAndRecord? (by simp) (by simp)
    simp only [Expr.ofJsonWith?, hnode, ExprKind.kind?_name, Json.name?_rearranged hcontent,
      Option.bind_eq_bind, Option.bind_some, Option.pure_def]
  | .instr op args, fuel, json, h, hdepth => by
    obtain ⟨_, _, hnode, hrecord, hvalues⟩ := h.node? (by simp) (by simp)
      (.cons (Field.reads_required (by simp) (by simp))
        (.cons (Field.reads_required (by simp) (by simp)) .nil))
    rcases hvalues with _ | ⟨⟨hop, -⟩, _ | ⟨⟨hargs, hlt⟩, _ | _⟩⟩
    obtain ⟨items, rfl, hitems⟩ := hargs.exists_arr
    have hargs : items.mapM (Expr.ofJsonWith? fuel) = some args :=
      Expr.mapM_ofJsonWith?_rearranged args fuel hitems (by rw [Json.depth] at hlt; omega)
    simp only [Expr.ofJsonWith?, hnode, ExprKind.kind?_name, hrecord, hop.eq_str, hargs,
      Json.str?, Json.items?, Option.bind_eq_bind, Option.bind_some, Option.pure_def]
  | .call callee args, fuel, json, h, hdepth => by
    obtain ⟨_, _, hnode, hrecord, hvalues⟩ := h.node? (by simp) (by simp)
      (.cons (Field.reads_required (by simp) (by simp))
        (.cons (Field.reads_required (by simp) (by simp)) .nil))
    rcases hvalues with _ | ⟨⟨hcallee, -⟩, _ | ⟨⟨hargs, hlt⟩, _ | _⟩⟩
    obtain ⟨items, rfl, hitems⟩ := hargs.exists_arr
    have hargs : items.mapM (Expr.ofJsonWith? fuel) = some args :=
      Expr.mapM_ofJsonWith?_rearranged args fuel hitems (by rw [Json.depth] at hlt; omega)
    simp only [Expr.ofJsonWith?, hnode, ExprKind.kind?_name, hrecord, Json.name?_rearranged hcallee,
      hargs, Json.items?, Option.bind_eq_bind, Option.bind_some, Option.pure_def]

theorem Expr.mapM_ofJsonWith?_rearranged : (args : List Expr) → (fuel : Nat) →
    {items : List Json} → ItemsRearranged (Expr.toJsons args) items →
      Json.depthOfItems items ≤ fuel → items.mapM (Expr.ofJsonWith? fuel) = some args
  | [], _, _, .nil, _ => rfl
  | arg :: args, fuel, _, .cons hitem hitems, hdepth => by
    obtain ⟨harg, hargs⟩ := max_le_iff.mp hdepth
    obtain ⟨fuel, rfl⟩ :=
      Nat.exists_eq_add_one.mpr ((Expr.depth_pos_of_rearranged hitem).trans_le harg)
    rw [List.mapM_cons, Expr.ofJsonWith?_rearranged arg hitem harg,
      Expr.mapM_ofJsonWith?_rearranged args _ hitems hargs]
    rfl

end

theorem Expr.ofJson?_rearranged {expr : Expr} {json : Json} (h : Rearranged expr.toJson json) :
    Expr.ofJson? json = some expr := by
  obtain ⟨fuel, hfuel⟩ := Nat.exists_eq_add_one.mpr (Expr.depth_pos_of_rearranged h)
  rw [Expr.ofJson?, hfuel]
  exact Expr.ofJsonWith?_rearranged expr h hfuel.le

theorem Expr.ofJsonOrNull?_rearranged {expr : Option Expr} {json : Json}
    (h : Rearranged (Expr.toJsonOrNull expr) json) : Expr.ofJsonOrNull? json = some expr := by
  cases expr with
  | none =>
    cases h
    rfl
  | some expr =>
    have hexpr := Expr.ofJson?_rearranged h
    obtain ⟨members, hmembers⟩ := expr.toJson_eq_obj
    rw [Expr.toJsonOrNull, hmembers] at h
    cases h with
    | obj _ _ _ => simp only [Expr.ofJsonOrNull?, hexpr, Option.map_some]

/-! ## Statements -/

theorem Stmt.toJson_eq_obj (stmt : Stmt) : ∃ members, stmt.toJson = .obj members := by
  cases stmt with
  | define function =>
    obtain ⟨name, params, returns, body⟩ := function
    exact ⟨_, rfl⟩
  | _ => exact ⟨_, rfl⟩

theorem Stmt.depth_pos_of_rearranged {stmt : Stmt} {json : Json} (h : Rearranged stmt.toJson json) :
    0 < json.depth := by
  obtain ⟨members, hmembers⟩ := stmt.toJson_eq_obj
  exact (hmembers ▸ h).depth_pos

/-- A block is read if its statements are. -/
theorem Block.ofJsonWith?_rearranged {stmt? : Json → Option Stmt} {body : List Stmt} {json : Json}
    (h : Rearranged (Block.toJson body) json)
    (hstmts : ∀ {items}, ItemsRearranged (Stmt.toJsons body) items →
      Json.depthOfItems items < json.depth → items.mapM stmt? = some body) :
    Block.ofJsonWith? stmt? json = some body := by
  obtain ⟨_, hrecord, hvalues⟩ := h.record? (by simp)
    (.cons (Field.reads_required (by simp) (by simp)) .nil)
  rcases hvalues with _ | ⟨⟨hbody, hlt⟩, _ | _⟩
  obtain ⟨items, rfl, hitems⟩ := hbody.exists_arr
  have hbody := hstmts hitems (Nat.lt_of_succ_lt hlt)
  simp only [Block.ofJsonWith?, hrecord, Json.items?, hbody, Option.bind_eq_bind, Option.bind_some]

mutual

theorem Stmt.ofJsonWith?_rearranged : (stmt : Stmt) → {fuel : Nat} → {form : KindForm} →
    {json : Json} → Rearranged stmt.toJson json → json.depth ≤ fuel + 1 →
      Stmt.ofJsonWith? (fuel + 1) form json = some stmt
  | .expr value, fuel, form, json, h, hdepth => by
    obtain ⟨_, _, hnode, hrecord, hvalues⟩ := h.node? (by simp) (by simp)
      (.cons (Field.reads_required (by simp) (by simp)) .nil)
    rcases hvalues with _ | ⟨⟨hvalue, -⟩, _ | _⟩
    simp only [Stmt.ofJsonWith?, hnode, StmtKind.kind?_name, hrecord,
      Expr.ofJson?_rearranged hvalue, Option.bind_eq_bind, Option.bind_some, Option.pure_def]
  | .assign targets value, fuel, form, json, h, hdepth => by
    obtain ⟨members, hobj⟩ := value.toJson_eq_obj
    obtain ⟨_, _, hnode, hrecord, hvalues⟩ := h.node? (by simp) (by simp)
      (.cons (Field.reads_required (by simp) (by simp))
        (.cons (Field.reads_required (by simp) (by simp [hobj])) .nil))
    rcases hvalues with _ | ⟨⟨htargets, -⟩, _ | ⟨⟨hvalue, -⟩, _ | _⟩⟩
    obtain ⟨items, rfl, hitems⟩ := htargets.exists_arr
    simp only [Stmt.ofJsonWith?, hnode, StmtKind.kind?_name, hrecord, Json.items?,
      hitems.mapM Json.name?_rearranged, Expr.ofJson?_rearranged hvalue, Option.bind_eq_bind,
      Option.bind_some, Option.pure_def]
  | .declare vars value, fuel, form, json, h, hdepth => by
    obtain ⟨_, _, hnode, hrecord, hvalues⟩ := h.node? (by simp) (by simp)
      (.cons (Field.reads_required (by simp) (by simp)) (.cons (Field.reads_nullable _) .nil))
    rcases hvalues with _ | ⟨⟨hvars, -⟩, _ | ⟨⟨hvalue, -⟩, _ | _⟩⟩
    simp only [Stmt.ofJsonWith?, hnode, StmtKind.kind?_name, hrecord,
      TypedName.listOfJson?_rearranged hvars, Expr.ofJsonOrNull?_rearranged hvalue,
      Option.bind_eq_bind, Option.bind_some, Option.pure_def]
  | .define ⟨name, params, returns, body⟩, fuel, form, json, h, hdepth => by
    obtain ⟨_, _, hnode, hrecord, hvalues⟩ := h.node? (by simp) (by simp)
      (.cons (Field.reads_required (by simp) (by simp))
        (.cons (Field.reads_required (by simp) (by simp))
          (.cons (Field.reads_required (by simp) (by simp))
            (.cons (Field.reads_required (by simp) (by simp)) .nil))))
    rcases hvalues with _ | ⟨⟨hname, -⟩, _ | ⟨⟨hparams, -⟩, _ | ⟨⟨hreturns, -⟩, hvalues⟩⟩⟩
    rcases hvalues with _ | ⟨⟨hbody, hlt⟩, _ | _⟩
    have hbody := Block.ofJsonWith?_rearranged hbody fun hitems hitemslt =>
      Stmt.mapM_ofJsonWith?_rearranged body fuel .nameOrIndex hitems (by omega)
    simp only [Stmt.ofJsonWith?, hnode, StmtKind.kind?_name, FunctionDef.ofJsonWith?, hrecord,
      hname.eq_str, Json.str?, TypedName.listOfJson?_rearranged hparams,
      TypedName.listOfJson?_rearranged hreturns, hbody,
      Option.bind_eq_bind, Option.bind_some, Option.pure_def]
  | .branch condition body, fuel, form, json, h, hdepth => by
    obtain ⟨_, _, hnode, hrecord, hvalues⟩ := h.node? (by simp) (by simp)
      (.cons (Field.reads_required (by simp) (by simp))
        (.cons (Field.reads_required (by simp) (by simp)) .nil))
    rcases hvalues with _ | ⟨⟨hcondition, -⟩, _ | ⟨⟨hbody, hlt⟩, _ | _⟩⟩
    have hbody := Block.ofJsonWith?_rearranged hbody fun hitems hitemslt =>
      Stmt.mapM_ofJsonWith?_rearranged body fuel .nameOrIndex hitems (by omega)
    simp only [Stmt.ofJsonWith?, hnode, StmtKind.kind?_name, hrecord,
      Expr.ofJson?_rearranged hcondition, hbody,
      Option.bind_eq_bind, Option.bind_some, Option.pure_def]
  | .switch scrutinee cases, fuel, form, json, h, hdepth => by
    obtain ⟨_, _, hnode, hrecord, hvalues⟩ := h.node? (by simp) (by simp)
      (.cons (Field.reads_required (by simp) (by simp))
        (.cons (Field.reads_required (by simp) (by simp)) .nil))
    rcases hvalues with _ | ⟨⟨hscrutinee, -⟩, _ | ⟨⟨hcases, hlt⟩, _ | _⟩⟩
    obtain ⟨items, rfl, hitems⟩ := hcases.exists_arr
    rw [Json.depth] at hlt
    have hcases := Case.mapM_ofJsonWith?_rearranged cases fuel hitems (by omega)
    simp only [Stmt.ofJsonWith?, hnode, StmtKind.kind?_name, hrecord, Json.items?,
      Expr.ofJson?_rearranged hscrutinee, hcases,
      Option.bind_eq_bind, Option.bind_some, Option.pure_def]
  | .loop init condition step body, fuel, form, json, h, hdepth => by
    obtain ⟨_, _, hnode, hrecord, hvalues⟩ := h.node? (by simp) (by simp)
      (.cons (Field.reads_required (by simp) (by simp))
        (.cons (Field.reads_required (by simp) (by simp))
          (.cons (Field.reads_required (by simp) (by simp))
            (.cons (Field.reads_required (by simp) (by simp)) .nil))))
    rcases hvalues with _ | ⟨⟨hinit, hinitlt⟩, _ | ⟨⟨hcondition, -⟩, hvalues⟩⟩
    rcases hvalues with _ | ⟨⟨hstep, hsteplt⟩, _ | ⟨⟨hbody, hbodylt⟩, _ | _⟩⟩
    have hinit := Block.ofJsonWith?_rearranged hinit fun hitems hitemslt =>
      Stmt.mapM_ofJsonWith?_rearranged init fuel .nameOrIndex hitems (by omega)
    have hstep := Block.ofJsonWith?_rearranged hstep fun hitems hitemslt =>
      Stmt.mapM_ofJsonWith?_rearranged step fuel .nameOrIndex hitems (by omega)
    have hbody := Block.ofJsonWith?_rearranged hbody fun hitems hitemslt =>
      Stmt.mapM_ofJsonWith?_rearranged body fuel .nameOrIndex hitems (by omega)
    simp only [Stmt.ofJsonWith?, hnode, StmtKind.kind?_name, hrecord, hinit,
      Expr.ofJson?_rearranged hcondition, hstep, hbody,
      Option.bind_eq_bind, Option.bind_some, Option.pure_def]
  | .block body, fuel, form, json, h, hdepth => by
    obtain ⟨content, hnode, hcontent, hle⟩ := h.kindAndRecord? (by simp) (by simp)
    have hbody := Block.ofJsonWith?_rearranged hcontent fun hitems hitemslt =>
      Stmt.mapM_ofJsonWith?_rearranged body fuel .nameOrIndex hitems (by omega)
    simp only [Stmt.ofJsonWith?, hnode, StmtKind.kind?_name, hbody,
      Option.bind_eq_bind, Option.bind_some, Option.pure_def]

theorem Case.mapM_ofJsonWith?_rearranged : (cases : List Case) → (fuel : Nat) →
    {items : List Json} → ItemsRearranged (Case.toJsons cases) items →
      Json.depthOfItems items ≤ fuel + 1 →
      items.mapM (Case.ofJsonWith? (Stmt.ofJsonWith? fuel .nameOrIndex)) = some cases
  | [], _, _, .nil, _ => rfl
  | ⟨value, body⟩ :: cases, fuel, _, .cons hitem hitems, hdepth => by
    obtain ⟨hcase, hcases⟩ := max_le_iff.mp hdepth
    obtain ⟨_, hrecord, hvalues⟩ := hitem.record? (by simp)
      (.cons (Field.reads_nullable _) (.cons (Field.reads_required (by simp) (by simp)) .nil))
    rcases hvalues with _ | ⟨⟨hvalue, -⟩, _ | ⟨⟨hbody, hlt⟩, _ | _⟩⟩
    have hbody := Block.ofJsonWith?_rearranged hbody fun hitems hitemslt =>
      Stmt.mapM_ofJsonWith?_rearranged body fuel .nameOrIndex hitems (by omega)
    simp only [List.mapM_cons, Case.ofJsonWith?, hrecord, Literal.ofJsonOrNull?_rearranged hvalue,
      hbody, Case.mapM_ofJsonWith?_rearranged cases fuel hitems hcases,
      Option.bind_eq_bind, Option.bind_some, Option.pure_def]

theorem Stmt.mapM_ofJsonWith?_rearranged : (stmts : List Stmt) → (fuel : Nat) → (form : KindForm) →
    {items : List Json} → ItemsRearranged (Stmt.toJsons stmts) items →
      Json.depthOfItems items ≤ fuel → items.mapM (Stmt.ofJsonWith? fuel form) = some stmts
  | [], _, _, _, .nil, _ => rfl
  | stmt :: stmts, fuel, form, _, .cons hitem hitems, hdepth => by
    obtain ⟨hstmt, hstmts⟩ := max_le_iff.mp hdepth
    obtain ⟨fuel, rfl⟩ :=
      Nat.exists_eq_add_one.mpr ((Stmt.depth_pos_of_rearranged hitem).trans_le hstmt)
    rw [List.mapM_cons, Stmt.ofJsonWith?_rearranged stmt hitem hstmt,
      Stmt.mapM_ofJsonWith?_rearranged stmts _ form hitems hstmts]
    rfl

end

/-- The stored form of a module is read as the module, however it is rearranged. -/
theorem Block.ofJson?_rearranged {block : Block} {json : Json} (h : Rearranged block.toJson json) :
    Block.ofJson? json = some block :=
  Block.ofJsonWith?_rearranged h fun hitems hlt =>
    Stmt.mapM_ofJsonWith?_rearranged block _ .name hitems hlt.le

/-! ## Texts -/

/-- A text of a rearranged module is read as the module, if the text is not nested too deep. -/
theorem Block.ofText?_of_rearranged {block : Block} {json : Json} {text : String}
    (hlayout : Rearranged block.toJson json) (htext : Json.Written json text.toList)
    (hdepth : json.depth ≤ Block.maxDepth) : Block.ofText? text = some block := by
  have hread := hlayout
  rw [Block.toJson] at hread
  cases hread with
  | obj _ _ _ =>
    have hstatements := Rearranged.filter (fun key => key = "statements") hlayout
    rw [Block.ofText?, Json.readMembers?_written htext hdepth, Option.bind_some]
    exact Block.ofJson?_rearranged hstatements

/-- A declaration whose kind comes last, without type tag and value, in a block with a key that is
unknown. -/
def rearrangedDeclaration : String :=
  "\x7b\"more\":[-7],\n\"statements\": [\x7b\"variables\":" ++
    "[\x7b\"name\":\"\\u0078\"\x7d],\"kind\":\"VariableDeclaration\"\x7d]\x7d"

theorem Block.ofText?_of_rearranged_declaration :
    ∃ json, Json.Rearranged (Block.toJson [.declare [⟨"x", ""⟩] none]) json ∧
      Json.Written json rearrangedDeclaration.toList ∧ json.depth ≤ Block.maxDepth ∧
      Block.ofText? rearrangedDeclaration = some [.declare [⟨"x", ""⟩] none] := by
  -- The stored form from the inside out, and beside each part its text.
  let number : Json.Number := ⟨true, [7], [], none⟩
  let var : Json := .obj [("name", .str "x")]
  let stmt : Json := .obj [("variables", .arr [var]), ("kind", .str "VariableDeclaration")]
  let root : Json := .obj [("more", .arr [.num number]), ("statements", .arr [stmt])]
  have hvar : Json.Rearranged (TypedName.toJson ⟨"x", ""⟩) var :=
    @Rearranged.obj _ _ [] _ (.keep "name" (.str "x") (.leave .typeTag .nil))
      (List.forall_mem_nil _) (.refl _)
  have hstmt : Json.Rearranged (Stmt.toJson (.declare [⟨"x", ""⟩] none)) stmt :=
    @Rearranged.obj _ _ [] _
      (.keep "kind" (.str _) (.keep "variables" (.arr (.cons hvar .nil)) (.leave .value .nil)))
      (List.forall_mem_nil _) (.swap _ _ _)
  have hroot : Json.Rearranged (Block.toJson [.declare [⟨"x", ""⟩] none]) root :=
    @Rearranged.obj _ _ [("more", .arr [.num number])] _
      (.keep "statements" (.arr (.cons hstmt .nil)) .nil) (by decide) (.swap _ _ _)
  have hunit : Json.UnitWritten 'x'.toNat ['\\', 'u', '0', '0', '7', '8'] :=
    @Json.UnitWritten.digits 0 0 7 8 '0' '0' '7' '8' ⟨by decide, .inl rfl⟩ ⟨by decide, .inl rfl⟩
      ⟨by decide, .inl rfl⟩ ⟨by decide, .inl rfl⟩
  have hletter := @Written.str "x" _ (.cons (.unit hunit) .nil)
  have hvarText : Written var _ := .obj (.last (Json.written_quote "name") hletter)
  have hstmtText : Written stmt _ :=
    .obj (.cons (Json.written_quote "variables") (.arr (.last hvarText))
      (.last (Json.written_quote "kind") (Json.written_quote "VariableDeclaration")))
  have hmore : Written (.num number) _ :=
    .num ⟨by decide, by decide, by decide, rfl, rfl, by decide⟩
  have hstatements := @Written.spaced _ ['\n'] _ [] (by simp [Json.Blank])
    (Json.written_quote "statements") (by simp [Json.Blank])
  have hblock := @Written.spaced _ [' '] _ [] (by simp [Json.Blank])
    (.arr (.last hstmtText)) (by simp [Json.Blank])
  have hrootText : Written root rearrangedDeclaration.toList := by
    have htext : Written root _ :=
      .obj (.cons (Json.written_quote "more") (.arr (.last hmore)) (.last hstatements hblock))
    convert htext
    decide +kernel
  have hdepth : root.depth ≤ Block.maxDepth := by decide
  exact ⟨root, hroot, hrootText, hdepth, Block.ofText?_of_rearranged hroot hrootText hdepth⟩

end YulInline
