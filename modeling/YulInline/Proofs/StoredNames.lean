import YulInline.Proofs.Tree
import YulInline.Stored.Encoding

/-!
# The names in a stored module

The stored form of a module writes every name of the module, and nothing else, under the key `name`.
Reading the texts under that key from left to right gives the names of the tree in the order of
their occurrence (`Block.textsUnder_toJson`), so that collecting names from a tree and from its
stored form comes to the same.

The names are those that are declared, referred to, assigned to or called (`Block.mem_names_iff`);
what else there are for texts in a tree, namely the names of instructions, literals and type tags,
can be changed at will without changing them (`Block.names_retext`).
-/

namespace YulInline

/-! ## Texts under a key -/

namespace Json

/-- The text that a member of an object has, if its key is `key` and its value a string. -/
def textOf? (key : String) : String × Json → Option String
  | (name, .str text) => if name = key then some text else none
  | _ => none

mutual

/-- The texts that stand under a key in the objects of a value, at any depth, from left to right. -/
def textsUnder (key : String) : Json → List String
  | .arr items => textsUnderOfItems key items
  | .obj members => textsUnderOfMembers key members
  | .null | .bool _ | .num _ | .str _ => []

/-- The texts that stand under a key in the objects of a list of items. -/
def textsUnderOfItems (key : String) : List Json → List String
  | [] => []
  | item :: items => item.textsUnder key ++ textsUnderOfItems key items

/-- The texts that stand under a key in an object with the given members. -/
def textsUnderOfMembers (key : String) : List (String × Json) → List String
  | [] => []
  | (name, value) :: members =>
    (textOf? key (name, value)).toList ++ value.textsUnder key ++ textsUnderOfMembers key members

end

variable {key name text : String} {value : Json} {members : List (String × Json)}

@[simp] theorem textsUnder_str : (Json.str text).textsUnder key = [] := rfl

@[simp] theorem textsUnder_arr (items : List Json) :
    (Json.arr items).textsUnder key = textsUnderOfItems key items := rfl

@[simp] theorem textsUnder_obj :
    (Json.obj members).textsUnder key = textsUnderOfMembers key members := rfl

@[simp] theorem textsUnderOfMembers_nil : textsUnderOfMembers key [] = [] := rfl

/-- A string under the key counts. -/
@[simp] theorem textsUnderOfMembers_str :
    textsUnderOfMembers key ((key, .str text) :: members) =
      text :: textsUnderOfMembers key members := by
  simp [textsUnderOfMembers, textOf?]

/-- A member under another key counts for what is inside its value. -/
theorem textsUnderOfMembers_of_ne (h : name ≠ key) :
    textsUnderOfMembers key ((name, value) :: members) =
      value.textsUnder key ++ textsUnderOfMembers key members := by
  have hnone : textOf? key (name, value) = none := by
    cases value with
    | str text => exact if_neg h
    | _ => rfl
  rw [textsUnderOfMembers, hnone]
  rfl

theorem textsUnder_ofKind (kind : String) :
    (ofKind kind members).textsUnder "name" = textsUnderOfMembers "name" members := by
  rw [ofKind, textsUnder_obj, textsUnderOfMembers_of_ne (by decide)]
  rfl

@[simp] theorem textsUnder_ofName (name : String) : (ofName name).textsUnder "name" = [name] := by
  rw [ofName, textsUnder_obj, textsUnderOfMembers_str, textsUnderOfMembers_nil]

theorem textsUnder_ofNames (names : List String) :
    textsUnderOfItems "name" (names.map ofName) = names := by
  induction names with
  | nil => rfl
  | cons name names ih =>
    rw [List.map_cons, textsUnderOfItems, textsUnder_ofName, ih]
    rfl

end Json

/-! ## The names of a tree in its stored form -/

open Json (textsUnder_ofKind textsUnderOfMembers_of_ne)

@[simp] theorem TypedName.textsUnder_toJson (var : TypedName) :
    var.toJson.textsUnder "name" = [var.name] := by
  simp (disch := decide) [TypedName.toJson, textsUnderOfMembers_of_ne]

theorem TypedName.textsUnder_toJsons (vars : List TypedName) :
    Json.textsUnderOfItems "name" (vars.map TypedName.toJson) = vars.map (·.name) := by
  induction vars with
  | nil => rfl
  | cons var vars ih => simp [Json.textsUnderOfItems, ih]

theorem Literal.textsUnder_members (literal : Literal) :
    Json.textsUnderOfMembers "name" literal.members = [] := by
  simp (disch := decide) [Literal.members, textsUnderOfMembers_of_ne]

theorem Literal.textsUnder_toJson (literal : Option Literal) :
    (Literal.toJson literal).textsUnder "name" = [] := by
  cases literal with
  | none => rfl
  | some literal => exact literal.textsUnder_members

mutual

theorem Expr.textsUnder_toJson : ∀ e : Expr, e.toJson.textsUnder "name" = e.names
  | .literal value => by
    rw [Expr.toJson, textsUnder_ofKind, value.textsUnder_members, Expr.names]
  | .ident name => by
    rw [Expr.toJson, textsUnder_ofKind, Expr.names, Json.textsUnderOfMembers_str]
    rfl
  | .instr op args => by
    rw [Expr.toJson, textsUnder_ofKind, Expr.names]
    simp (disch := decide) [textsUnderOfMembers_of_ne, Expr.textsUnder_toJsons args]
  | .call callee args => by
    rw [Expr.toJson, textsUnder_ofKind, Expr.names]
    simp (disch := decide) [textsUnderOfMembers_of_ne, Expr.textsUnder_toJsons args]

theorem Expr.textsUnder_toJsons : ∀ args : List Expr,
    Json.textsUnderOfItems "name" (Expr.toJsons args) = Expr.namesOfArgs args
  | [] => rfl
  | arg :: args => by
    rw [Expr.toJsons, Json.textsUnderOfItems, Expr.namesOfArgs, Expr.textsUnder_toJson arg,
      Expr.textsUnder_toJsons args]

end

theorem Expr.textsUnder_toJsonOrNull (value : Option Expr) :
    (Expr.toJsonOrNull value).textsUnder "name" = Expr.namesOfValue value := by
  cases value with
  | none => rfl
  | some value => exact value.textsUnder_toJson

mutual

theorem Stmt.textsUnder_toJson : ∀ stmt : Stmt, stmt.toJson.textsUnder "name" = stmt.names
  | .expr value => by
    rw [Stmt.toJson, textsUnder_ofKind, Stmt.names]
    simp (disch := decide) [textsUnderOfMembers_of_ne, value.textsUnder_toJson]
  | .assign targets value => by
    rw [Stmt.toJson, textsUnder_ofKind, Stmt.names]
    simp (disch := decide) [textsUnderOfMembers_of_ne, Json.textsUnder_ofNames,
      value.textsUnder_toJson]
  | .declare vars value => by
    rw [Stmt.toJson, textsUnder_ofKind, Stmt.names]
    simp (disch := decide) [textsUnderOfMembers_of_ne, TypedName.textsUnder_toJsons,
      Expr.textsUnder_toJsonOrNull]
  | .define ⟨name, params, returns, body⟩ => by
    rw [Stmt.toJson, textsUnder_ofKind, Stmt.names]
    simp (disch := decide) [textsUnderOfMembers_of_ne, TypedName.textsUnder_toJsons,
      Stmt.textsUnder_toJsons body]
  | .branch condition body => by
    rw [Stmt.toJson, textsUnder_ofKind, Stmt.names]
    simp (disch := decide) [textsUnderOfMembers_of_ne, condition.textsUnder_toJson,
      Stmt.textsUnder_toJsons body]
  | .switch scrutinee cases => by
    rw [Stmt.toJson, textsUnder_ofKind, Stmt.names]
    simp (disch := decide) [textsUnderOfMembers_of_ne, scrutinee.textsUnder_toJson,
      Case.textsUnder_toJsons cases]
  | .loop init condition step body => by
    rw [Stmt.toJson, textsUnder_ofKind, Stmt.names]
    simp (disch := decide) [textsUnderOfMembers_of_ne, condition.textsUnder_toJson,
      Stmt.textsUnder_toJsons init, Stmt.textsUnder_toJsons step, Stmt.textsUnder_toJsons body]
  | .block body => by
    rw [Stmt.toJson, textsUnder_ofKind, Stmt.names]
    simp (disch := decide) [textsUnderOfMembers_of_ne, Stmt.textsUnder_toJsons body]

theorem Case.textsUnder_toJsons : ∀ cases : List Case,
    Json.textsUnderOfItems "name" (Case.toJsons cases) = Case.namesOfCases cases
  | [] => rfl
  | ⟨value, body⟩ :: cases => by
    rw [Case.toJsons, Json.textsUnderOfItems, Case.namesOfCases, Case.textsUnder_toJsons cases]
    simp (disch := decide) [textsUnderOfMembers_of_ne, Literal.textsUnder_toJson,
      Stmt.textsUnder_toJsons body]

theorem Stmt.textsUnder_toJsons : ∀ stmts : List Stmt,
    Json.textsUnderOfItems "name" (Stmt.toJsons stmts) = Block.names stmts
  | [] => rfl
  | stmt :: stmts => by
    rw [Stmt.toJsons, Json.textsUnderOfItems, Block.names, Stmt.textsUnder_toJson stmt,
      Stmt.textsUnder_toJsons stmts]

end

/-- The texts under `name` in the stored form of a block are the names of the block, in the order of
their occurrence and as often as they occur. -/
theorem Block.textsUnder_toJson (block : Block) :
    (Block.toJson block).textsUnder "name" = Block.names block := by
  have hne : "statements" ≠ "name" := by decide
  rw [Block.toJson, Json.textsUnder_obj, textsUnderOfMembers_of_ne hne, Json.textsUnder_arr,
    Stmt.textsUnder_toJsons, Json.textsUnderOfMembers_nil, List.append_nil]

/-! ## What a name stands for -/

/-- The functions that a statement calls, apart from the statements inside it. -/
def Stmt.ownCallees : Stmt → List String
  | .loop _ condition _ _ => condition.calls.map Prod.fst
  | stmt => stmt.ownCalls.map Prod.fst

/-- The functions that are called anywhere in a block, also in the conditions of loops. -/
def Block.callees (block : Block) : List String :=
  Block.gather Stmt.ownCallees block

mutual

/-- The names in an expression are those of variables and functions that it refers to. -/
theorem Expr.mem_names_iff (name : String) :
    ∀ e : Expr, name ∈ e.names ↔ name ∈ e.vars ∨ name ∈ e.calls.map Prod.fst
  | .literal value => by simp [Expr.names, Expr.vars, Expr.calls]
  | .ident other => by simp [Expr.names, Expr.vars, Expr.calls]
  | .instr op args => by
    rw [Expr.names, Expr.vars, Expr.calls]
    exact Expr.mem_namesOfArgs_iff name args
  | .call callee args => by
    rw [Expr.names, Expr.vars, Expr.calls, List.map_cons, List.mem_cons, List.mem_cons,
      Expr.mem_namesOfArgs_iff name args, or_left_comm]

theorem Expr.mem_namesOfArgs_iff (name : String) :
    ∀ args : List Expr, name ∈ Expr.namesOfArgs args ↔
      name ∈ Expr.varsOfArgs args ∨ name ∈ (Expr.callsOfArgs args).map Prod.fst
  | [] => by simp [Expr.namesOfArgs, Expr.varsOfArgs, Expr.callsOfArgs]
  | arg :: args => by
    rw [Expr.namesOfArgs, Expr.varsOfArgs, Expr.callsOfArgs, List.map_append]
    simp only [List.mem_append, Expr.mem_names_iff name arg, Expr.mem_namesOfArgs_iff name args]
    exact or_or_or_comm

end

theorem Expr.mem_namesOfValue_iff (name : String) (value : Option Expr) :
    name ∈ Expr.namesOfValue value ↔
      name ∈ Expr.varsOfValue value ∨ name ∈ (Expr.callsOfValue value).map Prod.fst := by
  cases value with
  | none => simp [Expr.namesOfValue, Expr.varsOfValue, Expr.callsOfValue]
  | some value => exact value.mem_names_iff name

/-- The names that occur in a statement, apart from the statements inside it. -/
def Stmt.ownNames : Stmt → List String
  | .expr value => value.names
  | .assign targets value => targets ++ value.names
  | .declare vars value => vars.map (·.name) ++ Expr.namesOfValue value
  | .define function =>
    function.name :: (function.params.map (·.name) ++ function.returns.map (·.name))
  | .branch condition _ => condition.names
  | .switch scrutinee _ => scrutinee.names
  | .loop _ condition _ _ => condition.names
  | .block _ => []

/-- A name has a use among what is gathered from statements: it is declared, referred or assigned
to, or called. -/
def Used (name : String) (gathered : (Stmt → List String) → List String) : Prop :=
  name ∈ gathered Stmt.introduced ∨ name ∈ gathered Stmt.ownMentions ∨
    name ∈ gathered Stmt.ownCallees

theorem used_append (name : String) (front back : (Stmt → List String) → List String) :
    Used name (fun own => front own ++ back own) ↔ Used name front ∨ Used name back := by
  simp only [Used, List.mem_append]
  rw [or_or_or_comm (a := name ∈ front Stmt.ownMentions), or_or_or_comm]

theorem Stmt.mem_ownNames_iff (name : String) (stmt : Stmt) :
    name ∈ stmt.ownNames ↔ Used name fun own => own stmt := by
  cases stmt with
  | expr value => simp [Used, ownNames, introduced, ownMentions, ownCallees, ownCalls,
      value.mem_names_iff]
  | assign targets value => simp [Used, ownNames, introduced, ownMentions, ownCallees, ownCalls,
      value.mem_names_iff, or_assoc]
  | declare vars value => simp [Used, ownNames, introduced, ownMentions, ownCallees, ownCalls,
      Expr.mem_namesOfValue_iff]
  | define function => simp [Used, ownNames, introduced, ownMentions, ownCallees, ownCalls]
  | branch condition _ => simp [Used, ownNames, introduced, ownMentions, ownCallees, ownCalls,
      condition.mem_names_iff]
  | switch scrutinee _ => simp [Used, ownNames, introduced, ownMentions, ownCallees, ownCalls,
      scrutinee.mem_names_iff]
  | loop _ condition _ _ => simp [Used, ownNames, introduced, ownMentions, ownCallees,
      condition.mem_names_iff]
  | block _ => simp [Used, ownNames, introduced, ownMentions, ownCallees, ownCalls]

/-- What is used in a statement is used at its head or inside it. -/
theorem Stmt.used_gather_iff {name : String} {stmt : Stmt}
    {inner : (Stmt → List String) → List String}
    (h : ∀ own : Stmt → List String, stmt.gather own = own stmt ++ inner own) :
    Used name stmt.gather ↔ name ∈ stmt.ownNames ∨ Used name inner := by
  rw [funext h, used_append, Stmt.mem_ownNames_iff]

mutual

theorem Stmt.mem_names_iff (name : String) :
    ∀ stmt : Stmt, name ∈ stmt.names ↔ Used name stmt.gather
  | .expr value => Stmt.mem_ownNames_iff name (.expr value)
  | .assign targets value => Stmt.mem_ownNames_iff name (.assign targets value)
  | .declare vars value => Stmt.mem_ownNames_iff name (.declare vars value)
  | .define ⟨fname, params, returns, body⟩ => by
    rw [Stmt.used_gather_iff fun _ => Stmt.gather_define _, ← Block.mem_names_iff name body,
      Stmt.ownNames, ← List.mem_append]
    rfl
  | .branch condition body => by
    rw [Stmt.used_gather_iff fun _ => Stmt.gather_branch .., ← Block.mem_names_iff name body,
      Stmt.ownNames, ← List.mem_append]
    rfl
  | .switch scrutinee cases => by
    rw [Stmt.used_gather_iff fun _ => Stmt.gather_switch .., ← Case.mem_names_iff name cases,
      Stmt.ownNames, ← List.mem_append]
    rfl
  | .loop init condition step body => by
    rw [Stmt.used_gather_iff fun _ => Stmt.gather_loop .., used_append, used_append,
      ← Block.mem_names_iff name init, ← Block.mem_names_iff name step,
      ← Block.mem_names_iff name body, Stmt.ownNames, Stmt.names]
    simp only [List.mem_append, or_assoc]
    exact or_left_comm
  | .block body => Block.mem_names_iff name body

theorem Case.mem_names_iff (name : String) :
    ∀ cases : List Case,
      name ∈ Case.namesOfCases cases ↔ Used name fun own => Case.gather own cases
  | [] => by simp [Used, Case.namesOfCases]
  | ⟨value, body⟩ :: cases => by
    simp only [Case.namesOfCases, Case.gather_cons, List.mem_append, used_append,
      Block.mem_names_iff name body, Case.mem_names_iff name cases]

theorem Block.mem_names_iff (name : String) :
    ∀ block : Block, name ∈ Block.names block ↔ Used name fun own => Block.gather own block
  | [] => by simp [Used, Block.names]
  | stmt :: stmts => by
    simp only [Block.names, Block.gather_cons, List.mem_append, used_append,
      Stmt.mem_names_iff name stmt, Block.mem_names_iff name stmts]

end

/-! ## What is no name -/

section Retext

variable (op : String → String) (type : String → String) (literal : Literal → Literal)

mutual

/-- An expression with other instructions and literals. -/
def Expr.retext : Expr → Expr
  | .literal value => .literal (literal value)
  | .ident name => .ident name
  | .instr name args => .instr (op name) (Expr.retextAll args)
  | .call callee args => .call callee (Expr.retextAll args)

/-- The expressions of a list with other instructions and literals. -/
def Expr.retextAll : List Expr → List Expr
  | [] => []
  | arg :: args => arg.retext :: Expr.retextAll args

end

/-- A block with other instructions, literals and type tags, also those of cases. -/
def Block.retext (block : Block) : Block :=
  Block.mapParts (Expr.retext op literal) (fun var => ⟨var.name, type var.type⟩) literal block

mutual

theorem Expr.names_retext : ∀ e : Expr, (e.retext op literal).names = e.names
  | .literal value => rfl
  | .ident name => rfl
  | .instr name args => by
    rw [Expr.retext, Expr.names, Expr.names, Expr.names_retextAll args]
  | .call callee args => by
    rw [Expr.retext, Expr.names, Expr.names, Expr.names_retextAll args]

theorem Expr.names_retextAll : ∀ args : List Expr,
    Expr.namesOfArgs (Expr.retextAll op literal args) = Expr.namesOfArgs args
  | [] => rfl
  | arg :: args => by
    rw [Expr.retextAll, Expr.namesOfArgs, Expr.namesOfArgs, Expr.names_retext arg,
      Expr.names_retextAll args]

end

/-- Instructions, literals and type tags are no names. -/
theorem Block.names_retext (block : Block) :
    Block.names (Block.retext op type literal block) = Block.names block := by
  apply Block.names_mapParts (Expr.names_retext op literal)
  exact fun _ => rfl

end Retext

/-- The set of the names of a block is the set of the texts under `name` in its stored form. It
consists of what is declared, referred or assigned to, or called, and is the same whatever
instructions, literals, type tags and values of cases there are. -/
theorem Block.nameSet_of_stored (block : Block) :
    (∀ name, name ∈ Block.nameSet block ↔ name ∈ (Block.toJson block).textsUnder "name") ∧
    (∀ name, name ∈ Block.nameSet block ↔
      name ∈ Block.declared block ∨ name ∈ Block.mentions block ∨ name ∈ Block.callees block) ∧
    ∀ op type literal, Block.nameSet (Block.retext op type literal block) = Block.nameSet block := by
  refine ⟨fun name => ?_, fun name => ?_, fun op type literal => ?_⟩
  · rw [Block.mem_nameSet, Block.textsUnder_toJson]
  · rw [Block.mem_nameSet, Block.mem_names_iff]
    rfl
  · rw [Block.nameSet, Block.nameSet, Block.names_retext]

end YulInline
