import YulInline.Json.Basic

/-!
# Records in JSON

A record with a fixed list of fields has two forms. As an object its members may come in any order,
members with other keys are ignored, and no field may occur twice. As an array it lists its fields
in order, without any extra item. A field may have a value that stands for it where it is left out:
in an object wherever that happens, in an array only if the field says so and ends the array.

A node of several kinds carries its kind in front of its fields: as the member `kind` of the object
or as the first item of the array.
-/

namespace YulInline.Json

/-- The text of a string. -/
def str? : Json → Option String
  | .str text => some text
  | _ => none

/-- The items of an array. -/
def items? : Json → Option (List Json)
  | .arr items => some items
  | _ => none

/-- A field of a record. -/
structure Field where
  /-- The key of the field. -/
  key : String
  /-- The value that stands for the field where it is left out; none if it is required. -/
  absent : Option Json := none
  /-- Whether the array form may end in front of the field. -/
  mayEnd : Bool := false

namespace Field

/-- A field that has to be there. -/
def required (key : String) : Field :=
  ⟨key, none, false⟩

/-- A field that stands for `null` where an object leaves it out. -/
def nullable (key : String) : Field :=
  ⟨key, some .null, false⟩

/-- A field that stands for `value` where it is left out, in either form. -/
def optional (key : String) (value : Json) : Field :=
  ⟨key, some value, true⟩

/-- The value of a field among the members of an object. -/
def find? (field : Field) (members : List (String × Json)) : Option Json :=
  match members.filter fun (key, _) => key = field.key with
  | [] => field.absent
  | [(_, value)] => some value
  | _ => none

/-- The values of fields that are listed in order. -/
def inOrder? : List Field → List Json → Option (List Json)
  | [], [] => some []
  | [], _ :: _ => none
  | _ :: fields, item :: items => (inOrder? fields items).map (item :: ·)
  | field :: fields, [] =>
    match field.mayEnd, field.absent with
    | true, some value => (inOrder? fields []).map (value :: ·)
    | _, _ => none

end Field

/-- The values of the fields of a record, in the order of `fields`. -/
def record? (fields : List Field) : Json → Option (List Json)
  | .obj members => fields.mapM fun field => field.find? members
  | .arr items => Field.inOrder? fields items
  | _ => none

/-- The kind of a node of several kinds, and its record without the kind. -/
def kindAndRecord? : Json → Option (Json × Json)
  | .obj members =>
    match members.filter fun (key, _) => key = "kind" with
    | [(_, kind)] => some (kind, .obj (members.filter fun (key, _) => key ≠ "kind"))
    | _ => none
  | .arr (kind :: items) => some (kind, .arr items)
  | _ => none

/-- How the kind of a node may be given. -/
inductive KindForm where
  /-- By its name. -/
  | name
  /-- By its name, or by its position in the list of kinds, counted from zero. -/
  | nameOrIndex
deriving DecidableEq, Repr

/-- The kind that a value gives, of a list of kinds with names. -/
def kind? {κ : Type} (form : KindForm) (name : κ → String) (kinds : List κ) : Json → Option κ
  | .str text => kinds.find? fun kind => name kind = text
  | .num number =>
    match form with
    | .name => none
    | .nameOrIndex => number.index?.bind fun index => kinds[index]?
  | _ => none

end YulInline.Json
