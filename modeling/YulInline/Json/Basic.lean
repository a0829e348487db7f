import YulInline.Json.Number

/-!
# JSON values

Members of an object keep the order of the text, and a key may occur more than once: what a repeated
key means is for the reader of the value to say.
-/

namespace YulInline

/-- A JSON value. -/
inductive Json where
  /-- The value `null`. -/
  | null
  /-- A truth value. -/
  | bool (value : Bool)
  /-- A number. -/
  | num (value : Json.Number)
  /-- A string. -/
  | str (value : String)
  /-- An array. -/
  | arr (items : List Json)
  /-- An object, as pairs of a key and a value. -/
  | obj (members : List (String × Json))
deriving BEq, Repr, Inhabited

namespace Json

mutual

/-- The number of arrays and objects that are nested in a value, the value itself included. -/
def depth : Json → Nat
  | .arr items => depthOfItems items + 1
  | .obj members => depthOfMembers members + 1
  | _ => 0

/-- The depth of the deepest item. -/
def depthOfItems : List Json → Nat
  | [] => 0
  | item :: items => max item.depth (depthOfItems items)

/-- The depth of the deepest member. -/
def depthOfMembers : List (String × Json) → Nat
  | [] => 0
  | (_, value) :: members => max value.depth (depthOfMembers members)

end

end Json

end YulInline
