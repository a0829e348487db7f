import YulInline.Json.Basic

/-!
# Writing JSON

The indented form of a JSON value: two spaces for each level, every item and member on a line of its
own, empty arrays and objects on one. In a string the quote, the backslash and the characters below
the space are escaped, and everything else stands for itself.
-/

namespace YulInline.Json

/-- The characters that stand for `c` in a string. -/
def escape (c : Char) : List Char :=
  match c with
  | '"' => ['\\', '"']
  | '\\' => ['\\', '\\']
  | '\x08' => ['\\', 'b']
  | '\x0c' => ['\\', 'f']
  | '\n' => ['\\', 'n']
  | '\r' => ['\\', 'r']
  | '\t' => ['\\', 't']
  | c =>
    if c < ' ' then
      ['\\', 'u', '0', '0', Nat.digitChar (c.toNat / 16), Nat.digitChar (c.toNat % 16)]
    else [c]

/-- A text as a string of JSON. -/
def quote (text : String) : String :=
  "\"" ++ String.ofList (text.toList.flatMap escape) ++ "\""

/-- The space in front of a line at nesting depth `depth`. -/
def indent (depth : Nat) : String :=
  String.ofList (List.replicate (2 * depth) ' ')

/-- Entries between an opening and a closing bracket, the latter at nesting depth `depth`. -/
def enclose (depth : Nat) (opening closing : String) (entries : List String) : String :=
  if entries = [] then opening ++ closing
  else
    opening ++ "\n" ++ ",\n".intercalate (entries.map fun entry => indent (depth + 1) ++ entry) ++
      "\n" ++ indent depth ++ closing

mutual

/-- The indented form of a value that starts at nesting depth `depth`. -/
def renderAt (depth : Nat) : Json → String
  | .null => "null"
  | .bool true => "true"
  | .bool false => "false"
  | .num number => number.render
  | .str text => quote text
  | .arr items => enclose depth "[" "]" (renderItems (depth + 1) items)
  | .obj members => enclose depth "\x7b" "\x7d" (renderMembers (depth + 1) members)

/-- The items of an array, each at nesting depth `depth`. -/
def renderItems (depth : Nat) : List Json → List String
  | [] => []
  | item :: items => item.renderAt depth :: renderItems depth items

/-- The members of an object, each at nesting depth `depth`. -/
def renderMembers (depth : Nat) : List (String × Json) → List String
  | [] => []
  | (key, value) :: members =>
    (quote key ++ ": " ++ value.renderAt depth) :: renderMembers depth members

end

/-- The indented form of a value. -/
def render (value : Json) : String :=
  value.renderAt 0

end YulInline.Json
