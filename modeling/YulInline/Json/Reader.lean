import YulInline.Json.Basic
import YulInline.Json.Token

/-!
# Reading JSON

`Json.read?` reads a text whose arrays and objects are nested to a given depth at most, the
outermost one included. A value may be read in two ways. Read strictly, a string has to denote a
text and a number has to be in range. A value that nobody is going to look at is only skipped: its
form is checked, and nothing else, neither its depth nor what its strings and numbers denote.
`Json.readMembers?` reads an object of which only some members are wanted, and skips the others.
-/

namespace YulInline.Json

/-- How a value is read. -/
inductive Care where
  /-- Everything is checked, and the value is wanted. -/
  | strict
  /-- Only the form is checked; the value that results is not looked at. -/
  | skip
deriving DecidableEq, Repr

/-- The text of a string token, which is missing if a surrogate stands alone in it; in a skipped
value any text will do. -/
def Care.text? : Care → Option String → Option String
  | .strict, text => text
  | .skip, text => some (text.getD "")

/-- Whether a number may be read. -/
def Care.admits : Care → Number → Bool
  | .strict, number => decide number.InRange
  | .skip, _ => true

/-- One or more items with commas between them, up to the token `close`; there are at most `fuel` of
them. Gives the items and what follows `close`. -/
def separated? {α : Type} (item? : List Token → Option (α × List Token)) (close : Token) :
    Nat → List Token → Option (List α × List Token)
  | 0, _ => none
  | fuel + 1, tokens =>
    match item? tokens with
    | none => none
    | some (item, .comma :: rest) =>
      (separated? item? close fuel rest).map fun (items, rest) => (item :: items, rest)
    | some (item, token :: rest) => if token = close then some ([item], rest) else none
    | some (_, []) => none

/-- The items up to the token `close`, of which there may be none. -/
def listUpTo? {α : Type} (item? : List Token → Option (α × List Token)) (close : Token)
    (tokens : List Token) : Option (List α × List Token) :=
  match tokens with
  | [] => none
  | token :: rest =>
    if token = close then some ([], rest) else separated? item? close tokens.length tokens

/-- A member of an object: a key, a colon, and a value that is read in a way that may depend on the
key. -/
def member? (care : Care) (value? : String → List Token → Option (Json × List Token)) :
    List Token → Option ((String × Json) × List Token)
  | .string key :: .colon :: rest =>
    match care.text? key with
    | none => none
    | some key => (value? key rest).map fun (value, rest) => ((key, value), rest)
  | _ => none

/-- A value whose arrays and objects are nested to depth `depth` at most, and the tokens that follow
it. -/
def value? (care : Care) : Nat → List Token → Option (Json × List Token)
  | _, .null :: rest => some (.null, rest)
  | _, .bool b :: rest => some (.bool b, rest)
  | _, .number n :: rest => if care.admits n then some (.num n, rest) else none
  | _, .string text :: rest => (care.text? text).map fun text => (.str text, rest)
  | depth + 1, .openArray :: rest =>
    (listUpTo? (value? care depth) .closeArray rest).map fun (items, rest) => (.arr items, rest)
  | depth + 1, .openObject :: rest =>
    (listUpTo? (member? care fun _ => value? care depth) .closeObject rest).map
      fun (members, rest) => (.obj members, rest)
  | _, _ => none

/-- The value that makes up a whole text, nested to depth `depth` at most. -/
def read? (depth : Nat) (text : String) : Option Json :=
  match Token.scan? text.toList with
  | none => none
  | some tokens =>
    match value? .strict depth tokens with
    | some (value, []) => some value
    | _ => none

/-- The value that makes up a whole text, nested to depth `depth` at most. If it is an object, only
the members with a key that is `wanted` are read, and the others are skipped. -/
def readMembers? (wanted : String → Bool) (depth : Nat) (text : String) : Option Json :=
  match Token.scan? text.toList with
  | none => none
  | some (.openObject :: tokens) =>
    let memberValue? key :=
      if wanted key then value? .strict (depth - 1) else value? .skip tokens.length
    match listUpTo? (member? .strict memberValue?) .closeObject tokens with
    | some (members, []) => some (.obj (members.filter fun (key, _) => wanted key))
    | _ => none
  | some tokens =>
    match value? .strict depth tokens with
    | some (value, []) => some value
    | _ => none

end YulInline.Json
