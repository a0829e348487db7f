import YulInline.Stored.Record
import YulInline.Toml.Reader

/-!
# Settings

What the optimiser is to do: the steps it runs in order, and names that it must not introduce.
Either may be left out and then has its default. Settings come from a TOML document or from a JSON
value; both are refused if they hold anything else.
-/

namespace YulInline

/-- A step of the optimiser. -/
inductive Step where
  /-- Inline every function that can be inlined. -/
  | fullInliner
deriving DecidableEq, Repr

/-- The name of a step in settings and messages. -/
def Step.name : Step → String
  | .fullInliner => "full-inliner"

/-- The step of a given name. -/
def Step.ofName? (name : String) : Option Step :=
  [Step.fullInliner].find? fun step => step.name = name

/-- What the optimiser is to do. -/
structure Settings where
  /-- The steps, in the order in which they run. -/
  steps : List Step := [.fullInliner]
  /-- Names that must not be introduced, beside those that occur in the module. -/
  reservedNames : List String := []
deriving DecidableEq, Repr

/-! ## TOML -/

/-- A step in a TOML document: its name, or a table with the name as only key and no content. -/
def Step.ofToml? : Toml.Value → Option Step
  | .str name => Step.ofName? name
  | .table ⟨_, [(name, .table ⟨_, []⟩)]⟩ => Step.ofName? name
  | .table ⟨_, [(name, .arr [])]⟩ => Step.ofName? name
  | _ => none

/-- The items of an array, which may be an array of tables with headers. -/
def Toml.Value.items? : Toml.Value → Option (List Toml.Value)
  | .arr items => some items
  | .tables latest earlier => some ((latest :: earlier).reverse.map .table)
  | _ => none

/-- The text that a value is. -/
def Toml.Value.str? : Toml.Value → Option String
  | .str text => some text
  | _ => none

/-- The settings that a TOML table says. -/
def Settings.ofTable? (table : Toml.Table) : Option Settings := do
  guard (table.entries.all fun (key, _) => key = "steps" || key = "reserved_names")
  let defaults : Settings := {}
  let steps ← match table.get? "steps" with
    | none => some defaults.steps
    | some steps => (← steps.items?).mapM Step.ofToml?
  let reservedNames ← match table.get? "reserved_names" with
    | none => some defaults.reservedNames
    | some names => (← names.items?).mapM Toml.Value.str?
  return { steps, reservedNames }

/-- The settings of a TOML document. -/
def Settings.ofToml? (text : String) : Option Settings :=
  (Toml.read? text).bind Settings.ofTable?

/-! ## JSON -/

/-- A step in JSON: its name, or an object with the name as only key and `null` as its value. -/
def Step.ofJson? : Json → Option Step
  | .str name => Step.ofName? name
  | .obj [(name, .null)] => Step.ofName? name
  | _ => none

/-- Whether a JSON object has no key other than those of `keys`. -/
def Json.hasOnly (keys : List String) : Json → Bool
  | .obj members => members.all fun (key, _) => keys.contains key
  | _ => true

/-- The settings of a JSON value, which is a record. -/
def Settings.ofJson? (json : Json) : Option Settings := do
  guard (json.hasOnly ["steps", "reserved_names"])
  let defaults : Settings := {}
  match ← Json.record?
      [.optional "steps" (.arr (defaults.steps.map fun step => .str step.name)),
        .optional "reserved_names" (.arr (defaults.reservedNames.map .str))] json with
  | [steps, names] =>
    return {
      steps := ← (← steps.items?).mapM Step.ofJson?
      reservedNames := ← (← names.items?).mapM Json.str? }
  | _ => none

end YulInline
