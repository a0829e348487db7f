/-!
# TOML tables

A TOML document builds up one table. A table comes about by a header, by being a parent that no
header has named yet, by the dots of a key, or between braces; what may be added to it later depends
on that. A header may name a parent that is only implied so far, but no table twice; dotted keys
extend tables that dotted keys made, and no others; a table between braces is complete. `[[…]]`
opens one more table of an array of tables, and what follows belongs to the latest of them.

Values are texts, arrays and tables. Settings have no use for numbers, truth values and dates, and
neither has this reader.
-/

namespace YulInline.Toml

/-- How a table came about. -/
inductive TableKind where
  /-- By a header of its own, or as the root of the document. -/
  | header
  /-- As a parent in a header of another table. -/
  | implied
  /-- As a parent in a dotted key. -/
  | dotted
  /-- Between braces. -/
  | inline
deriving DecidableEq, Repr

mutual

/-- A value. -/
inductive Value where
  /-- A text. -/
  | str (value : String)
  /-- An array between brackets. -/
  | arr (items : List Value)
  /-- A table. -/
  | table (table : Table)
  /-- An array of tables with headers: the latest one, and those before it, the latest of them
  first. -/
  | tables (latest : Table) (earlier : List Table)

/-- A table. -/
structure Table where
  /-- How it came about. -/
  kind : TableKind
  /-- Its keys, each of which occurs once, with their values. -/
  entries : List (String × Value)

end

/-- A dotted key: the parents from the outside inwards, and the key itself. -/
structure Path where
  /-- What stands in front of the last dot. -/
  parents : List String
  /-- What stands behind the last dot. -/
  key : String
deriving DecidableEq, Repr

/-- What a line of a document says. -/
inductive Line where
  /-- What follows belongs to a table. -/
  | table (path : Path)
  /-- What follows belongs to a new table of an array of tables. -/
  | element (path : Path)
  /-- A key has a value. -/
  | entry (path : Path) (value : Value)

namespace Table

/-- The value of a key. -/
def get? (table : Table) (key : String) : Option Value :=
  table.entries.lookup key

/-- The table in which a key has a value, whatever it had before. -/
def put (table : Table) (key : String) (value : Value) : Table :=
  ⟨table.kind, (table.entries.filter fun (other, _) => other ≠ key) ++ [(key, value)]⟩

/-- Whether one may step into a table on the way to another one, by the parents of a dotted key or
of a header. -/
def admits (dotted : Bool) (table : Table) : Bool :=
  match table.kind with
  | .inline => false
  | .header => !dotted
  | .implied | .dotted => true

/-- Changes the table below `table` that the parents of a dotted key or of a header lead to. Parents
that do not exist come about; an array of tables stands for its latest table. -/
def change? (dotted : Bool) (f : Table → Option Table) : List String → Table → Option Table
  | [], table => f table
  | key :: parents, table =>
    match table.get? key with
    | none =>
      let inner := ⟨if dotted then .dotted else .implied, []⟩
      (change? dotted f parents inner).map fun inner => table.put key (.table inner)
    | some (.table inner) =>
      if inner.admits dotted then
        (change? dotted f parents inner).map fun inner => table.put key (.table inner)
      else none
    | some (.tables latest earlier) =>
      (change? dotted f parents latest).map fun latest => table.put key (.tables latest earlier)
    | some _ => none

/-- Gives a dotted key below `table` a value. A key without dots belongs to the table itself, one
with dots to a table that dotted keys made; in neither may it have a value already. -/
def insert? (table : Table) (path : Path) (value : Value) : Option Table :=
  change? true (fun inner =>
    if decide (inner.kind = .dotted) = path.parents.isEmpty then none
    else match inner.get? path.key with
      | none => some (inner.put path.key value)
      | some _ => none) path.parents table

/-- Opens the table that a header names. -/
def openTable? (root : Table) (path : Path) : Option Table :=
  change? false (fun parent =>
    match parent.get? path.key with
    | none => some (parent.put path.key (.table ⟨.header, []⟩))
    | some (.table ⟨.implied, entries⟩) =>
      some (parent.put path.key (.table ⟨.header, entries⟩))
    | some _ => none) path.parents root

/-- Opens one more table of the array of tables that a header names. -/
def openElement? (root : Table) (path : Path) : Option Table :=
  change? false (fun parent =>
    match parent.get? path.key with
    | none => some (parent.put path.key (.tables ⟨.header, []⟩ []))
    | some (.tables latest earlier) =>
      some (parent.put path.key (.tables ⟨.header, []⟩ (latest :: earlier)))
    | some _ => none) path.parents root

/-- The table between braces that has the given entries. -/
def ofEntries? (entries : List (Path × Value)) : Option Table :=
  entries.foldlM (fun table (path, value) => table.insert? path value) ⟨.inline, []⟩

/-- The root of a document, of which the table at `here` is open, after one more line; gives also
the keys that lead to the table that is open then. -/
def addLine? (root : Table) (here : List String) : Line → Option (Table × List String)
  | .table path => (root.openTable? path).map fun root => (root, path.parents ++ [path.key])
  | .element path => (root.openElement? path).map fun root => (root, path.parents ++ [path.key])
  | .entry path value =>
    (change? false (fun table => table.insert? path value) here root).map fun root => (root, here)

/-- The root of a document that consists of the given lines. -/
def ofLines? (lines : List Line) : Option Table :=
  let start : Table × List String := (⟨.header, []⟩, [])
  (lines.foldlM (fun (root, here) line => addLine? root here line) start).map Prod.fst

end Table

end YulInline.Toml
