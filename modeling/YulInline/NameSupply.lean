import YulInline.Ast.Names

/-!
# A supply of fresh names

The supply knows the names that are in use. A fresh name is derived from a stem: the first unused
one of `stem`, `stem_1`, `stem_2`, …, which is in use from then on, so that no name is given out
twice. The empty name is never given out.
-/

namespace YulInline

/-- The names in use. -/
structure NameSupply where
  /-- The names that will not be given out. -/
  used : Std.TreeSet String

namespace NameSupply

/-- The supply in which exactly the given names are in use. -/
def ofList (names : List String) : NameSupply :=
  ⟨Std.TreeSet.ofList names⟩

/-- The supply in which exactly the names of a block are in use. -/
def ofBlock (block : Block) : NameSupply :=
  ⟨block.nameSet⟩

/-- Whether a name is in use. -/
def isUsed (supply : NameSupply) (name : String) : Bool :=
  supply.used.contains name

/-- Takes a name into use. -/
def reserve (supply : NameSupply) (name : String) : NameSupply :=
  ⟨supply.used.insert name⟩

/-- Whether a name can be given out. -/
def isFree (supply : NameSupply) (name : String) : Bool :=
  name ≠ "" && !supply.isUsed name

/-- The candidates for a stem: the stem itself, then the stem with a number from one upwards. -/
def candidate (stem : String) : Nat → String
  | 0 => stem
  | k + 1 => stem ++ "_" ++ toString (k + 1)

/-- The first candidate from the `k`-th one on that is free. No more than `fuel` candidates are
tried; if none of them is free, the next one is taken. -/
def firstFree (supply : NameSupply) (stem : String) : (fuel k : Nat) → String
  | 0, k => candidate stem k
  | fuel + 1, k =>
    if supply.isFree (candidate stem k) then candidate stem k
    else supply.firstFree stem fuel (k + 1)

/-- A fresh name for a stem, and the supply in which it is in use. Of the first candidates, one more
than there are names in use, at most one is empty and the others are distinct: if none of them is
free, they are all the names in use, and the next candidate is free. -/
def fresh (supply : NameSupply) (stem : String) : String × NameSupply :=
  let name := supply.firstFree stem (supply.used.size + 1) 0
  (name, supply.reserve name)

/-! ## What is in use -/

@[simp] theorem isUsed_ofList (names : List String) (name : String) :
    (ofList names).isUsed name = names.contains name := by
  simp [ofList, isUsed, Std.TreeSet.contains_ofList]

theorem isUsed_ofBlock {block : Block} {name : String} :
    (ofBlock block).isUsed name = true ↔ name ∈ Block.names block := by
  rw [← Block.mem_nameSet]
  rfl

@[simp] theorem isUsed_reserve (supply : NameSupply) (name other : String) :
    (supply.reserve name).isUsed other = (name == other || supply.isUsed other) := by
  rw [Bool.eq_iff_iff]
  simp [reserve, isUsed, Std.TreeSet.contains_insert, Std.LawfulEqCmp.compare_eq_iff_eq]

/-- A fresh name is in use from then on, and what was in use stays so. -/
theorem isUsed_fresh (supply : NameSupply) (stem name : String) :
    (supply.fresh stem).2.isUsed name = ((supply.fresh stem).1 == name || supply.isUsed name) :=
  isUsed_reserve ..

end NameSupply

end YulInline
