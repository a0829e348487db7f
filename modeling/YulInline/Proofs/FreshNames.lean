import YulInline.NameSupply
import Std.Data.String.ToNat
import Mathlib.Data.List.Nodup
import Mathlib.Data.List.Perm.Subperm
import Mathlib.Data.List.Range

/-!
# Fresh names are fresh

The search of `NameSupply.fresh` ends at a free name: the candidates for a stem are pairwise
different, and there are more of them than names in use. `Dispensed` records what a supply has given
out between two states; it is what the later developments know about names.
-/

namespace YulInline

namespace NameSupply

/-- The candidates for a stem are pairwise different: the stem itself is shorter than the others,
and those differ in their number. -/
theorem candidate_injective (stem : String) : Function.Injective (candidate stem) := by
  have hlen : ∀ k, candidate stem (k + 1) ≠ stem := by
    intro k h
    have h' := congrArg (fun text => text.toList.length) h
    simp [candidate] at h'
  intro i j h
  match i, j with
  | 0, 0 => rfl
  | 0, j + 1 => exact absurd h.symm (hlen j)
  | i + 1, 0 => exact absurd h (hlen i)
  | i + 1, j + 1 =>
    have h' := congrArg String.toList h
    simp only [candidate, String.toList_append, List.append_cancel_left_eq] at h'
    exact Nat.repr_injective (String.toList_injective h')

theorem candidate_succ_ne_empty (stem : String) (k : Nat) : candidate stem (k + 1) ≠ "" := by
  intro h
  have h' := congrArg (fun text => text.toList.length) h
  simp [candidate] at h'

/-- Names in use that are pairwise different are no more than there are names in use. -/
theorem length_le_size_of_used {supply : NameSupply} {names : List String} (hnodup : names.Nodup)
    (hused : ∀ name ∈ names, supply.isUsed name = true) : names.length ≤ supply.used.size := by
  have hsub : names ⊆ supply.used.toList := by
    intro name hname
    rw [Std.TreeSet.mem_toList]
    exact hused name hname
  have hle := (List.subperm_of_subset hnodup hsub).length_le
  rwa [Std.TreeSet.length_toList] at hle

/-- Among the candidates of a stem, up to one more than there are names in use, one is free. -/
theorem exists_isFree_candidate (supply : NameSupply) (stem : String) :
    ∃ k ≤ supply.used.size + 1, supply.isFree (candidate stem k) = true := by
  by_contra hnone
  push Not at hnone
  have hused : ∀ name ∈ (List.range (supply.used.size + 1)).map fun k => candidate stem (k + 1),
      supply.isUsed name = true := by
    intro name hname
    obtain ⟨k, hk, rfl⟩ := List.mem_map.mp hname
    have hfree := hnone (k + 1) (by have := List.mem_range.mp hk; omega)
    simpa [isFree, candidate_succ_ne_empty] using hfree
  have hnodup : ((List.range (supply.used.size + 1)).map fun k => candidate stem (k + 1)).Nodup :=
    List.nodup_range.map fun i j h => Nat.succ_injective (candidate_injective stem h)
  have hle := length_le_size_of_used hnodup hused
  rw [List.length_map, List.length_range] at hle
  omega

/-- What the bounded search finds: a candidate in front of which none is free, and which is free
itself unless the search has run out of tries. -/
theorem firstFree_eq_candidate (supply : NameSupply) (stem : String) (fuel k : Nat) :
    ∃ j, k ≤ j ∧ j ≤ k + fuel ∧ supply.firstFree stem fuel k = candidate stem j ∧
      (∀ i, k ≤ i → i < j → supply.isFree (candidate stem i) = false) ∧
      (j < k + fuel → supply.isFree (candidate stem j) = true) := by
  induction fuel generalizing k with
  | zero => exact ⟨k, le_rfl, le_rfl, rfl, fun i h1 h2 => absurd h2 (by omega), by omega⟩
  | succ fuel ih =>
    by_cases hfree : supply.isFree (candidate stem k) = true
    · refine ⟨k, le_rfl, by omega, by simp [firstFree, hfree], fun i h1 h2 => ?_, fun _ => hfree⟩
      exact absurd h2 (by omega)
    · obtain ⟨j, hkj, hj, heq, hbefore, hat⟩ := ih (k + 1)
      refine ⟨j, by omega, by omega, by simp [firstFree, hfree, heq], fun i h1 h2 => ?_,
        fun h => hat (by omega)⟩
      rcases Nat.eq_or_lt_of_le h1 with rfl | hlt
      · simpa using hfree
      · exact hbefore i hlt h2

/-- A fresh name is the first free candidate of its stem. -/
theorem fresh_eq_candidate (supply : NameSupply) (stem : String) :
    ∃ j, (supply.fresh stem).1 = candidate stem j ∧ supply.isFree (candidate stem j) = true ∧
      ∀ i < j, supply.isFree (candidate stem i) = false := by
  obtain ⟨j, -, hj, heq, hbefore, hat⟩ :=
    firstFree_eq_candidate supply stem (supply.used.size + 1) 0
  refine ⟨j, heq, ?_, fun i hi => hbefore i (Nat.zero_le i) hi⟩
  obtain ⟨k, hk, hfree⟩ := exists_isFree_candidate supply stem
  rcases Nat.lt_or_ge k j with hkj | hjk
  · simp [hbefore k (Nat.zero_le k) hkj] at hfree
  · rcases Nat.lt_or_ge j (supply.used.size + 1) with hlt | hge
    · exact hat (by omega)
    · obtain rfl : k = j := by omega
      exact hfree

theorem isFree_fresh (supply : NameSupply) (stem : String) :
    supply.isFree (supply.fresh stem).1 = true := by
  obtain ⟨j, heq, hfree, -⟩ := fresh_eq_candidate supply stem
  rwa [heq]

theorem isFree_iff {supply : NameSupply} {name : String} :
    supply.isFree name = true ↔ name ≠ "" ∧ supply.isUsed name = false := by
  simp [isFree]

end NameSupply

/-! ## What a supply has given out -/

/-- Between the states `before` and `after` of a supply exactly `names` have been given out: they
were free before, are pairwise different, and are in use after. -/
structure Dispensed (before : NameSupply) (names : List String) (after : NameSupply) : Prop where
  /-- No name was given out twice. -/
  nodup : names.Nodup
  /-- Every name was free. -/
  free : ∀ name ∈ names, before.isFree name = true
  /-- Nothing else was taken into use. -/
  used : ∀ name, after.isUsed name = true ↔ name ∈ names ∨ before.isUsed name = true

namespace Dispensed

variable {before between after : NameSupply} {names later : List String}

theorem refl (supply : NameSupply) : Dispensed supply [] supply :=
  ⟨List.nodup_nil, by simp, by simp⟩

theorem fresh (supply : NameSupply) (stem : String) :
    Dispensed supply [(supply.fresh stem).1] (supply.fresh stem).2 := by
  refine ⟨List.nodup_singleton _, ?_, fun name => ?_⟩
  · intro name hname
    rw [List.mem_singleton.mp hname]
    exact NameSupply.isFree_fresh supply stem
  · rw [NameSupply.isUsed_fresh, Bool.or_eq_true, beq_iff_eq, List.mem_singleton, eq_comm]

/-- A name that was in use is not given out. -/
theorem not_mem_of_isUsed (h : Dispensed before names after) {name : String}
    (hused : before.isUsed name = true) : name ∉ names := by
  intro hmem
  have := (NameSupply.isFree_iff.mp (h.free name hmem)).2
  simp [hused] at this

theorem isUsed_of_isUsed (h : Dispensed before names after) {name : String}
    (hused : before.isUsed name = true) : after.isUsed name = true :=
  (h.used name).mpr (Or.inr hused)

theorem isUsed_of_mem (h : Dispensed before names after) {name : String} (hmem : name ∈ names) :
    after.isUsed name = true :=
  (h.used name).mpr (Or.inl hmem)

theorem ne_empty (h : Dispensed before names after) {name : String} (hmem : name ∈ names) :
    name ≠ "" :=
  (NameSupply.isFree_iff.mp (h.free name hmem)).1

/-- What is given out later differs from what was given out before. -/
theorem disjoint (h : Dispensed before names between) (h' : Dispensed between later after) :
    names.Disjoint later :=
  fun _ hmem hmem' => h'.not_mem_of_isUsed (h.isUsed_of_mem hmem) hmem'

theorem trans (h : Dispensed before names between) (h' : Dispensed between later after) :
    Dispensed before (names ++ later) after := by
  refine ⟨List.nodup_append'.mpr ⟨h.nodup, h'.nodup, h.disjoint h'⟩, ?_, fun name => ?_⟩
  · intro name hname
    rcases List.mem_append.mp hname with hname | hname
    · exact h.free name hname
    · refine NameSupply.isFree_iff.mpr ⟨h'.ne_empty hname, ?_⟩
      by_contra hused
      exact h'.not_mem_of_isUsed (h.isUsed_of_isUsed (by simpa using hused)) hname
  · rw [h'.used, h.used, List.mem_append]
    tauto

/-- The order in which names were given out does not matter. -/
theorem perm (h : Dispensed before names after) (hperm : names.Perm later) :
    Dispensed before later after :=
  ⟨hperm.nodup h.nodup, fun name hname => h.free name (hperm.mem_iff.mpr hname),
    fun name => by rw [h.used, hperm.mem_iff]⟩

/-- Nothing has been given out exactly if the same names are in use. -/
theorem eq_nil_iff (h : Dispensed before names after) :
    names = [] ↔ ∀ name, after.isUsed name = before.isUsed name := by
  constructor
  · rintro rfl name
    rw [Bool.eq_iff_iff, h.used]
    simp
  · intro hsame
    refine List.eq_nil_iff_forall_not_mem.mpr fun name hmem => ?_
    exact h.not_mem_of_isUsed (hsame name ▸ h.isUsed_of_mem hmem) hmem

end Dispensed

end YulInline
