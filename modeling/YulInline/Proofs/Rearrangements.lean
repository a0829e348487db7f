import YulInline.Stored.Decoding
import YulInline.Proofs.JsonReading
import Mathlib.Data.List.Forall2

/-!
# Rearranged values

A stored form says the same when it is laid out differently. `Json.Rearranged` says what may differ,
at any place of a value: the order of the members of an object, further members with keys that the
object does not have, and members that are left out because they say nothing, namely an empty type
tag and a missing value.

The reader of records does not see the difference. From a rearranged record it takes values that are
rearrangements of those in the record, in the order of its fields (`Json.Rearranged.record?`), and
from a rearranged node the kind of the node and a rearrangement of its record
(`Json.Rearranged.kindAndRecord?`).
-/

namespace YulInline.Json

/-- A member that may be left out of an object: an empty type tag, or a value that is missing. -/
inductive Omissible : String → Json → Prop where
  | typeTag : Omissible "type_name" (.str "")
  | value : Omissible "value" .null

theorem Omissible.depth_eq {key : String} {value : Json} (h : Omissible key value) :
    value.depth = 0 := by
  cases h <;> rfl

/-- A member with another key, or with another value, has to stay. -/
theorem Omissible.eq_or {key : String} {value : Json} (h : Omissible key value) :
    key = "type_name" ∧ value = .str "" ∨ key = "value" ∧ value = .null := by
  cases h
  · exact .inl ⟨rfl, rfl⟩
  · exact .inr ⟨rfl, rfl⟩

mutual

/-- A value, and what it may be rearranged to. -/
inductive Rearranged : Json → Json → Prop where
  | null : Rearranged .null .null
  | bool (value : Bool) : Rearranged (.bool value) (.bool value)
  | num (number : Number) : Rearranged (.num number) (.num number)
  | str (text : String) : Rearranged (.str text) (.str text)
  | arr {items items' : List Json} (hitems : ItemsRearranged items items') :
    Rearranged (.arr items) (.arr items')
  /-- What is kept of the members, together with further ones, in any order. -/
  | obj {members kept added members' : List (String × Json)} (hkept : MembersKept members kept)
    (hadded : ∀ member ∈ added, member.1 ∉ members.map Prod.fst)
    (horder : members'.Perm (kept ++ added)) : Rearranged (.obj members) (.obj members')

/-- The items of an array, and what they may be rearranged to in their places. -/
inductive ItemsRearranged : List Json → List Json → Prop where
  | nil : ItemsRearranged [] []
  | cons {item item' : Json} {items items' : List Json} (hitem : Rearranged item item')
    (hitems : ItemsRearranged items items') : ItemsRearranged (item :: items) (item' :: items')

/-- The members of an object, and those that are kept, with values that are rearranged. -/
inductive MembersKept : List (String × Json) → List (String × Json) → Prop where
  | nil : MembersKept [] []
  | keep (key : String) {value value' : Json} {members kept : List (String × Json)}
    (hvalue : Rearranged value value') (hmembers : MembersKept members kept) :
    MembersKept ((key, value) :: members) ((key, value') :: kept)
  | leave {key : String} {value : Json} {members kept : List (String × Json)}
    (homissible : Omissible key value) (hmembers : MembersKept members kept) :
    MembersKept ((key, value) :: members) kept

end

mutual

/-- A value may stay as it is. -/
theorem Rearranged.refl : (value : Json) → Rearranged value value
  | .null => .null
  | .bool value => .bool value
  | .num number => .num number
  | .str text => .str text
  | .arr items => .arr (ItemsRearranged.refl items)
  | .obj members =>
    @Rearranged.obj members members [] members (MembersKept.refl members) (List.forall_mem_nil _)
      (by rw [List.append_nil])

theorem ItemsRearranged.refl : (items : List Json) → ItemsRearranged items items
  | [] => .nil
  | item :: items => .cons (.refl item) (.refl items)

theorem MembersKept.refl : (members : List (String × Json)) → MembersKept members members
  | [] => .nil
  | (key, value) :: members => .keep key (.refl value) (.refl members)

end

/-! ## Members by their keys -/

theorem MembersKept.mem_keys {members kept : List (String × Json)} :
    MembersKept members kept → ∀ member ∈ kept, member.1 ∈ members.map Prod.fst
  | .nil => List.forall_mem_nil _
  | .keep key hvalue hmembers => by
    rw [List.forall_mem_cons]
    exact ⟨List.mem_cons_self, fun member hmember =>
      List.mem_cons_of_mem _ (hmembers.mem_keys member hmember)⟩
  | .leave _ hmembers => fun member hmember =>
    List.mem_cons_of_mem _ (hmembers.mem_keys member hmember)

/-- Of members with other keys there is none with this one. -/
theorem filter_key_eq_nil {members : List (String × Json)} {key : String}
    (h : ∀ member ∈ members, member.1 ≠ key) :
    (members.filter fun (other, _) => other = key) = [] := by
  simpa [List.filter_eq_nil_iff] using fun other value hmem => h (other, value) hmem

/-- If no key occurs twice, one member at most is kept for each, and none only if it may be left
out. -/
theorem MembersKept.filter_key {members kept : List (String × Json)} {key : String} {value : Json} :
    MembersKept members kept → (members.map Prod.fst).Nodup → (key, value) ∈ members →
      (Omissible key value ∧ (kept.filter fun (other, _) => other = key) = []) ∨
        ∃ value', Rearranged value value' ∧
          (kept.filter fun (other, _) => other = key) = [(key, value')]
  | .nil, _, hmem => by cases hmem
  | @MembersKept.keep other _ value' members kept hvalue hmembers, hnodup, hmem => by
    obtain ⟨hother, hnodup⟩ := List.nodup_cons.mp hnodup
    rcases List.mem_cons.mp hmem with hsame | hmem
    · obtain ⟨rfl, rfl⟩ := Prod.mk.inj hsame
      have hnone : (kept.filter fun (other, _) => other = key) = [] := by
        refine filter_key_eq_nil fun member hmember => ?_
        rintro rfl
        exact hother (hmembers.mem_keys member hmember)
      refine .inr ⟨value', hvalue, ?_⟩
      rw [List.filter_cons_of_pos (by simp), hnone]
    · have hne : other ≠ key := by
        rintro rfl
        exact hother (List.mem_map.mpr ⟨_, hmem, rfl⟩)
      rw [List.filter_cons_of_neg (by simpa using hne)]
      exact hmembers.filter_key hnodup hmem
  | @MembersKept.leave other _ members kept homissible hmembers, hnodup, hmem => by
    obtain ⟨hother, hnodup⟩ := List.nodup_cons.mp hnodup
    rcases List.mem_cons.mp hmem with hsame | hmem
    · obtain ⟨rfl, rfl⟩ := Prod.mk.inj hsame
      refine .inl ⟨homissible, filter_key_eq_nil fun member hmember => ?_⟩
      rintro rfl
      exact hother (hmembers.mem_keys member hmember)
    · exact hmembers.filter_key hnodup hmem

/-! ## Records -/

/-- A field finds a member of a record, also where the member is left out. -/
structure Field.Reads (field : Field) (member : String × Json) : Prop where
  key : field.key = member.1
  absent : Omissible member.1 member.2 → field.absent = some member.2

/-- In a rearranged record a field finds a rearrangement of its member. -/
theorem Field.Reads.find? {field : Field} {member : String × Json} (h : field.Reads member)
    {members kept added members' : List (String × Json)} (hkept : MembersKept members kept)
    (hadded : ∀ member ∈ added, member.1 ∉ members.map Prod.fst)
    (horder : members'.Perm (kept ++ added)) (hnodup : (members.map Prod.fst).Nodup)
    (hmem : member ∈ members) : ∃ value, field.find? members' = some value ∧
      Rearranged member.2 value ∧ value.depth ≤ depthOfMembers members' := by
  have hnone : (added.filter fun (other, _) => other = member.1) = [] := by
    refine filter_key_eq_nil fun other hother hsame => ?_
    exact hadded other hother (hsame ▸ List.mem_map_of_mem hmem)
  have hfilter : (members'.filter fun (other, _) => other = field.key).Perm
      (kept.filter fun (other, _) => other = member.1) := by
    have hperm := horder.filter fun (other, _) => decide (other = member.1)
    rw [List.filter_append, hnone, List.append_nil] at hperm
    rw [h.key]
    exact hperm
  rw [Field.find?]
  rcases hkept.filter_key hnodup hmem with ⟨homissible, hnil⟩ | ⟨value, hvalue, hone⟩
  · rw [hnil] at hfilter
    rw [hfilter.eq_nil]
    exact ⟨member.2, h.absent homissible, .refl member.2, homissible.depth_eq ▸ Nat.zero_le _⟩
  · rw [hone] at hfilter
    have hfound := hfilter.eq_singleton
    rw [hfound]
    refine ⟨value, rfl, hvalue, ?_⟩
    have hmem' : (member.1, value) ∈ members' :=
      (List.mem_filter.mp (hfound ▸ List.mem_singleton_self _)).1
    exact depthOfMembers_le_iff.mp le_rfl _ hmem'

/-- The fields of a record find rearrangements of its members in a rearranged record. -/
theorem Rearranged.record? {fields : List Field} {members : List (String × Json)} {json : Json}
    (h : Rearranged (.obj members) json) (hnodup : (members.map Prod.fst).Nodup)
    (hfields : List.Forall₂ Field.Reads fields members) :
    ∃ values, Json.record? fields json = some values ∧
      List.Forall₂ (fun member value => Rearranged member.2 value ∧ value.depth < json.depth)
        members values := by
  cases h with
  | @obj _ kept added members' hkept hadded horder =>
    -- The members are all looked up in the whole object, so the induction is on a part of them.
    have hpart : ∀ {fields part}, List.Forall₂ Field.Reads fields part → part ⊆ members →
        ∃ values, (fields.mapM fun field => field.find? members') = some values ∧
          List.Forall₂ (fun member value => Rearranged member.2 value ∧
            value.depth < (Json.obj members').depth) part values := by
      intro fields part hpart
      induction hpart with
      | nil => exact fun _ => ⟨[], rfl, .nil⟩
      | cons hfield _ ih =>
        intro hsubset
        obtain ⟨hmem, hsubset⟩ := List.cons_subset.mp hsubset
        obtain ⟨value, hfind, hvalue, hdepth⟩ := hfield.find? hkept hadded horder hnodup hmem
        obtain ⟨values, hfinds, hvalues⟩ := ih hsubset
        refine ⟨value :: values, ?_, .cons ⟨hvalue, Nat.lt_succ_of_le hdepth⟩ hvalues⟩
        rw [List.mapM_cons, hfind, hfinds]
        rfl
    exact hpart hfields (List.Subset.refl members)

/-! ## Nodes with a kind -/

/-- Of the members with some of the keys, those are kept that are kept of all. -/
theorem MembersKept.filter (wanted : String → Bool) {members kept : List (String × Json)} :
    MembersKept members kept →
      MembersKept (members.filter fun (key, _) => wanted key)
        (kept.filter fun (key, _) => wanted key)
  | .nil => .nil
  | .keep key hvalue hmembers => by
    have hrest := hmembers.filter wanted
    cases hkey : wanted key with
    | true =>
      simp only [List.filter_cons, hkey, if_true]
      exact .keep key hvalue hrest
    | false => simpa [hkey] using hrest
  | @MembersKept.leave key _ members kept homissible hmembers => by
    have hrest := hmembers.filter wanted
    cases hkey : wanted key with
    | true =>
      simp only [List.filter_cons, hkey, if_true]
      exact .leave homissible hrest
    | false => simpa [hkey] using hrest

/-- Rearranging and picking members by their keys may be exchanged. -/
theorem Rearranged.filter (wanted : String → Bool) {members members' : List (String × Json)}
    (h : Rearranged (.obj members) (.obj members')) :
    Rearranged (.obj (members.filter fun (key, _) => wanted key))
      (.obj (members'.filter fun (key, _) => wanted key)) := by
  cases h with
  | @obj _ kept added _ hkept hadded horder =>
    refine @Rearranged.obj _ _ (added.filter fun (key, _) => wanted key) _ (hkept.filter wanted)
      ?_ ?_
    · intro member hmember hkey
      refine hadded member (List.mem_filter.mp hmember).1 ?_
      exact (List.filter_sublist.map Prod.fst).subset hkey
    · rw [← List.filter_append]
      exact horder.filter _

/-- The kind of a node is a string, and so it is not rearranged. -/
theorem Rearranged.eq_str {text : String} {json : Json} (h : Rearranged (.str text) json) :
    json = .str text := by
  cases h
  rfl

/-- A rearranged node has its kind and a rearrangement of its record. -/
theorem Rearranged.kindAndRecord? {kind : String} {members : List (String × Json)} {json : Json}
    (h : Rearranged (.ofKind kind members) json) (hkind : "kind" ∉ members.map Prod.fst)
    (hnodup : (members.map Prod.fst).Nodup) :
    ∃ content, Json.kindAndRecord? json = some (.str kind, content) ∧
      Rearranged (.obj members) content ∧ content.depth ≤ json.depth := by
  have hother : (members.filter fun (key, _) => key ≠ "kind") = members := by
    rw [List.filter_eq_self]
    intro member hmember
    have hne : member.1 ≠ "kind" := fun hkey => hkind (hkey ▸ List.mem_map_of_mem hmember)
    simpa using hne
  have hrecord := h
  cases h with
  | @obj _ kept added members' hkept hadded horder =>
    have hfield : (Field.required "kind").Reads ("kind", .str kind) :=
      ⟨rfl, fun homissible => by simpa using homissible.eq_or⟩
    obtain ⟨value, hfind, hvalue, -⟩ := hfield.find? hkept hadded horder
      (List.nodup_cons.mpr ⟨hkind, hnodup⟩) List.mem_cons_self
    refine ⟨.obj (members'.filter fun (key, _) => key ≠ "kind"), ?_, ?_, depth_filter_le _ _⟩
    · obtain rfl := hvalue.eq_str
      rw [Field.find?] at hfind
      split at hfind
      · cases hfind
      · next other value hfilter =>
        obtain rfl := Option.some.inj hfind
        change (members'.filter fun (key, _) => key = "kind") = _ at hfilter
        rw [Json.kindAndRecord?, hfilter]
      · cases hfind
    · have hfilter := Rearranged.filter (fun key => key ≠ "kind") hrecord
      rwa [List.filter_cons_of_neg (by simp), hother] at hfilter

/-- A rearranged node has its kind, and the fields of its record find rearrangements of its members.
-/
theorem Rearranged.node? {kind : String} {fields : List Field} {members : List (String × Json)}
    {json : Json} (h : Rearranged (.ofKind kind members) json)
    (hkind : "kind" ∉ members.map Prod.fst) (hnodup : (members.map Prod.fst).Nodup)
    (hfields : List.Forall₂ Field.Reads fields members) :
    ∃ content values, Json.kindAndRecord? json = some (.str kind, content) ∧
      Json.record? fields content = some values ∧
      List.Forall₂ (fun member value => Rearranged member.2 value ∧ value.depth < json.depth)
        members values := by
  obtain ⟨content, hnode, hcontent, hle⟩ := h.kindAndRecord? hkind hnodup
  obtain ⟨values, hrecord, hvalues⟩ := hcontent.record? hnodup hfields
  exact ⟨content, values, hnode, hrecord,
    hvalues.imp fun _ _ hvalue => ⟨hvalue.1, hvalue.2.trans_le hle⟩⟩

end YulInline.Json
