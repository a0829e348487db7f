import YulInline.Json.Writer
import YulInline.Proofs.JsonReading

/-!
# What is written is a text of the value

The indented form of a value, at whatever depth it starts, is a text of that value, provided that
the numbers in it are integers of 64 bits (`Json.written_renderAt`).
-/

namespace YulInline.Json

/-! ## Strings -/

theorem charWritten_escape (c : Char) : CharWritten c (escape c) := by
  unfold escape
  split
  any_goals exact .short (by decide)
  next hquote hbackslash _ _ _ _ _ =>
    split
    · next hcontrol =>
      have hlt : c.toNat < 32 := hcontrol
      have hdigits : UnitWritten (16 * (16 * (16 * 0 + 0) + c.toNat / 16) + c.toNat % 16)
          ['\\', 'u', '0', '0', Nat.digitChar (c.toNat / 16), Nat.digitChar (c.toNat % 16)] :=
        .digits ⟨by decide, .inl rfl⟩ ⟨by decide, .inl rfl⟩ ⟨by omega, .inl rfl⟩
          ⟨by omega, .inl rfl⟩
      have hvalue : 16 * (16 * (16 * 0 + 0) + c.toNat / 16) + c.toNat % 16 = c.toNat := by omega
      rw [hvalue] at hdigits
      exact .unit hdigits
    · next hcontrol => exact .plain (Char.not_lt.mp hcontrol) hquote hbackslash

theorem charsWritten_flatMap_escape (cs : List Char) : CharsWritten cs (cs.flatMap escape) := by
  induction cs with
  | nil => exact .nil
  | cons c cs ih => exact .cons (charWritten_escape c) ih

theorem written_quote (value : String) : Written (.str value) (quote value).toList := by
  have htext : (quote value).toList = '"' :: (value.toList.flatMap escape ++ ['"']) := by
    simp [quote]
  rw [htext]
  exact .str (charsWritten_flatMap_escape value.toList)

/-! ## Lines -/

theorem blank_newline_indent (depth : Nat) : Blank ('\n' :: (indent depth).toList) := by
  intro c hc
  rcases List.mem_cons.mp hc with rfl | hc
  · simp
  · rw [indent, String.toList_ofList] at hc
    exact .inl (List.eq_of_mem_replicate hc)

theorem blank_space : Blank [' '] := by
  intro c hc
  exact .inl (List.mem_singleton.mp hc)

theorem blank_nil : Blank [] := by
  intro c hc
  cases hc

/-- The lines between the brackets: an entry each, with a comma behind all but the last, and the
line of the closing bracket up to that bracket. -/
def lines (depth : Nat) (entries : List (List Char)) : List Char :=
  let indented := entries.map fun entry => (indent (depth + 1)).toList ++ entry
  '\n' :: ([',', '\n'].intercalate indented ++ '\n' :: (indent depth).toList)

theorem lines_singleton (depth : Nat) (entry : List Char) :
    lines depth [entry] =
      '\n' :: (indent (depth + 1)).toList ++ (entry ++ '\n' :: (indent depth).toList) := by
  simp [lines]

theorem lines_cons_cons (depth : Nat) (entry next : List Char) (entries : List (List Char)) :
    lines depth (entry :: next :: entries) =
      '\n' :: (indent (depth + 1)).toList ++ (entry ++ []) ++
        ',' :: lines depth (next :: entries) := by
  simp [lines, List.intercalate_cons_cons]

theorem toList_enclose_nil {opening closing : String} {depth : Nat} :
    (enclose depth opening closing []).toList = opening.toList ++ closing.toList := by
  rw [enclose, if_pos rfl, String.toList_append]

theorem toList_enclose {opening closing : String} {depth : Nat} {entries : List String}
    (hne : entries ≠ []) :
    (enclose depth opening closing entries).toList =
      opening.toList ++ (lines depth (entries.map String.toList) ++ closing.toList) := by
  rw [enclose, if_neg hne]
  simp only [String.toList_append, String.toList_intercalate, List.map_map, lines]
  simp [Function.comp_def]

theorem renderItems_ne_nil {depth : Nat} {items : List Json} (hne : items ≠ []) :
    renderItems depth items ≠ [] := by
  cases items with
  | nil => exact absurd rfl hne
  | cons item items => simp [renderItems]

theorem renderMembers_ne_nil {depth : Nat} {members : List (String × Json)} (hne : members ≠ []) :
    renderMembers depth members ≠ [] := by
  cases members with
  | nil => exact absurd rfl hne
  | cons member members => simp [renderMembers]

/-- A member stands on one line, with one space behind the colon. -/
theorem toList_member (key value : String) :
    (quote key ++ ": " ++ value).toList = (quote key).toList ++ ':' :: ' ' :: value.toList := by
  simp

mutual

/-- The indented form of a value is a text of it. -/
theorem written_renderAt (depth : Nat) : (value : Json) →
    (∀ number ∈ value.numbers, number.IsWord) → Written value (value.renderAt depth).toList
  | .null, _ => by
    rw [renderAt]
    exact .null
  | .bool true, _ => by
    rw [renderAt]
    exact .yes
  | .bool false, _ => by
    rw [renderAt]
    exact .no
  | .num number, hnumbers => by
    rw [renderAt]
    exact .num (hnumbers number List.mem_cons_self)
  | .str text, _ => by
    rw [renderAt]
    exact written_quote text
  | .arr items, hnumbers => by
    rw [renderAt]
    cases hempty : items.isEmpty with
    | true =>
      rw [List.isEmpty_iff.mp hempty, renderItems, toList_enclose_nil]
      exact .emptyArr blank_nil
    | false =>
      have hne : items ≠ [] := List.isEmpty_eq_false_iff.mp hempty
      rw [toList_enclose (renderItems_ne_nil hne)]
      exact .arr (written_renderItems depth items hne hnumbers)
  | .obj members, hnumbers => by
    rw [renderAt]
    cases hempty : members.isEmpty with
    | true =>
      rw [List.isEmpty_iff.mp hempty, renderMembers, toList_enclose_nil]
      exact .emptyObj blank_nil
    | false =>
      have hne : members ≠ [] := List.isEmpty_eq_false_iff.mp hempty
      rw [toList_enclose (renderMembers_ne_nil hne)]
      exact .obj (written_renderMembers depth members hne hnumbers)

theorem written_renderItems (depth : Nat) : (items : List Json) → items ≠ [] →
    (∀ number ∈ numbersOfItems items, number.IsWord) →
      ItemsWritten items (lines depth ((renderItems (depth + 1) items).map String.toList))
  | [], hne, _ => absurd rfl hne
  | [item], _, hnumbers => by
    rw [numbersOfItems, List.forall_mem_append] at hnumbers
    have hitem := written_renderAt (depth + 1) item hnumbers.1
    rw [renderItems, renderItems, List.map_cons, List.map_nil, lines_singleton]
    exact .last (.spaced (blank_newline_indent (depth + 1)) hitem (blank_newline_indent depth))
  | item :: next :: items, _, hnumbers => by
    rw [numbersOfItems, List.forall_mem_append] at hnumbers
    have hitem := written_renderAt (depth + 1) item hnumbers.1
    have hitems := written_renderItems depth (next :: items) (by simp) hnumbers.2
    rw [renderItems, List.map_cons] at hitems
    rw [renderItems, renderItems, List.map_cons, List.map_cons, lines_cons_cons]
    exact .cons (.spaced (blank_newline_indent (depth + 1)) hitem blank_nil) hitems

theorem written_renderMembers (depth : Nat) : (members : List (String × Json)) → members ≠ [] →
    (∀ number ∈ numbersOfMembers members, number.IsWord) →
      MembersWritten members (lines depth ((renderMembers (depth + 1) members).map String.toList))
  | [], hne, _ => absurd rfl hne
  | [(key, value)], _, hnumbers => by
    rw [numbersOfMembers, List.forall_mem_append] at hnumbers
    have hvalue := written_renderAt (depth + 1) value hnumbers.1
    have hkey := Written.spaced (blank_newline_indent (depth + 1)) (written_quote key) blank_nil
    have hspaced := Written.spaced blank_space hvalue (blank_newline_indent depth)
    rw [renderMembers, renderMembers, List.map_cons, List.map_nil, lines_singleton, toList_member]
    simpa using MembersWritten.last hkey hspaced
  | (key, value) :: next :: members, _, hnumbers => by
    rw [numbersOfMembers, List.forall_mem_append] at hnumbers
    have hvalue := written_renderAt (depth + 1) value hnumbers.1
    have hmembers := written_renderMembers depth (next :: members) (by simp) hnumbers.2
    have hkey := Written.spaced (blank_newline_indent (depth + 1)) (written_quote key) blank_nil
    have hspaced := Written.spaced blank_space hvalue blank_nil
    rw [renderMembers, List.map_cons] at hmembers
    rw [renderMembers, renderMembers, List.map_cons, List.map_cons, lines_cons_cons, toList_member]
    simpa using MembersWritten.cons hkey hspaced hmembers

end

end YulInline.Json
