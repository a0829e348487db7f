import YulInline.Json.Reader
import YulInline.Proofs.JsonTexts

/-!
# Reading a JSON value back

Reading the tokens of a value gives the value, if it is nested no deeper than allowed and its
numbers may be read (`Json.value?_tokens`), and so does reading any text of it. An object of which
only some members are wanted comes back with these members (`Json.readMembers?_written`).

Conversely, whatever is read is nested to the depth that is allowed at most
(`Json.depth_of_readMembers?`), and allowing more depth reads the same (`Json.readMembers?_mono`).
So a text of a value that is nested deeper is refused, and not cut short.
-/

namespace YulInline.Json

mutual

/-- The numbers that occur in a value. -/
@[simp] def numbers : Json → List Number
  | .num number => [number]
  | .arr items => numbersOfItems items
  | .obj members => numbersOfMembers members
  | _ => []

/-- The numbers that occur in a list of items. -/
@[simp] def numbersOfItems : List Json → List Number
  | [] => []
  | item :: items => item.numbers ++ numbersOfItems items

/-- The numbers that occur in a list of members. -/
@[simp] def numbersOfMembers : List (String × Json) → List Number
  | [] => []
  | (_, value) :: members => value.numbers ++ numbersOfMembers members

end

/-! ## Integers of 64 bits are in range -/

theorem Number.le_foldl_digits (digits : List Nat) (value : Nat) :
    value ≤ digits.foldl (fun value digit => 10 * value + digit) value := by
  induction digits generalizing value with
  | nil => exact le_rfl
  | cons digit digits ih => exact le_trans (by omega) (ih (10 * value + digit))

theorem Number.appendFitting_eq {digits : List Nat} {value : Nat}
    (h : digits.foldl (fun value digit => 10 * value + digit) value ≤ Number.wordMax) :
    Number.appendFitting value digits =
      (digits.foldl (fun value digit => 10 * value + digit) value, 0) := by
  induction digits generalizing value with
  | nil => rfl
  | cons digit digits ih =>
    rw [List.foldl_cons] at h ⊢
    have hfits : 10 * value + digit ≤ Number.wordMax :=
      le_trans (Number.le_foldl_digits digits _) h
    rw [Number.appendFitting, if_pos hfits, ih h]

/-- Rounding adds half a unit at most, and a unit of a number of 64 bits is small. -/
theorem Number.roundToDouble_le {n : Nat} (h : n ≤ Number.wordMax) :
    Number.roundToDouble n ≤ 2 ^ 65 := by
  have hlog : n.log2 ≤ 63 := by
    by_contra hlarge
    have hne : n ≠ 0 := by
      rintro rfl
      simp at hlarge
    have hpow : 2 ^ 64 ≤ n :=
      le_trans (Nat.pow_le_pow_right (by decide) (by omega)) (Nat.log2_self_le hne)
    have hmax : Number.wordMax < 2 ^ 64 := by decide
    omega
  have hunit : Nat.pow 2 (n.log2 + 1 - 53) ≤ 2 ^ 11 :=
    Nat.pow_le_pow_right (by decide) (by omega)
  have hquotient : n / Nat.pow 2 (n.log2 + 1 - 53) * Nat.pow 2 (n.log2 + 1 - 53) ≤ n :=
    Nat.div_mul_le_self ..
  have hmax : Number.wordMax < 2 ^ 64 := by decide
  simp only [Number.roundToDouble]
  split
  · rw [Nat.add_mul]
    omega
  · omega

theorem Number.IsWord.valueOfDigits_le {number : Number} (h : number.IsWord) :
    Number.valueOfDigits number.whole ≤ Number.wordMax := by
  refine le_trans h.fits ?_
  cases number.negative <;> decide

/-- An integer of 64 bits is read as it is written. -/
theorem Number.IsWord.scaled {number : Number} (h : number.IsWord) :
    number.scaled = (Number.valueOfDigits number.whole, 0) := by
  rw [Number.scaled, h.fraction, h.exponent, Number.appendFitting_eq h.valueOfDigits_le]
  rfl

theorem Number.IsWord.inRange {number : Number} (h : number.IsWord) : number.InRange := by
  have hround := Number.roundToDouble_le h.valueOfDigits_le
  have hone : Number.roundToDouble (Nat.pow 10 (0 : Int).toNat) = 1 := by decide
  have hlimit : 2 ^ 65 < Number.doubleLimit := by decide +kernel
  rw [Number.InRange, h.scaled]
  refine Or.inr (Or.inr ⟨by decide, ?_⟩)
  rw [hone, Nat.mul_one]
  exact lt_of_le_of_lt hround hlimit

/-! ## Tokens of a value -/

/-- The tokens of a member. -/
def tokensOfMember (member : String × Json) : List Token :=
  .string (some member.1) :: .colon :: member.2.tokens

theorem tokensOfItems_eq_map (items : List Json) : tokensOfItems items = items.map tokens := by
  induction items with
  | nil => rfl
  | cons item items ih => rw [tokensOfItems, ih, List.map_cons]

theorem tokensOfMembers_eq_map (members : List (String × Json)) :
    tokensOfMembers members = members.map tokensOfMember := by
  induction members with
  | nil => rfl
  | cons member members ih => rw [tokensOfMembers, ih, List.map_cons, tokensOfMember]

theorem exists_tokens_eq_cons (value : Json) :
    ∃ token tokens, value.tokens = token :: tokens ∧ token ≠ .closeArray := by
  cases value <;> exact ⟨_, _, rfl, by simp⟩

/-- A list of which every item has a token has no fewer tokens than items. -/
theorem length_le_length_intercalate {α : Type} {toks : α → List Token} {items : List α}
    (hitems : ∀ item ∈ items, toks item ≠ []) :
    items.length ≤ ([Token.comma].intercalate (items.map toks)).length := by
  induction items with
  | nil => exact Nat.zero_le _
  | cons item items ih =>
    rw [List.forall_mem_cons] at hitems
    have hpos : 0 < (toks item).length := List.length_pos_iff.mpr hitems.1
    cases items with
    | nil =>
      rw [List.map_cons, List.map_nil, List.intercalate_singleton]
      exact hpos
    | cons next items =>
      have hrest := ih hitems.2
      rw [List.map_cons, List.map_cons, List.intercalate_cons_cons] at *
      simp only [List.length_cons, List.length_append, List.length_nil] at *
      omega

/-! ## Reading tokens back -/

section Lists

variable {α : Type} {item? : List Token → Option (α × List Token)} {close : Token}
  {toks : α → List Token}

theorem separated?_intercalate (hclose : close ≠ .comma) {items : List α} (hne : items ≠ [])
    (hitems : ∀ item ∈ items, ∀ rest, item? (toks item ++ rest) = some (item, rest)) {fuel : Nat}
    (hfuel : items.length ≤ fuel) (rest : List Token) :
    separated? item? close fuel ([Token.comma].intercalate (items.map toks) ++ close :: rest) =
      some (items, rest) := by
  induction items generalizing fuel with
  | nil => exact absurd rfl hne
  | cons item items ih =>
    rw [List.forall_mem_cons] at hitems
    obtain ⟨fuel, rfl⟩ := Nat.exists_eq_add_of_le' (Nat.one_le_of_lt hfuel)
    cases items with
    | nil =>
      rw [List.map_cons, List.map_nil, List.intercalate_singleton, separated?, hitems.1]
      cases close <;> simp at hclose ⊢
    | cons next items =>
      have hrest := ih (by simp) hitems.2 (Nat.le_of_succ_le_succ hfuel)
      rw [List.map_cons, List.map_cons, List.intercalate_cons_cons, List.append_assoc,
        List.append_assoc, separated?, hitems.1]
      rw [List.map_cons] at hrest
      exact (congrArg (Option.map _) hrest).trans rfl

theorem listUpTo?_intercalate (hclose : close ≠ .comma) {items : List α}
    (hhead : ∀ item ∈ items, ∃ token tokens, toks item = token :: tokens ∧ token ≠ close)
    (hitems : ∀ item ∈ items, ∀ rest, item? (toks item ++ rest) = some (item, rest))
    (rest : List Token) :
    listUpTo? item? close ([Token.comma].intercalate (items.map toks) ++ close :: rest) =
      some (items, rest) := by
  cases items with
  | nil =>
    rw [List.map_nil, List.intercalate_nil, List.nil_append, listUpTo?, if_pos rfl]
  | cons item items =>
    have hne : ∀ other ∈ item :: items, toks other ≠ [] := by
      intro other hother
      obtain ⟨token, tokens, htoks, -⟩ := hhead other hother
      rw [htoks]
      exact List.cons_ne_nil token tokens
    have hlength := length_le_length_intercalate hne
    obtain ⟨token, tokens, htokens, hnotClose⟩ :
        ∃ token tokens, [Token.comma].intercalate ((item :: items).map toks) = token :: tokens ∧
          token ≠ close := by
      obtain ⟨token, tokens, htoks, htoken⟩ := hhead item List.mem_cons_self
      cases items with
      | nil => exact ⟨token, tokens, by simp [htoks], htoken⟩
      | cons next items =>
        refine ⟨token,
          tokens ++ [.comma] ++ [Token.comma].intercalate (toks next :: items.map toks), ?_, htoken⟩
        rw [List.map_cons, List.map_cons, List.intercalate_cons_cons, htoks]
        rfl
    have hfuel : (item :: items).length ≤
        ([Token.comma].intercalate ((item :: items).map toks) ++ close :: rest).length := by
      rw [List.length_append]
      omega
    have hread := separated?_intercalate hclose (List.cons_ne_nil item items) hitems hfuel rest
    rw [htokens, List.cons_append] at hread ⊢
    rw [listUpTo?, if_neg hnotClose]
    exact hread

end Lists

theorem member?_tokens {care : Care} {value? : String → List Token → Option (Json × List Token)}
    {member : String × Json}
    (hvalue : ∀ rest, value? member.1 (member.2.tokens ++ rest) = some (member.2, rest))
    (rest : List Token) :
    member? care value? (tokensOfMember member ++ rest) = some (member, rest) := by
  rw [tokensOfMember, List.cons_append, List.cons_append, member?]
  cases care <;> simp [Care.text?, hvalue]

/-- An object whose values are read back, by a way of reading that may depend on the key. -/
theorem listUpTo?_members (care : Care) (value? : String → List Token → Option (Json × List Token))
    {members : List (String × Json)}
    (hmembers : ∀ member ∈ members, ∀ rest,
      value? member.1 (member.2.tokens ++ rest) = some (member.2, rest)) (rest : List Token) :
    listUpTo? (member? care value?) .closeObject
      ([Token.comma].intercalate (members.map tokensOfMember) ++ .closeObject :: rest) =
        some (members, rest) :=
  listUpTo?_intercalate (by decide)
    (fun member _ => ⟨.string (some member.1), .colon :: member.2.tokens, rfl, by simp⟩)
    (fun member hmember => member?_tokens (hmembers member hmember)) rest

mutual

/-- Reading the tokens of a value that is nested to depth `depth` at most gives the value. -/
theorem value?_tokens {care : Care} {depth : Nat} {rest : List Token} : (value : Json) →
    value.depth ≤ depth → (∀ number ∈ value.numbers, care.admits number = true) →
      value? care depth (value.tokens ++ rest) = some (value, rest)
  | .null, _, _ => by
    rw [tokens, List.singleton_append, value?]
  | .bool value, _, _ => by
    rw [tokens, List.singleton_append, value?]
  | .num number, _, hnumbers => by
    rw [tokens, List.singleton_append, value?, if_pos (hnumbers number List.mem_cons_self)]
  | .str text, _, _ => by
    rw [tokens, List.singleton_append, value?]
    cases care <;> rfl
  | .arr items, hdepth, hnumbers => by
    rw [Json.depth] at hdepth
    obtain ⟨depth, rfl⟩ := Nat.exists_eq_add_of_le' (Nat.le_of_add_left_le hdepth)
    have hitems := value?_tokensOfItems items (Nat.le_of_succ_le_succ hdepth) hnumbers
    have hread : listUpTo? (value? care depth) .closeArray
        ([Token.comma].intercalate (items.map tokens) ++ .closeArray :: rest) =
          some (items, rest) :=
      listUpTo?_intercalate (by decide) (fun item _ => exists_tokens_eq_cons item) hitems rest
    rw [tokens, tokensOfItems_eq_map, List.cons_append, List.append_assoc, List.singleton_append,
      value?, hread]
    rfl
  | .obj members, hdepth, hnumbers => by
    rw [Json.depth] at hdepth
    obtain ⟨depth, rfl⟩ := Nat.exists_eq_add_of_le' (Nat.le_of_add_left_le hdepth)
    have hmembers := value?_tokensOfMembers members (Nat.le_of_succ_le_succ hdepth) hnumbers
    have hread := listUpTo?_members care (fun _ => value? care depth) hmembers rest
    rw [tokens, tokensOfMembers_eq_map, List.cons_append, List.append_assoc, List.singleton_append,
      value?, hread]
    rfl

theorem value?_tokensOfItems {care : Care} {depth : Nat} : (items : List Json) →
    depthOfItems items ≤ depth →
      (∀ number ∈ numbersOfItems items, care.admits number = true) →
        ∀ item ∈ items, ∀ rest, value? care depth (item.tokens ++ rest) = some (item, rest)
  | [], _, _ => by
    intro item hitem
    cases hitem
  | item :: items, hdepth, hnumbers => by
    rw [depthOfItems, Nat.max_le] at hdepth
    rw [numbersOfItems, List.forall_mem_append] at hnumbers
    rw [List.forall_mem_cons]
    exact ⟨fun rest => value?_tokens item hdepth.1 hnumbers.1,
      value?_tokensOfItems items hdepth.2 hnumbers.2⟩

theorem value?_tokensOfMembers {care : Care} {depth : Nat} : (members : List (String × Json)) →
    depthOfMembers members ≤ depth →
      (∀ number ∈ numbersOfMembers members, care.admits number = true) →
        ∀ member ∈ members, ∀ rest,
          value? care depth (member.2.tokens ++ rest) = some (member.2, rest)
  | [], _, _ => by
    intro member hmember
    cases hmember
  | (key, value) :: members, hdepth, hnumbers => by
    rw [depthOfMembers, Nat.max_le] at hdepth
    rw [numbersOfMembers, List.forall_mem_append] at hnumbers
    rw [List.forall_mem_cons]
    exact ⟨fun rest => value?_tokens value hdepth.1 hnumbers.1,
      value?_tokensOfMembers members hdepth.2 hnumbers.2⟩

end

/-! ## Reading a text -/

mutual

/-- The numbers of a written value are integers of 64 bits. -/
theorem Written.isWord {value : Json} {text : List Char} :
    Written value text → ∀ number ∈ value.numbers, number.IsWord
  | .null, _, h | .yes, _, h | .no, _, h | .str _, _, h | .emptyArr _, _, h
  | .emptyObj _, _, h => by
    cases h
  | .num hnumber, _, h => by
    obtain rfl := List.mem_singleton.mp h
    exact hnumber
  | .arr hitems, number, h => hitems.isWord number h
  | .obj hmembers, number, h => hmembers.isWord number h
  | .spaced _ hvalue _, number, h => hvalue.isWord number h

theorem ItemsWritten.isWord {items : List Json} {text : List Char} :
    ItemsWritten items text → ∀ number ∈ numbersOfItems items, number.IsWord
  | .last hitem => List.forall_mem_append.mpr ⟨hitem.isWord, fun _ h => by cases h⟩
  | .cons hitem hitems => List.forall_mem_append.mpr ⟨hitem.isWord, hitems.isWord⟩

theorem MembersWritten.isWord {members : List (String × Json)} {text : List Char} :
    MembersWritten members text → ∀ number ∈ numbersOfMembers members, number.IsWord
  | .last _ hvalue => List.forall_mem_append.mpr ⟨hvalue.isWord, fun _ h => by cases h⟩
  | .cons _ hvalue hmembers => List.forall_mem_append.mpr ⟨hvalue.isWord, hmembers.isWord⟩

end

theorem Care.admits_of_isWord (care : Care) {number : Number} (h : number.IsWord) :
    care.admits number = true := by
  cases care with
  | strict => exact decide_eq_true h.inRange
  | skip => rfl

mutual

/-- Every level of nesting has a token. -/
theorem depth_le_length_tokens : (value : Json) → value.depth ≤ value.tokens.length
  | .null | .bool _ | .num _ | .str _ => Nat.zero_le _
  | .arr items => by
    have hitems := depthOfItems_le_length_tokens items
    rw [Json.depth, tokens, List.length_cons, List.length_append]
    omega
  | .obj members => by
    have hmembers := depthOfMembers_le_length_tokens members
    rw [Json.depth, tokens, List.length_cons, List.length_append]
    omega

theorem depthOfItems_le_length_tokens : (items : List Json) →
    depthOfItems items ≤ ([Token.comma].intercalate (tokensOfItems items)).length
  | [] => Nat.zero_le _
  | [item] => by
    have hitem := depth_le_length_tokens item
    rw [depthOfItems, depthOfItems, Nat.max_zero, tokensOfItems, tokensOfItems,
      List.intercalate_singleton]
    exact hitem
  | item :: next :: items => by
    have hitem := depth_le_length_tokens item
    have hitems := depthOfItems_le_length_tokens (next :: items)
    rw [tokensOfItems] at hitems
    rw [depthOfItems, tokensOfItems, tokensOfItems, List.intercalate_cons_cons, List.length_append,
      List.length_append]
    omega

theorem depthOfMembers_le_length_tokens : (members : List (String × Json)) →
    depthOfMembers members ≤ ([Token.comma].intercalate (tokensOfMembers members)).length
  | [] => Nat.zero_le _
  | [(key, value)] => by
    have hvalue := depth_le_length_tokens value
    rw [depthOfMembers, depthOfMembers, Nat.max_zero, tokensOfMembers, tokensOfMembers,
      List.intercalate_singleton, List.length_cons, List.length_cons]
    omega
  | (key, value) :: next :: members => by
    have hvalue := depth_le_length_tokens value
    have hmembers := depthOfMembers_le_length_tokens (next :: members)
    rw [tokensOfMembers] at hmembers
    rw [depthOfMembers, tokensOfMembers, tokensOfMembers, List.intercalate_cons_cons,
      List.length_append, List.length_append, List.length_cons, List.length_cons]
    omega

end

theorem depthOfItems_le_iff {items : List Json} {depth : Nat} :
    depthOfItems items ≤ depth ↔ ∀ item ∈ items, item.depth ≤ depth := by
  induction items with
  | nil => simp [depthOfItems]
  | cons item items ih => rw [depthOfItems, Nat.max_le, ih, List.forall_mem_cons]

theorem depthOfMembers_le_iff {members : List (String × Json)} {depth : Nat} :
    depthOfMembers members ≤ depth ↔ ∀ member ∈ members, member.2.depth ≤ depth := by
  induction members with
  | nil => simp [depthOfMembers]
  | cons member members ih => rw [depthOfMembers, Nat.max_le, ih, List.forall_mem_cons]

theorem depth_filter_le (wanted : String × Json → Bool) (members : List (String × Json)) :
    (Json.obj (members.filter wanted)).depth ≤ (Json.obj members).depth := by
  refine Nat.succ_le_succ (depthOfMembers_le_iff.mpr fun member hmember => ?_)
  exact depthOfMembers_le_iff.mp le_rfl member (List.mem_filter.mp hmember).1

/-- Any text of an object that is nested to depth `depth` at most is read; the result has the wanted
members. -/
theorem readMembers?_written {wanted : String → Bool} {depth : Nat}
    {members : List (String × Json)} {text : String} (htext : Written (.obj members) text.toList)
    (hdepth : (Json.obj members).depth ≤ depth) :
    readMembers? wanted depth text = some (.obj (members.filter fun (key, _) => wanted key)) := by
  rw [Json.depth] at hdepth
  obtain ⟨depth, rfl⟩ := Nat.exists_eq_add_of_le' (Nat.le_of_add_left_le hdepth)
  have hadmits : ∀ number ∈ numbersOfMembers members, Care.strict.admits number = true :=
    fun number hnumber => Care.admits_of_isWord .strict (htext.isWord number hnumber)
  let inner : List Token := [Token.comma].intercalate (members.map tokensOfMember) ++ [.closeObject]
  have hscan : Token.scan? text.toList = some (.openObject :: inner) := by
    rw [htext.scan?, tokens, tokensOfMembers_eq_map]
  have hinner : depthOfMembers members ≤ inner.length := by
    have hlength := depthOfMembers_le_length_tokens members
    rw [tokensOfMembers_eq_map] at hlength
    rw [List.length_append]
    omega
  have hread : listUpTo? (member? .strict fun key =>
      if wanted key then value? .strict (depth + 1 - 1) else value? .skip inner.length)
      .closeObject inner = some (members, []) := by
    refine listUpTo?_members .strict _ (fun member hmember rest => ?_) []
    cases wanted member.1 with
    | true =>
      exact value?_tokensOfMembers members (Nat.le_of_succ_le_succ hdepth) hadmits member hmember
        rest
    | false =>
      exact value?_tokensOfMembers members hinner (fun number hnumber => rfl) member hmember rest
  rw [readMembers?, hscan]
  simp only [hread]

/-! ## How deep the result is nested -/

section Lists

variable {α : Type} {item? : List Token → Option (α × List Token)} {close : Token} {P : α → Prop}

/-- What holds of every item that can be read holds of all items of a list that is read. -/
theorem separated?_forall (hitem : ∀ {tokens item rest}, item? tokens = some (item, rest) → P item)
    {fuel : Nat} {tokens rest : List Token} {items : List α}
    (h : separated? item? close fuel tokens = some (items, rest)) : ∀ item ∈ items, P item := by
  induction fuel generalizing tokens rest items with
  | zero => cases h
  | succ fuel ih =>
    rw [separated?] at h
    split at h
    · cases h
    · next item rest' hread =>
      obtain ⟨⟨found, rest⟩, hfound, hsame⟩ := Option.map_eq_some_iff.mp h
      cases hsame
      exact List.forall_mem_cons.mpr ⟨hitem hread, ih hfound⟩
    · next item token rest' _ hread =>
      split at h
      · cases h
        exact List.forall_mem_singleton.mpr (hitem hread)
      · cases h
    · cases h

theorem listUpTo?_forall (hitem : ∀ {tokens item rest}, item? tokens = some (item, rest) → P item)
    {tokens rest : List Token} {items : List α}
    (h : listUpTo? item? close tokens = some (items, rest)) : ∀ item ∈ items, P item := by
  rw [listUpTo?.eq_def] at h
  split at h
  · cases h
  · split at h
    · cases h
      exact List.forall_mem_nil P
    · exact separated?_forall hitem h

end Lists

theorem member?_eq_some {care : Care} {value? : String → List Token → Option (Json × List Token)}
    {tokens rest : List Token} {key : String} {value : Json}
    (h : member? care value? tokens = some ((key, value), rest)) :
    ∃ behind, value? key behind = some (value, rest) := by
  rw [member?.eq_def] at h
  split at h
  · split at h
    · cases h
    · obtain ⟨⟨found, rest⟩, hfound, hsame⟩ := Option.map_eq_some_iff.mp h
      cases hsame
      exact ⟨_, hfound⟩
  · cases h

/-- A value that is read is nested to the depth that is allowed at most. -/
theorem depth_of_value? {care : Care} {depth : Nat} {tokens rest : List Token} {value : Json}
    (h : value? care depth tokens = some (value, rest)) : value.depth ≤ depth := by
  induction depth using Nat.strong_induction_on generalizing tokens rest value with
  | _ depth ih =>
    rw [value?.eq_def] at h
    split at h
    · cases h
      exact Nat.zero_le _
    · cases h
      exact Nat.zero_le _
    · split at h
      · cases h
        exact Nat.zero_le _
      · cases h
    · obtain ⟨text, -, hsame⟩ := Option.map_eq_some_iff.mp h
      cases hsame
      exact Nat.zero_le _
    · next depth _ =>
      obtain ⟨⟨items, rest⟩, hitems, hsame⟩ := Option.map_eq_some_iff.mp h
      cases hsame
      have hall : ∀ item ∈ items, item.depth ≤ depth :=
        listUpTo?_forall (fun hitem => ih depth (Nat.lt_succ_self depth) hitem) hitems
      exact Nat.succ_le_succ (depthOfItems_le_iff.mpr hall)
    · next depth _ =>
      obtain ⟨⟨members, rest⟩, hmembers, hsame⟩ := Option.map_eq_some_iff.mp h
      cases hsame
      have hall : ∀ member ∈ members, member.2.depth ≤ depth := by
        refine listUpTo?_forall (fun {_ member _} hmember => ?_) hmembers
        obtain ⟨behind, hvalue⟩ := member?_eq_some hmember
        exact ih depth (Nat.lt_succ_self depth) hvalue
      exact Nat.succ_le_succ (depthOfMembers_le_iff.mpr hall)
    · cases h

/-- The wanted part of a text that is read is nested to the depth that is allowed at most. -/
theorem depth_of_readMembers? {wanted : String → Bool} {depth : Nat} {text : String} {value : Json}
    (hdepth : 0 < depth) (h : readMembers? wanted depth text = some value) :
    value.depth ≤ depth := by
  rw [readMembers?] at h
  split at h
  · cases h
  · dsimp only at h
    split at h
    · next members hmembers =>
      cases h
      have hall : ∀ member ∈ members, wanted member.1 = true → member.2.depth ≤ depth - 1 := by
        refine listUpTo?_forall (fun {_ member _} hmember hwanted => ?_) hmembers
        obtain ⟨behind, hvalue⟩ := member?_eq_some hmember
        rw [if_pos hwanted] at hvalue
        exact depth_of_value? hvalue
      have hwanted : depthOfMembers (members.filter fun (key, _) => wanted key) ≤ depth - 1 := by
        refine depthOfMembers_le_iff.mpr fun member hmember => ?_
        obtain ⟨hmem, hkey⟩ := List.mem_filter.mp hmember
        exact hall member hmem hkey
      exact le_trans (Nat.succ_le_succ hwanted) (by omega)
    · cases h
  · split at h
    · next hvalue =>
      cases h
      exact depth_of_value? hvalue
    · cases h

/-! ## Allowing more depth -/

section Lists

variable {α : Type} {item? item?' : List Token → Option (α × List Token)} {close : Token}
  (hitem : ∀ {tokens result}, item? tokens = some result → item?' tokens = some result)

include hitem

/-- If every item that can be read one way is read the same another way, then so are lists of items.
-/
theorem separated?_mono {fuel : Nat} {tokens : List Token} {result : List α × List Token}
    (h : separated? item? close fuel tokens = some result) :
    separated? item?' close fuel tokens = some result := by
  induction fuel generalizing tokens result with
  | zero => cases h
  | succ fuel ih =>
    rw [separated?] at h ⊢
    split at h
    · cases h
    · next hread =>
      obtain ⟨found, hfound, rfl⟩ := Option.map_eq_some_iff.mp h
      simp only [hitem hread, ih hfound, Option.map_some]
    · next hne hread =>
      simp only [hitem hread]
      exact h
    · cases h

theorem listUpTo?_mono {tokens : List Token} {result : List α × List Token}
    (h : listUpTo? item? close tokens = some result) :
    listUpTo? item?' close tokens = some result := by
  rw [listUpTo?.eq_def] at h ⊢
  split at h
  · cases h
  · next token rest =>
    split at h
    · next hclose => rw [if_pos hclose, h]
    · next hclose =>
      rw [if_neg hclose]
      exact separated?_mono hitem h

end Lists

theorem member?_mono {care : Care}
    {value? value?' : String → List Token → Option (Json × List Token)}
    (hvalue : ∀ {key tokens result}, value? key tokens = some result →
      value?' key tokens = some result) {tokens : List Token}
    {result : (String × Json) × List Token} (h : member? care value? tokens = some result) :
    member? care value?' tokens = some result := by
  rw [member?.eq_def] at h ⊢
  split at h
  · dsimp only
    split at h
    · cases h
    · next hkey =>
      obtain ⟨found, hfound, rfl⟩ := Option.map_eq_some_iff.mp h
      simp only [hvalue hfound, Option.map_some]
  · cases h

/-- A value that is read is also read where it may be nested deeper. -/
theorem value?_mono {care : Care} {depth more : Nat} {tokens : List Token}
    {result : Json × List Token} (h : value? care depth tokens = some result)
    (hle : depth ≤ more) : value? care more tokens = some result := by
  induction depth using Nat.strong_induction_on generalizing more tokens result with
  | _ depth ih =>
    rw [value?.eq_def] at h
    split at h
    · rw [value?, h]
    · rw [value?, h]
    · rw [value?, h]
    · rw [value?, h]
    · next depth rest =>
      obtain ⟨more, rfl⟩ := Nat.exists_eq_add_of_le' (Nat.one_le_of_lt hle)
      obtain ⟨found, hfound, rfl⟩ := Option.map_eq_some_iff.mp h
      have hitem := fun {tokens result} hread =>
        @ih depth (Nat.lt_succ_self depth) more tokens result hread (Nat.le_of_succ_le_succ hle)
      rw [value?, listUpTo?_mono hitem hfound]
      rfl
    · next depth rest =>
      obtain ⟨more, rfl⟩ := Nat.exists_eq_add_of_le' (Nat.one_le_of_lt hle)
      obtain ⟨found, hfound, rfl⟩ := Option.map_eq_some_iff.mp h
      have hvalue := fun {tokens result} hread =>
        @ih depth (Nat.lt_succ_self depth) more tokens result hread (Nat.le_of_succ_le_succ hle)
      rw [value?, listUpTo?_mono (member?_mono hvalue) hfound]
      rfl
    · cases h

/-- What is read of a text is also read where it may be nested deeper. -/
theorem readMembers?_mono {wanted : String → Bool} {depth more : Nat} {text : String} {value : Json}
    (h : readMembers? wanted depth text = some value) (hle : depth ≤ more) :
    readMembers? wanted more text = some value := by
  rw [readMembers?] at h ⊢
  split at h
  · cases h
  · next tokens _ =>
    dsimp only at h ⊢
    split at h
    · next hmembers =>
      have hvalue : ∀ {key behind result},
          (if wanted key then value? .strict (depth - 1) else value? .skip tokens.length) behind =
              some result →
            (if wanted key then value? .strict (more - 1) else value? .skip tokens.length) behind =
              some result := by
        intro key behind result hread
        split at hread
        · next hkey => rw [if_pos hkey, value?_mono hread (Nat.sub_le_sub_right hle 1)]
        · next hkey => rw [if_neg hkey, hread]
      rw [listUpTo?_mono (member?_mono hvalue) hmembers]
      exact h
    · cases h
  · split at h
    · next hvalue =>
      simp only [value?_mono hvalue hle]
      exact h
    · cases h

end YulInline.Json
