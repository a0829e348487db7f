import YulInline.Json.Basic
import YulInline.Json.Token
import Mathlib.Tactic.IntervalCases

/-!
# The texts of a JSON value

`Json.Written value text` says by the rules of the grammar which texts a value has: white space may
stand around every token, a character of a string may be written as it is or by any of its escapes,
and numbers are integers of 64 bits. An escape for half of a surrogate pair alone is no character,
so it occurs in no text.

A value has one sequence of tokens (`Json.tokens`), and cutting any of its texts into tokens gives
that sequence (`Json.Written.scan?`).
-/

namespace YulInline.Json

/-! ## Strings -/

/-- A hexadecimal digit in either case, and its value. -/
def IsHexDigit (value : Nat) (c : Char) : Prop :=
  value < 16 ∧ (c = Nat.digitChar value ∨ c = (Nat.digitChar value).toUpper)

/-- A UTF-16 unit, and an escape that gives it by four digits. -/
inductive UnitWritten : Nat → List Char → Prop where
  | digits {a b c d : Nat} {w x y z : Char} (ha : IsHexDigit a w) (hb : IsHexDigit b x)
    (hc : IsHexDigit c y) (hd : IsHexDigit d z) :
    UnitWritten (16 * (16 * (16 * a + b) + c) + d) ['\\', 'u', w, x, y, z]

/-- Letters, and the characters that they stand for behind a backslash. -/
def shortEscapes : List (Char × Char) :=
  [('"', '"'), ('\\', '\\'), ('/', '/'), ('b', '\x08'), ('f', '\x0c'), ('n', '\n'), ('r', '\r'),
    ('t', '\t')]

/-- A character, and a way to write it within a string. -/
inductive CharWritten (c : Char) : List Char → Prop where
  /-- The character stands for itself. -/
  | plain (hc : ' ' ≤ c) (hquote : c ≠ '"') (hbackslash : c ≠ '\\') : CharWritten c [c]
  | short {letter : Char} (h : (letter, c) ∈ shortEscapes) : CharWritten c ['\\', letter]
  | unit {text : List Char} (h : UnitWritten c.toNat text) : CharWritten c text
  /-- The character is given by the two halves of a surrogate pair. -/
  | pair {high low : Nat} {front back : List Char} (hhigh : high < 0x400) (hlow : low < 0x400)
    (hc : c.toNat = 0x10000 + high * 0x400 + low) (hfront : UnitWritten (0xd800 + high) front)
    (hback : UnitWritten (0xdc00 + low) back) : CharWritten c (front ++ back)

/-- Characters, and a way to write them between the quotes of a string. -/
inductive CharsWritten : List Char → List Char → Prop where
  | nil : CharsWritten [] []
  | cons {c : Char} {cs front back : List Char} (hc : CharWritten c front)
    (hcs : CharsWritten cs back) : CharsWritten (c :: cs) (front ++ back)

open Token (pieces? joinPieces?)

theorem hexDigit?_of_isHexDigit {value : Nat} {c : Char} (h : IsHexDigit value c) :
    Text.hexDigit? c = some value := by
  have hall : ∀ value < 16, Text.hexDigit? (Nat.digitChar value) = some value ∧
      Text.hexDigit? (Nat.digitChar value).toUpper = some value := by decide
  obtain ⟨hvalue, rfl | rfl⟩ := h
  · exact (hall value hvalue).1
  · exact (hall value hvalue).2

theorem UnitWritten.pieces?_append {code : Nat} {text : List Char} (h : UnitWritten code text)
    (found : List Token.Piece) (rest : List Char) :
    pieces? found (text ++ rest) = pieces? (.unit code :: found) rest := by
  cases h with
  | @digits a b c d w x y z ha hb hc hd =>
    have hvalue : Text.hexValue? [w, x, y, z] = some (16 * (16 * (16 * a + b) + c) + d) := by
      simp [Text.hexValue?, hexDigit?_of_isHexDigit ha, hexDigit?_of_isHexDigit hb,
        hexDigit?_of_isHexDigit hc, hexDigit?_of_isHexDigit hd]
    simp only [List.cons_append, List.nil_append]
    rw [pieces?, hvalue]

theorem shortEscape?_of_mem {letter c : Char} (h : (letter, c) ∈ shortEscapes) :
    Token.shortEscape? letter = some c := by
  have hall : ∀ pair ∈ shortEscapes, Token.shortEscape? pair.1 = some pair.2 := by decide
  exact hall (letter, c) h

theorem joinPieces?_unit {code : Nat} (hhigh : Token.isHighHalf code = false)
    (hlow : Token.isLowHalf code = false) (done : List Char) (more : List Token.Piece) :
    joinPieces? done (.unit code :: more) = joinPieces? (Char.ofNat code :: done) more := by
  match more with
  | [] => simp [joinPieces?, hhigh, hlow]
  | .char c :: more => simp [joinPieces?, hhigh, hlow]
  | .unit low :: more => rw [joinPieces?]; simp [hhigh, hlow]

theorem joinPieces?_pair {high low : Nat} (hhigh : high < 0x400) (hlow : low < 0x400)
    (done : List Char) (more : List Token.Piece) :
    joinPieces? done (.unit (0xd800 + high) :: .unit (0xdc00 + low) :: more) =
      joinPieces? (Char.ofNat (0x10000 + high * 0x400 + low) :: done) more := by
  have hishigh : Token.isHighHalf (0xd800 + high) = true := by
    simp [Token.isHighHalf]; omega
  have hislow : Token.isLowHalf (0xdc00 + low) = true := by
    simp [Token.isLowHalf]; omega
  rw [joinPieces?]
  simp [hishigh, hislow]

/-- A character is no half of a surrogate pair. -/
theorem isHalf_toNat (c : Char) :
    Token.isHighHalf c.toNat = false ∧ Token.isLowHalf c.toNat = false := by
  have hvalid : c.toNat < 0xd800 ∨ (0xdfff < c.toNat ∧ c.toNat < 0x110000) := c.valid
  simp [Token.isHighHalf, Token.isLowHalf]
  omega

/-- A written character is cut into pieces that denote the character. -/
theorem CharWritten.exists_pieces {c : Char} {text : List Char} (h : CharWritten c text) :
    ∃ pieces : List Token.Piece,
      (∀ found rest, pieces? found (text ++ rest) = pieces? (pieces.reverse ++ found) rest) ∧
        ∀ done more, joinPieces? done (pieces ++ more) = joinPieces? (c :: done) more := by
  cases h with
  | plain hc hquote hbackslash =>
    refine ⟨[.char c], fun found rest => ?_, fun done more => rfl⟩
    have hcontrol : ¬ c < ' ' := Char.not_lt.mpr hc
    rw [List.singleton_append, Token.pieces?.eq_def]
    split
    · next hsame => exact absurd (List.cons.inj hsame).1 hquote
    · next hsame => exact absurd (List.cons.inj hsame).1 hbackslash
    · next hsame => exact absurd (List.cons.inj hsame).1 hbackslash
    · next hsame =>
      cases hsame
      exact if_neg hcontrol
    · next hsame => cases hsame
  | @short letter h =>
    refine ⟨[.char c], fun found rest => ?_, fun done more => rfl⟩
    have hletter : letter ≠ 'u' := by
      rintro rfl
      simp [shortEscapes] at h
    simp only [List.cons_append, List.nil_append]
    rw [pieces?, shortEscape?_of_mem h]
    · rfl
    · rintro _ _ _ _ _ rfl
      exact absurd rfl hletter
  | unit h =>
    refine ⟨[.unit c.toNat], fun found rest => h.pieces?_append found rest, fun done more => ?_⟩
    obtain ⟨hhigh, hlow⟩ := isHalf_toNat c
    rw [List.singleton_append, joinPieces?_unit hhigh hlow, Char.ofNat_toNat]
  | @pair high low front back hhigh hlow hc hfront hback =>
    refine ⟨[.unit (0xd800 + high), .unit (0xdc00 + low)], fun found rest => ?_,
      fun done more => ?_⟩
    · rw [List.append_assoc, hfront.pieces?_append, hback.pieces?_append]
      rfl
    · show joinPieces? done (.unit (0xd800 + high) :: .unit (0xdc00 + low) :: more) = _
      rw [joinPieces?_pair hhigh hlow, ← hc, Char.ofNat_toNat]

theorem CharsWritten.exists_pieces {cs text : List Char} (h : CharsWritten cs text) :
    ∃ pieces : List Token.Piece,
      (∀ found rest, pieces? found (text ++ rest) = pieces? (pieces.reverse ++ found) rest) ∧
        ∀ done more, joinPieces? done (pieces ++ more) = joinPieces? (cs.reverse ++ done) more := by
  induction h with
  | nil => exact ⟨[], fun _ _ => rfl, fun _ _ => rfl⟩
  | cons hc _ ih =>
    obtain ⟨front, hfront, hfrontJoin⟩ := hc.exists_pieces
    obtain ⟨back, hback, hbackJoin⟩ := ih
    refine ⟨front ++ back, fun found rest => ?_, fun done more => ?_⟩
    · rw [List.append_assoc, hfront, hback, List.reverse_append, List.append_assoc]
    · rw [List.append_assoc, hfrontJoin, hbackJoin, List.reverse_cons, List.append_assoc]
      rfl

/-- A written string is the token of its text. -/
theorem CharsWritten.string? {cs text : List Char} (h : CharsWritten cs text) (rest : List Char) :
    Token.string? (text ++ '"' :: rest) = some (.string (some (String.ofList cs)), rest) := by
  obtain ⟨pieces, hpieces, hjoin⟩ := h.exists_pieces
  have hfound : pieces? [] (text ++ '"' :: rest) = some (pieces, rest) := by
    rw [hpieces, List.append_nil, pieces?, List.reverse_reverse]
  have hjoined : joinPieces? [] pieces = some cs := by
    have := hjoin [] []
    rwa [List.append_nil, List.append_nil, joinPieces?, List.reverse_reverse] at this
  rw [Token.string?, hfound]
  simp [hjoined]

/-! ## Numbers -/

/-- A number that is an integer of 64 bits with or without sign, written by its digits. -/
structure Number.IsWord (number : Number) : Prop where
  digits : ∀ digit ∈ number.whole, digit < 10
  nonempty : number.whole ≠ []
  /-- A leading zero stands alone. -/
  leading : number.whole.head? = some 0 → number.whole = [0]
  fraction : number.fraction = []
  exponent : number.exponent = none
  fits : Number.valueOfDigits number.whole ≤ if number.negative then 2 ^ 63 else 2 ^ 64 - 1

/-- Texts that a number may stand in front of, because their first character does not go on with
it. -/
def Stops (rest : List Char) : Prop :=
  ∀ c ∈ rest.head?, c.isDigit = false ∧ c ≠ '.' ∧ c ≠ 'e' ∧ c ≠ 'E'

theorem digitChar_facts : ∀ digit < 10, (Nat.digitChar digit).isDigit = true ∧
    (Nat.digitChar digit).toNat - '0'.toNat = digit ∧
      (Nat.digitChar digit = '0' → digit = 0) ∧ Token.isBlank (Nat.digitChar digit) = false := by
  decide

theorem digits_append {values : List Nat} {rest : List Char}
    (hvalues : ∀ value ∈ values, value < 10) (hrest : Stops rest) :
    Token.digits (values.map Nat.digitChar ++ rest) = (values, rest) := by
  have hdigit : ∀ c ∈ values.map Nat.digitChar, c.isDigit = true := by
    intro c hc
    obtain ⟨value, hvalue, rfl⟩ := List.mem_map.mp hc
    exact (digitChar_facts value (hvalues value hvalue)).1
  have hstop : rest.takeWhile Char.isDigit = [] ∧ rest.dropWhile Char.isDigit = rest := by
    cases rest with
    | nil => exact ⟨rfl, rfl⟩
    | cons c rest => simp [(hrest c rfl).1]
  have hback : values.map ((fun c => c.toNat - '0'.toNat) ∘ Nat.digitChar) = values.map id :=
    List.map_congr_left fun value hvalue => (digitChar_facts value (hvalues value hvalue)).2.1
  rw [Token.digits, List.takeWhile_append_of_pos hdigit, List.dropWhile_append_of_pos hdigit,
    hstop.1, hstop.2, List.append_nil, List.map_map, hback, List.map_id]

theorem Number.IsWord.whole?_append {number : Number} {rest : List Char} (h : number.IsWord)
    (hrest : Stops rest) :
    Token.whole? (number.whole.map Nat.digitChar ++ rest) = some (number.whole, rest) := by
  have hdigits := digits_append h.digits hrest
  obtain ⟨digit, digits, hwhole⟩ := List.exists_cons_of_ne_nil h.nonempty
  have hlt : digit < 10 := h.digits digit (hwhole ▸ List.mem_cons_self)
  by_cases hzero : digit = 0
  · subst hzero
    rw [h.leading (by rw [hwhole]; rfl)]
    rfl
  · rw [hwhole] at hdigits ⊢
    rw [List.map_cons, List.cons_append, Token.whole?, Token.someDigits?]
    · rw [List.map_cons, List.cons_append] at hdigits
      rw [hdigits]
    · intro _ hsame
      exact hzero ((digitChar_facts digit hlt).2.2.1 (List.cons.inj hsame).1)

theorem Stops.fraction? {rest : List Char} (h : Stops rest) :
    Token.fraction? rest = some ([], rest) := by
  rw [Token.fraction?]
  rintro tail rfl
  exact (h '.' rfl).2.1 rfl

theorem Stops.exponent? {rest : List Char} (h : Stops rest) :
    Token.exponent? rest = some (none, rest) := by
  rw [Token.exponent?]
  · rintro tail rfl
    exact (h 'e' rfl).2.2.1 rfl
  · rintro tail rfl
    exact (h 'E' rfl).2.2.2 rfl

theorem Number.IsWord.unsigned?_append {number : Number} {rest : List Char} (h : number.IsWord)
    (hrest : Stops rest) :
    Token.unsigned? number.negative (number.whole.map Nat.digitChar ++ rest) =
      some (.number number, rest) := by
  obtain ⟨negative, whole, fraction, exponent⟩ := number
  obtain rfl : fraction = [] := h.fraction
  obtain rfl : exponent = none := h.exponent
  rw [Token.unsigned?, h.whole?_append hrest]
  show Option.bind _ _ = _
  simp [hrest.fraction?, hrest.exponent?]

theorem next?_digitChar {digit : Nat} (h : digit < 10) (text : List Char) :
    Token.next? (Nat.digitChar digit :: text) =
      Token.unsigned? false (Nat.digitChar digit :: text) := by
  interval_cases digit <;> rfl

theorem Number.IsWord.toList_render {number : Number} (h : number.IsWord) :
    number.render.toList =
      (if number.negative then ['-'] else []) ++ number.whole.map Nat.digitChar := by
  rw [Number.render, h.fraction, h.exponent]
  cases number.negative <;> simp

/-- What a number is written as starts with no blank, and the number is the first token of a text
that starts with it. -/
theorem Number.IsWord.exists_next? {number : Number} (h : number.IsWord) :
    ∃ c text, number.render.toList = c :: text ∧ Token.isBlank c = false ∧
      ∀ rest, Stops rest → Token.next? (c :: (text ++ rest)) = some (.number number, rest) := by
  obtain ⟨digit, digits, hwhole⟩ := List.exists_cons_of_ne_nil h.nonempty
  have hlt : digit < 10 := h.digits digit (hwhole ▸ List.mem_cons_self)
  rw [h.toList_render]
  cases hnegative : number.negative with
  | true =>
    refine ⟨'-', number.whole.map Nat.digitChar, rfl, rfl, fun rest hrest => ?_⟩
    have hunsigned := h.unsigned?_append hrest
    rw [hnegative] at hunsigned
    exact hunsigned
  | false =>
    rw [hwhole]
    refine ⟨Nat.digitChar digit, digits.map Nat.digitChar, rfl, ?_, fun rest hrest => ?_⟩
    · exact (digitChar_facts digit hlt).2.2.2
    · have hunsigned := h.unsigned?_append hrest
      rw [hnegative, hwhole] at hunsigned
      exact (next?_digitChar hlt _).trans hunsigned

/-! ## Values -/

mutual

/-- The tokens of a value. -/
def tokens : Json → List Token
  | .null => [.null]
  | .bool value => [.bool value]
  | .num number => [.number number]
  | .str text => [.string (some text)]
  | .arr items => .openArray :: ([Token.comma].intercalate (tokensOfItems items) ++ [.closeArray])
  | .obj members =>
    .openObject :: ([Token.comma].intercalate (tokensOfMembers members) ++ [.closeObject])

/-- The tokens of each item. -/
def tokensOfItems : List Json → List (List Token)
  | [] => []
  | item :: items => item.tokens :: tokensOfItems items

/-- The tokens of each member. -/
def tokensOfMembers : List (String × Json) → List (List Token)
  | [] => []
  | (key, value) :: members =>
    (.string (some key) :: .colon :: value.tokens) :: tokensOfMembers members

end

/-- White space between tokens. -/
def Blank (text : List Char) : Prop :=
  ∀ c ∈ text, c = ' ' ∨ c = '\t' ∨ c = '\n' ∨ c = '\r'

mutual

/-- A value, and a text of it. -/
inductive Written : Json → List Char → Prop where
  | null : Written .null ['n', 'u', 'l', 'l']
  | yes : Written (.bool true) ['t', 'r', 'u', 'e']
  | no : Written (.bool false) ['f', 'a', 'l', 's', 'e']
  | num {number : Number} (hnumber : number.IsWord) : Written (.num number) number.render.toList
  | str {value : String} {text : List Char} (hvalue : CharsWritten value.toList text) :
    Written (.str value) ('"' :: (text ++ ['"']))
  | emptyArr {blank : List Char} (hblank : Blank blank) :
    Written (.arr []) ('[' :: (blank ++ [']']))
  | arr {items : List Json} {text : List Char} (hitems : ItemsWritten items text) :
    Written (.arr items) ('[' :: (text ++ [']']))
  | emptyObj {blank : List Char} (hblank : Blank blank) :
    Written (.obj []) ('\x7b' :: (blank ++ ['\x7d']))
  | obj {members : List (String × Json)} {text : List Char}
    (hmembers : MembersWritten members text) :
    Written (.obj members) ('\x7b' :: (text ++ ['\x7d']))
  /-- White space may stand on either side. -/
  | spaced {value : Json} {before text after : List Char} (hbefore : Blank before)
    (hvalue : Written value text) (hafter : Blank after) : Written value (before ++ (text ++ after))

/-- One or more items, and a text of them with commas in between. -/
inductive ItemsWritten : List Json → List Char → Prop where
  | last {item : Json} {text : List Char} (hitem : Written item text) : ItemsWritten [item] text
  | cons {item next : Json} {items : List Json} {text rest : List Char} (hitem : Written item text)
    (hitems : ItemsWritten (next :: items) rest) :
    ItemsWritten (item :: next :: items) (text ++ ',' :: rest)

/-- One or more members, and a text of them with commas in between. -/
inductive MembersWritten : List (String × Json) → List Char → Prop where
  | last {key : String} {value : Json} {name text : List Char} (hkey : Written (.str key) name)
    (hvalue : Written value text) : MembersWritten [(key, value)] (name ++ ':' :: text)
  | cons {key : String} {value : Json} {next : String × Json} {members : List (String × Json)}
    {name text rest : List Char} (hkey : Written (.str key) name) (hvalue : Written value text)
    (hmembers : MembersWritten (next :: members) rest) :
    MembersWritten ((key, value) :: next :: members) (name ++ ':' :: (text ++ ',' :: rest))

end

/-! ## Cutting into tokens -/

/-- Cutting a text into tokens gives `tokens`, however many steps are allowed beyond one for each
character. -/
def Scans (text : List Char) (tokens : List Token) : Prop :=
  ∀ fuel, text.length ≤ fuel → Token.scanWith? fuel text = some tokens

theorem Scans.nil : Scans [] [] := by
  intro fuel _
  cases fuel <;> rfl

theorem Scans.blank {text rest : List Char} {tokens : List Token} (hblank : Blank text)
    (h : Scans rest tokens) : Scans (text ++ rest) tokens := by
  induction text with
  | nil => exact h
  | cons c text ih =>
    intro fuel hfuel
    obtain ⟨fuel, rfl⟩ := Nat.exists_eq_add_of_le' (Nat.one_le_of_lt hfuel)
    have hc : Token.isBlank c = true := by
      simpa [Token.isBlank, or_assoc] using hblank c List.mem_cons_self
    rw [List.cons_append, Token.scanWith?, if_pos hc]
    refine ih (fun other hother => hblank other (List.mem_cons_of_mem _ hother)) fuel ?_
    simpa using hfuel

theorem Scans.token {c : Char} {text rest : List Char} {token : Token} {tokens : List Token}
    (hc : Token.isBlank c = false) (hnext : Token.next? (c :: (text ++ rest)) = some (token, rest))
    (h : Scans rest tokens) : Scans (c :: (text ++ rest)) (token :: tokens) := by
  intro fuel hfuel
  obtain ⟨fuel, rfl⟩ := Nat.exists_eq_add_of_le' (Nat.one_le_of_lt hfuel)
  have hrest : rest.length ≤ fuel := by
    simp only [List.length_cons, List.length_append] at hfuel
    omega
  rw [Token.scanWith?, hc, hnext]
  simp [h fuel hrest]

theorem Scans.mark {c : Char} {token : Token} {rest : List Char} {tokens : List Token}
    (hc : Token.isBlank c = false) (hnext : Token.next? (c :: rest) = some (token, rest))
    (h : Scans rest tokens) : Scans (c :: rest) (token :: tokens) :=
  @Scans.token c [] rest token tokens hc hnext h

theorem stops_cons {c : Char} {rest : List Char}
    (hc : c.isDigit = false ∧ c ≠ '.' ∧ c ≠ 'e' ∧ c ≠ 'E') : Stops (c :: rest) := by
  rintro other hother
  obtain rfl := Option.some.inj hother
  exact hc

theorem Stops.blank {text rest : List Char} (hblank : Blank text) (h : Stops rest) :
    Stops (text ++ rest) := by
  cases text with
  | nil => exact h
  | cons c text =>
    apply stops_cons
    obtain rfl | rfl | rfl | rfl := hblank c List.mem_cons_self <;> decide

theorem Number.IsWord.scans {number : Number} {rest : List Char} {tokens : List Token}
    (h : number.IsWord) (hstops : Stops rest) (hrest : Scans rest tokens) :
    Scans (number.render.toList ++ rest) (.number number :: tokens) := by
  obtain ⟨c, text, htext, hc, hnext⟩ := h.exists_next?
  rw [htext]
  exact .token hc (hnext rest hstops) hrest

mutual

/-- Cutting a written value into tokens gives its tokens. -/
theorem Written.scans {value : Json} {text rest : List Char} {tokens : List Token} :
    Written value text → Stops rest → Scans rest tokens →
      Scans (text ++ rest) (value.tokens ++ tokens)
  | .null, _, h => @Scans.token 'n' ['u', 'l', 'l'] _ _ _ rfl rfl h
  | .yes, _, h => @Scans.token 't' ['r', 'u', 'e'] _ _ _ rfl rfl h
  | .no, _, h => @Scans.token 'f' ['a', 'l', 's', 'e'] _ _ _ rfl rfl h
  | .num hnumber, hstops, h => hnumber.scans hstops h
  | .str hvalue, _, h => by
    have hnext := hvalue.string? rest
    rw [String.ofList_toList, List.append_cons] at hnext
    exact Scans.token rfl hnext h
  | .emptyArr hblank, _, h => by
    rw [List.cons_append, List.append_assoc]
    exact .mark rfl rfl (.blank hblank (.mark rfl rfl h))
  | .arr hitems, _, h => by
    simp only [Json.tokens, List.cons_append, List.append_assoc, List.nil_append]
    exact .mark rfl rfl (hitems.scans (stops_cons (by decide)) (.mark rfl rfl h))
  | .emptyObj hblank, _, h => by
    rw [List.cons_append, List.append_assoc]
    exact .mark rfl rfl (.blank hblank (.mark rfl rfl h))
  | .obj hmembers, _, h => by
    simp only [Json.tokens, List.cons_append, List.append_assoc, List.nil_append]
    exact .mark rfl rfl (hmembers.scans (stops_cons (by decide)) (.mark rfl rfl h))
  | .spaced hbefore hvalue hafter, hstops, h => by
    rw [List.append_assoc, List.append_assoc]
    exact .blank hbefore (hvalue.scans (.blank hafter hstops) (.blank hafter h))

theorem ItemsWritten.scans {items : List Json} {text rest : List Char} {tokens : List Token} :
    ItemsWritten items text → Stops rest → Scans rest tokens →
      Scans (text ++ rest) ([Token.comma].intercalate (tokensOfItems items) ++ tokens)
  | .last hitem, hstops, h => by
    rw [tokensOfItems, tokensOfItems, List.intercalate_singleton]
    exact hitem.scans hstops h
  | .cons hitem hitems, hstops, h => by
    rw [tokensOfItems, tokensOfItems, List.intercalate_cons_cons, List.append_assoc,
      List.append_assoc, List.append_assoc]
    exact hitem.scans (stops_cons (by decide)) (.mark rfl rfl (hitems.scans hstops h))

theorem MembersWritten.scans {members : List (String × Json)} {text rest : List Char}
    {tokens : List Token} :
    MembersWritten members text → Stops rest → Scans rest tokens →
      Scans (text ++ rest) ([Token.comma].intercalate (tokensOfMembers members) ++ tokens)
  | .last hkey hvalue, hstops, h => by
    rw [tokensOfMembers, tokensOfMembers, List.intercalate_singleton, List.append_assoc]
    exact hkey.scans (stops_cons (by decide)) (.mark rfl rfl (hvalue.scans hstops h))
  | .cons hkey hvalue hmembers, hstops, h => by
    rw [tokensOfMembers, tokensOfMembers, List.intercalate_cons_cons, List.append_assoc,
      List.append_assoc, List.append_assoc, List.cons_append, List.append_assoc]
    exact hkey.scans (stops_cons (by decide)) (.mark rfl rfl
      (hvalue.scans (stops_cons (by decide)) (.mark rfl rfl (hmembers.scans hstops h))))

end

/-- Every text of a value is cut into the tokens of the value. -/
theorem Written.scan? {value : Json} {text : List Char} (h : Written value text) :
    Token.scan? text = some value.tokens := by
  have hstops : Stops [] := fun _ hc => by cases hc
  have hscans := h.scans hstops Scans.nil
  rw [List.append_nil, List.append_nil] at hscans
  exact hscans text.length le_rfl

end YulInline.Json
