import YulInline.Ast.Render
import YulInline.Json.Token

/-!
# The lexemes of a rendered module

A rendered module is a sequence of words, quoted texts and marks with spaces and line breaks between
some of them. `Spells text lexemes` says that `text` is such a sequence. A word has to end where its
characters end, so nothing that goes on with a word may stand behind it, and a quoted text ends at
the first quote without a backslash.

A text spells at most one sequence of lexemes (`Spells.unique`).
-/

namespace YulInline

/-! ## Escapes -/

namespace Text

/-- The front part of a text that consists of characters of one sort is determined if the rest
starts with a character of another sort. -/
theorem split_of_all {p : Char → Bool} {front front' rest rest' : List Char}
    (hfront : ∀ c ∈ front, p c) (hrest : ∀ c ∈ rest.head?, p c = false)
    (hfront' : ∀ c ∈ front', p c) (hrest' : ∀ c ∈ rest'.head?, p c = false)
    (h : front ++ rest = front' ++ rest') : front = front' ∧ rest = rest' := by
  have hstop : ∀ rest : List Char, (∀ c ∈ rest.head?, p c = false) → rest.takeWhile p = [] := by
    intro rest hrest
    cases rest with
    | nil => rfl
    | cons c rest => exact List.takeWhile_cons_of_neg (by simp [hrest c rfl])
  have htake : front = front' := by
    have hsame := congrArg (List.takeWhile p) h
    rwa [List.takeWhile_append_of_pos hfront, List.takeWhile_append_of_pos hfront',
      hstop rest hrest, hstop rest' hrest', List.append_nil, List.append_nil] at hsame
  subst htake
  exact ⟨rfl, List.append_cancel_left h⟩

theorem hexDigit?_digitChar {digit : Nat} (h : digit < 16) :
    hexDigit? (Nat.digitChar digit) = some digit := by
  have hall : ∀ digit < 16, hexDigit? (Nat.digitChar digit) = some digit := by decide
  exact hall digit h

/-- The hexadecimal digits of a number have the number as value. -/
theorem hexValue?_toDigits (n : Nat) : hexValue? (Nat.toDigits 16 n) = some n := by
  induction n using Nat.strongRecOn with
  | ind n ih =>
    rw [Nat.toDigits_eq_if (by decide)]
    by_cases hsmall : n < 16
    · rw [if_pos hsmall, hexValue?]
      simp [hexDigit?_digitChar hsmall]
    · have hfront := ih (n / 16) (by omega)
      rw [hexValue?] at hfront
      rw [if_neg hsmall, hexValue?, List.foldlM_append, hfront]
      simp [hexDigit?_digitChar (Nat.mod_lt n (by decide : 0 < 16))]
      omega

theorem ne_brace_of_mem_toDigits (n : Nat) : ∀ c ∈ Nat.toDigits 16 n, (c != '\x7d') = true := by
  have hall : ∀ digit < 16, (Nat.digitChar digit != '\x7d') = true := by decide
  induction n using Nat.strongRecOn with
  | ind n ih =>
    rw [Nat.toDigits_eq_if (by decide)]
    by_cases hsmall : n < 16
    · rw [if_pos hsmall]
      intro c hc
      rw [List.mem_singleton.mp hc]
      exact hall n hsmall
    · rw [if_neg hsmall]
      intro c hc
      rcases List.mem_append.mp hc with hc | hc
      · exact ih (n / 16) (by omega) c hc
      · rw [List.mem_singleton.mp hc]
        exact hall (n % 16) (Nat.mod_lt n (by decide))

/-- Letters, and the characters that they stand for behind a backslash. -/
def letterEscapes : List (Char × Char) :=
  [('t', '\t'), ('n', '\n'), ('r', '\r'), ('"', '"'), ('\'', '\''), ('\\', '\\')]

/-- The ways in which a character stands between quotes. -/
inductive Escaped (c : Char) : List Char → Prop where
  /-- The character stands for itself. -/
  | plain (hquote : c ≠ '"') (hbackslash : c ≠ '\\') : Escaped c [c]
  | letter {letter : Char} (h : (letter, c) ∈ letterEscapes) : Escaped c ['\\', letter]
  /-- The character is given by its code. -/
  | code : Escaped c ('\\' :: 'u' :: '\x7b' :: (Nat.toDigits 16 c.toNat ++ ['\x7d']))

theorem escaped_escape (c : Char) : Escaped c (escape c) := by
  unfold escape
  split
  case h_7 hquote _ hbackslash =>
    by_cases hprintable : ' ' ≤ c ∧ c ≤ '~'
    · rw [if_pos hprintable]
      exact .plain hquote hbackslash
    · rw [if_neg hprintable]
      exact .code
  all_goals exact .letter (by decide)

/-- An escape shows which character it stands for, whatever follows it. -/
theorem Escaped.split {c c' : Char} {text text' rest rest' : List Char} (h : Escaped c text)
    (h' : Escaped c' text') (hsame : text ++ rest = text' ++ rest') : c = c' ∧ rest = rest' := by
  have hletters : ∀ entry ∈ letterEscapes, entry.1 ≠ 'u' ∧
      ∀ entry' ∈ letterEscapes, entry.1 = entry'.1 → entry.2 = entry'.2 := by decide
  cases h with
  | plain _ hbackslash =>
    cases h' with
    | plain => exact List.cons.inj hsame
    | letter => exact absurd (List.cons.inj hsame).1 hbackslash
    | code => exact absurd (List.cons.inj hsame).1 hbackslash
  | @letter letter h =>
    cases h' with
    | plain _ hbackslash => exact absurd (List.cons.inj hsame).1.symm hbackslash
    | @letter letter' h' =>
      obtain ⟨hletter, hrest⟩ := List.cons.inj (List.cons.inj hsame).2
      exact ⟨(hletters _ h).2 _ h' hletter, hrest⟩
    | code => exact absurd (List.cons.inj (List.cons.inj hsame).2).1 (hletters _ h).1
  | code =>
    cases h' with
    | plain _ hbackslash => exact absurd (List.cons.inj hsame).1.symm hbackslash
    | letter h' => exact absurd (List.cons.inj (List.cons.inj hsame).2).1.symm (hletters _ h').1
    | code =>
      have hdigits : Nat.toDigits 16 c.toNat ++ '\x7d' :: rest =
          Nat.toDigits 16 c'.toNat ++ '\x7d' :: rest' := by
        simpa using hsame
      obtain ⟨hcode, hrest⟩ := split_of_all (ne_brace_of_mem_toDigits c.toNat) (by simp)
        (ne_brace_of_mem_toDigits c'.toNat) (by simp) hdigits
      have hvalue : c.toNat = c'.toNat := by
        apply Option.some.inj
        rw [← hexValue?_toDigits c.toNat, hcode, hexValue?_toDigits]
      exact ⟨Char.toNat_inj.mp hvalue, (List.cons.inj hrest).2⟩

/-- No escape starts with a quote. -/
theorem Escaped.ne_quote {c : Char} {text rest rest' : List Char} (h : Escaped c text) :
    text ++ rest ≠ '"' :: rest' := by
  intro hsame
  cases h with
  | plain hquote _ => exact hquote (List.cons.inj hsame).1
  | letter _ => cases hsame
  | code => cases hsame

/-- Escaped characters with a quote behind them are determined. -/
theorem split_escaped {cs cs' rest rest' : List Char}
    (h : cs.flatMap escape ++ '"' :: rest = cs'.flatMap escape ++ '"' :: rest') :
    cs = cs' ∧ rest = rest' := by
  induction cs generalizing cs' with
  | nil =>
    cases cs' with
    | nil => exact ⟨rfl, (List.cons.inj h).2⟩
    | cons c' cs' =>
      rw [List.flatMap_cons, List.append_assoc] at h
      exact absurd h.symm (escaped_escape c').ne_quote
  | cons c cs ih =>
    cases cs' with
    | nil =>
      rw [List.flatMap_cons, List.append_assoc] at h
      exact absurd h (escaped_escape c).ne_quote
    | cons c' cs' =>
      rw [List.flatMap_cons, List.flatMap_cons, List.append_assoc, List.append_assoc] at h
      obtain ⟨rfl, hback⟩ := (escaped_escape c).split (escaped_escape c') h
      obtain ⟨rfl, hrest⟩ := ih hback
      exact ⟨rfl, hrest⟩

theorem toList_quote (text : String) :
    (quote text).toList = '"' :: (text.toList.flatMap escape ++ ['"']) := by
  simp [quote]

end Text

/-! ## Lexemes -/

/-- A piece of a rendered module. -/
inductive Lexeme where
  /-- A name, a keyword, a type tag, a number or a truth value. -/
  | word (text : String)
  /-- A text between quotes. -/
  | quoted (text : String)
  | mark (c : Char)

namespace Lexeme

/-- Whether a character may occur in a word. A character beyond ASCII may, because a number may be
written with digits and letters of any script. -/
def isWordChar (c : Char) : Bool :=
  c.isAlphanum || c = '_' || c = '$' || c = '.' || decide (128 ≤ c.toNat)

/-- The characters that stand for themselves. An arrow and an assignment sign consist of two. -/
def marks : List Char :=
  ['(', ')', '\x7b', '\x7d', ',', ':', '=', '-', '>']

/-- The characters of a lexeme. -/
def spelling : Lexeme → List Char
  | .word text => text.toList
  | .quoted text => (Text.quote text).toList
  | .mark c => [c]

/-- A word has characters, and only those of a word. -/
def IsWord (text : String) : Prop :=
  text.toList ≠ [] ∧ ∀ c ∈ text.toList, isWordChar c = true

/-- Lexemes that a text may contain. -/
def Proper : Lexeme → Prop
  | .word text => IsWord text
  | .quoted _ => True
  | .mark c => c ∈ marks

/-- Texts that do not go on with a word in front of them. -/
def Stops (rest : List Char) : Prop :=
  ∀ c ∈ rest.head?, isWordChar c = false

/-- Texts that a lexeme may stand in front of. -/
def MayPrecede : Lexeme → List Char → Prop
  | .word _, rest => Stops rest
  | _, _ => True

/-- The characters between lexemes. -/
def IsBlank (c : Char) : Prop :=
  c = ' ' ∨ c = '\n'

/-- The characters that a lexeme may start with. -/
def StartsWith : Lexeme → Char → Prop
  | .word _, c => isWordChar c = true
  | .quoted _, c => c = '"'
  | .mark m, c => c = m ∧ m ∈ marks

theorem spelling_eq_cons {l : Lexeme} (h : l.Proper) :
    ∃ c cs, l.spelling = c :: cs ∧ l.StartsWith c := by
  cases l with
  | word text =>
    obtain ⟨hne, hall⟩ := h
    obtain ⟨c, cs, hcs⟩ := List.exists_cons_of_ne_nil hne
    exact ⟨c, cs, hcs, hall c (by rw [hcs]; exact List.mem_cons_self)⟩
  | quoted text => exact ⟨_, _, Text.toList_quote text, rfl⟩
  | mark c => exact ⟨c, [], rfl, rfl, h⟩

theorem isWordChar_of_mem_marks : ∀ c ∈ marks, isWordChar c = false ∧ c ≠ '"' ∧ ¬ IsBlank c := by
  have hall : marks.all (fun c => !isWordChar c && c != '"' && c != ' ' && c != '\n') = true := by
    decide
  intro c hc
  have hmark := List.all_eq_true.mp hall c hc
  simpa [IsBlank, and_assoc] using hmark

theorem isWordChar_of_isBlank {c : Char} (h : IsBlank c) : isWordChar c = false := by
  rcases h with rfl | rfl <;> decide

/-- No lexeme starts with a blank. -/
theorem not_isBlank_of_spelling {l : Lexeme} (h : l.Proper) {c : Char} {text rest : List Char}
    (hsame : l.spelling ++ rest = c :: text) : ¬ IsBlank c := by
  obtain ⟨first, cs, hspelling, hfirst⟩ := spelling_eq_cons h
  rw [hspelling, List.cons_append] at hsame
  obtain ⟨rfl, _⟩ := List.cons.inj hsame
  intro hblank
  cases l with
  | word text => exact Bool.false_ne_true ((isWordChar_of_isBlank hblank).symm.trans hfirst)
  | quoted text =>
    cases hfirst
    rcases hblank with hblank | hblank <;> cases hblank
  | mark m =>
    obtain ⟨rfl, hmark⟩ := hfirst
    exact (isWordChar_of_mem_marks _ hmark).2.2 hblank

/-- A lexeme at the front of a text is determined. -/
theorem split {l l' : Lexeme} {rest rest' : List Char} (h : l.Proper) (h' : l'.Proper)
    (hrest : l.MayPrecede rest) (hrest' : l'.MayPrecede rest')
    (hsame : l.spelling ++ rest = l'.spelling ++ rest') : l = l' ∧ rest = rest' := by
  obtain ⟨c, cs, hspelling, hc⟩ := spelling_eq_cons h
  obtain ⟨c', cs', hspelling', hc'⟩ := spelling_eq_cons h'
  have hhead : c = c' := by
    rw [hspelling, hspelling'] at hsame
    exact (List.cons.inj hsame).1
  subst hhead
  have hquote : isWordChar '"' ≠ true := by decide
  -- Lexemes of different sorts start with different characters.
  cases l with
  | word text =>
    cases l' with
    | word text' =>
      obtain ⟨htext, hrest⟩ := Text.split_of_all h.2 hrest h'.2 hrest' hsame
      exact ⟨congrArg word (String.toList_inj.mp htext), hrest⟩
    | quoted text' =>
      obtain rfl : c = '"' := hc'
      exact absurd hc hquote
    | mark m' =>
      obtain ⟨rfl, hm⟩ := hc'
      exact absurd hc (ne_true_of_eq_false (isWordChar_of_mem_marks c hm).1)
  | quoted text =>
    cases l' with
    | word text' =>
      obtain rfl : c = '"' := hc
      exact absurd hc' hquote
    | quoted text' =>
      simp only [spelling, Text.toList_quote, List.cons_append, List.append_assoc,
        List.nil_append] at hsame
      obtain ⟨htext, hrest⟩ := Text.split_escaped (List.cons.inj hsame).2
      exact ⟨congrArg quoted (String.toList_inj.mp htext), hrest⟩
    | mark m' => exact absurd (hc'.1.symm.trans hc) (isWordChar_of_mem_marks m' hc'.2).2.1
  | mark m =>
    cases l' with
    | word text' =>
      obtain ⟨rfl, hm⟩ := hc
      exact absurd hc' (ne_true_of_eq_false (isWordChar_of_mem_marks c hm).1)
    | quoted text' => exact absurd (hc.1.symm.trans hc') (isWordChar_of_mem_marks m hc.2).2.1
    | mark m' =>
      obtain ⟨hmark, hrest⟩ := List.cons.inj hsame
      exact ⟨congrArg Lexeme.mark hmark, hrest⟩

end Lexeme

open Lexeme (IsWord IsBlank Stops isWordChar)

/-! ## Texts -/

/-- A text, and the lexemes it consists of. -/
inductive Spells : List Char → List Lexeme → Prop where
  | nil : Spells [] []
  | blank {c : Char} {text : List Char} {lexemes : List Lexeme} (hc : IsBlank c)
    (h : Spells text lexemes) : Spells (c :: text) lexemes
  | lexeme {l : Lexeme} {text : List Char} {lexemes : List Lexeme} (hl : l.Proper)
    (htext : l.MayPrecede text) (h : Spells text lexemes) :
    Spells (l.spelling ++ text) (l :: lexemes)

namespace Spells

variable {text : List Char} {lexemes lexemes' : List Lexeme}

theorem eq_nil (h : Spells [] lexemes) : lexemes = [] := by
  generalize htext : ([] : List Char) = text at h
  cases h with
  | nil => rfl
  | blank => cases htext
  | lexeme hl =>
    obtain ⟨c, cs, hspelling, _⟩ := Lexeme.spelling_eq_cons hl
    rw [hspelling] at htext
    cases htext

/-- A blank at the front belongs to no lexeme. -/
theorem of_blank {c : Char} (hc : IsBlank c) (h : Spells (c :: text) lexemes) :
    Spells text lexemes := by
  generalize hfull : c :: text = full at h
  cases h with
  | nil => cases hfull
  | blank _ h =>
    obtain ⟨_, rfl⟩ := List.cons.inj hfull
    exact h
  | lexeme hl => exact absurd hc (Lexeme.not_isBlank_of_spelling hl hfull.symm)

/-- A lexeme at the front is the first one of the sequence. -/
theorem of_lexeme {l : Lexeme} (hl : l.Proper) (htext : l.MayPrecede text)
    (h : Spells (l.spelling ++ text) lexemes) :
    ∃ more, lexemes = l :: more ∧ Spells text more := by
  generalize hfull : l.spelling ++ text = full at h
  cases h with
  | nil =>
    obtain ⟨c, cs, hspelling, _⟩ := Lexeme.spelling_eq_cons hl
    rw [hspelling] at hfull
    cases hfull
  | blank hc => exact absurd hc (Lexeme.not_isBlank_of_spelling hl hfull)
  | lexeme hl' htext' h =>
    obtain ⟨rfl, rfl⟩ := Lexeme.split hl hl' htext htext' hfull
    exact ⟨_, rfl, h⟩

/-- A text spells at most one sequence of lexemes. -/
theorem unique (h : Spells text lexemes) (h' : Spells text lexemes') : lexemes = lexemes' := by
  induction h generalizing lexemes' with
  | nil => exact h'.eq_nil.symm
  | blank hc _ ih => exact ih (h'.of_blank hc)
  | lexeme hl htext _ ih =>
    obtain ⟨more, rfl, hmore⟩ := h'.of_lexeme hl htext
    rw [ih hmore]

end Spells

end YulInline
