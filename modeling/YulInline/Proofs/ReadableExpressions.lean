import YulInline.Proofs.RenderedLexemes

/-!
# Expressions can be read back

The lexemes of a legible expression determine it, except that a call and an instruction of the same
name are written alike. A part of a tree has no closing lexeme of its own in general: an expression
goes on if a parenthesis follows, and a typed name if a colon and a word follow. So what is shown
for a part holds in front of every sequence with which the part does not go on (`Determined`), and
what stands behind a part in a tree is always such a sequence.

Parts with commas between them are determined if each of them is, provided that a comma may follow.
-/

namespace YulInline

open Lexeme (tag commas braced)

/-! ## Expressions without calls -/

mutual

/-- An expression with an instruction in place of every call. -/
def Expr.withoutCalls : Expr → Expr
  | .literal value => .literal value
  | .ident name => .ident name
  | .instr op args => .instr op (Expr.withoutCallsOfEach args)
  | .call callee args => .instr callee (Expr.withoutCallsOfEach args)

def Expr.withoutCallsOfEach : List Expr → List Expr
  | [] => []
  | arg :: args => arg.withoutCalls :: Expr.withoutCallsOfEach args

end

theorem Expr.withoutCallsOfEach_eq_map (args : List Expr) :
    Expr.withoutCallsOfEach args = args.map Expr.withoutCalls := by
  induction args with
  | nil => rfl
  | cons arg args ih => exact congrArg (arg.withoutCalls :: ·) ih

/-! ## Parts that are determined -/

/-- In front of every sequence that `ends` allows, the lexemes of `a` determine `plain a` among the
legible values. -/
def Determined {α β : Type} (lexemes : α → List Lexeme) (legible : α → Bool) (plain : α → β)
    (ends : List Lexeme → Prop) (a : α) : Prop :=
  ∀ a' rest rest', legible a' = true → ends rest → ends rest' →
    lexemes a ++ rest = lexemes a' ++ rest' → plain a = plain a' ∧ rest = rest'

section Separated

variable {α β : Type} {lexemes : α → List Lexeme} {legible : α → Bool} {plain : α → β}
  {ends : List Lexeme → Prop}

/-- What may stand behind the last one of several parts with commas between them. -/
def EndsSeparated (ends : List Lexeme → Prop) (rest : List Lexeme) : Prop :=
  ends rest ∧ ∀ more, rest ≠ .mark ',' :: more

/-- The rest of a list of parts is determined if they are. -/
theorem Determined.flatMap (hcomma : ∀ rest, ends (.mark ',' :: rest)) {rest rest' : List Lexeme}
    (hrest : EndsSeparated ends rest) (hrest' : EndsSeparated ends rest') :
    ∀ {items items' : List α}, (∀ a ∈ items, Determined lexemes legible plain ends a) →
      items'.all legible = true →
      (items.map lexemes).flatMap (.mark ',' :: ·) ++ rest =
        (items'.map lexemes).flatMap (.mark ',' :: ·) ++ rest' →
      items.map plain = items'.map plain ∧ rest = rest'
  | [], [], _, _, h => ⟨rfl, h⟩
  | [], _ :: _, _, _, h => absurd h (hrest.2 _)
  | _ :: _, [], _, _, h => absurd h.symm (hrest'.2 _)
  | a :: items, a' :: items', hitems, hlegible, h => by
    have hends : ∀ (items : List α) {rest}, EndsSeparated ends rest →
        ends ((items.map lexemes).flatMap (.mark ',' :: ·) ++ rest) := by
      intro items rest hrest
      cases items with
      | nil => exact hrest.1
      | cons => exact hcomma _
    rw [List.all_cons, Bool.and_eq_true] at hlegible
    simp only [List.map_cons, List.flatMap_cons, List.cons_append, List.append_assoc] at h
    obtain ⟨ha, hback⟩ := hitems a List.mem_cons_self a' _ _ hlegible.1 (hends items hrest)
      (hends items' hrest') (List.cons.inj h).2
    obtain ⟨hitems, hrest⟩ := Determined.flatMap hcomma hrest hrest'
      (fun a ha => hitems a (List.mem_cons_of_mem _ ha)) hlegible.2 hback
    exact ⟨by rw [List.map_cons, List.map_cons, ha, hitems], hrest⟩

/-- Parts with commas between them are determined if there is at least one. -/
theorem Determined.commas (hcomma : ∀ rest, ends (.mark ',' :: rest)) {items items' : List α}
    (hitems : ∀ a ∈ items, Determined lexemes legible plain ends a)
    (hlegible : items'.all legible = true) (hne : items ≠ []) (hne' : items' ≠ [])
    {rest rest' : List Lexeme} (hrest : EndsSeparated ends rest)
    (hrest' : EndsSeparated ends rest')
    (h : Lexeme.commas (items.map lexemes) ++ rest = Lexeme.commas (items'.map lexemes) ++ rest') :
    items.map plain = items'.map plain ∧ rest = rest' := by
  obtain ⟨a, items, rfl⟩ := List.exists_cons_of_ne_nil hne
  obtain ⟨a', items', rfl⟩ := List.exists_cons_of_ne_nil hne'
  -- A comma in front makes the first part like the others.
  refine Determined.flatMap hcomma hrest hrest' hitems hlegible ?_
  simpa [Lexeme.commas] using h

/-- Parts with commas between them are determined by the parenthesis behind them, even if there are
none, as no part starts with a parenthesis. -/
theorem Determined.parenthesised (hcomma : ∀ rest, ends (.mark ',' :: rest))
    (hclose : ∀ rest, ends (.mark ')' :: rest))
    (hopen : ∀ a rest rest', lexemes a ++ rest ≠ .mark ')' :: rest') {items items' : List α}
    (hitems : ∀ a ∈ items, Determined lexemes legible plain ends a)
    (hlegible : items'.all legible = true) {rest rest' : List Lexeme}
    (h : Lexeme.commas (items.map lexemes) ++ .mark ')' :: rest =
      Lexeme.commas (items'.map lexemes) ++ .mark ')' :: rest') :
    items.map plain = items'.map plain ∧ rest = rest' := by
  have hends : ∀ rest, EndsSeparated ends (.mark ')' :: rest) :=
    fun rest => ⟨hclose rest, fun more hsame => by cases hsame⟩
  match items, items', hitems, hlegible, h with
  | [], [], _, _, h => exact ⟨rfl, (List.cons.inj h).2⟩
  | [], a' :: items', _, _, h =>
    simp only [List.map_cons, Lexeme.commas, List.append_assoc] at h
    exact absurd h.symm (hopen a' _ _)
  | a :: items, [], _, _, h =>
    simp only [List.map_cons, Lexeme.commas, List.append_assoc] at h
    exact absurd h (hopen a _ _)
  | a :: items, a' :: items', hitems, hlegible, h =>
    obtain ⟨hplain, hrest⟩ := Determined.commas hcomma hitems hlegible (List.cons_ne_nil a items)
      (List.cons_ne_nil a' items') (hends rest) (hends rest') h
    exact ⟨hplain, (List.cons.inj hrest).2⟩

end Separated

/-! ## Typed names and literals -/

/-- Sequences that do not start with a type tag. -/
def Untagged (rest : List Lexeme) : Prop :=
  ∀ word more, rest ≠ .mark ':' :: .word word :: more

theorem tag_determined {type type' : String} {rest rest' : List Lexeme} (hrest : Untagged rest)
    (hrest' : Untagged rest') (h : tag type ++ rest = tag type' ++ rest') :
    type = type' ∧ rest = rest' := by
  unfold tag at h
  by_cases hempty : type = ""
  · by_cases hempty' : type' = ""
    · rw [if_pos hempty, if_pos hempty'] at h
      exact ⟨hempty.trans hempty'.symm, h⟩
    · rw [if_pos hempty, if_neg hempty'] at h
      exact absurd h (hrest _ _)
  · by_cases hempty' : type' = ""
    · rw [if_neg hempty, if_pos hempty'] at h
      exact absurd h.symm (hrest' _ _)
    · rw [if_neg hempty, if_neg hempty'] at h
      cases h
      exact ⟨rfl, rfl⟩

theorem untagged_comma (rest : List Lexeme) : Untagged (.mark ',' :: rest) := by
  intro word more hsame
  cases hsame

theorem TypedName.determined (var : TypedName) :
    Determined TypedName.lexemes TypedName.isLegible id Untagged var := by
  intro var' rest rest' _ hrest hrest' h
  obtain ⟨hname, hback⟩ := List.cons.inj h
  obtain ⟨htype, hsame⟩ := tag_determined hrest hrest' hback
  obtain ⟨name, type⟩ := var
  obtain ⟨name', type'⟩ := var'
  cases hname
  cases htype
  exact ⟨rfl, hsame⟩

theorem isName_of_mem_keywords : ∀ word ∈ keywords, isName word = false := by
  decide

theorem isNumeral_of_mem_keywords : ∀ word ∈ keywords, isNumeral word = false := by
  decide

theorem toNat_of_isAlpha {c : Char} (h : c.isAlpha = true) : 65 ≤ c.toNat ∧ c.toNat ≤ 122 := by
  rcases Bool.or_eq_true_iff.mp h with hupper | hlower
  · have hbounds := of_decide_eq_true hupper
    have hlow : 65 ≤ c.toNat := UInt32.le_iff_toNat_le.mp hbounds.1
    have hhigh : c.toNat ≤ 90 := UInt32.le_iff_toNat_le.mp hbounds.2
    omega
  · have hbounds := Bool.and_eq_true_iff.mp hlower
    have hlow : 97 ≤ c.toNat := UInt32.le_iff_toNat_le.mp (of_decide_eq_true hbounds.1)
    have hhigh : c.toNat ≤ 122 := UInt32.le_iff_toNat_le.mp (of_decide_eq_true hbounds.2)
    omega

theorem toNat_of_isDigit {c : Char} (h : c.isDigit = true) : c.toNat ≤ 57 :=
  UInt32.le_iff_toNat_le.mp (of_decide_eq_true (Bool.and_eq_true_iff.mp h).2)

/-- No name is a number. -/
theorem isNumeral_of_isName {text : String} (h : isName text = true) : isNumeral text = false := by
  rw [isName, Bool.and_eq_true] at h
  have hspelled := h.1
  unfold consistsOf at hspelled
  unfold isNumeral consistsOf
  split at hspelled
  · cases hspelled
  · next c cs _ =>
    simp only [Bool.and_eq_true, Bool.or_eq_true, decide_eq_true_eq] at hspelled
    have hfirst : c.isDigit = false ∧ c.toNat < 128 := by
      rcases hspelled.1 with (halpha | rfl) | rfl
      · have hletter := toNat_of_isAlpha halpha
        refine ⟨Bool.eq_false_iff.mpr fun hdigit => ?_, by omega⟩
        have hcode := toNat_of_isDigit hdigit
        omega
      · decide
      · decide
    simp [hfirst.1, Nat.not_le.mpr hfirst.2]

theorem mem_keywords_of_boolean {value : String}
    (h : (decide (value = "true") || decide (value = "false")) = true) : value ∈ keywords := by
  have hvalue : value = "true" ∨ value = "false" := by simpa using h
  rcases hvalue with rfl | rfl <;> decide

/-- What a literal is written as is no name. -/
theorem Literal.lexeme_ne_word {literal : Literal} {name : String}
    (h : literal.isLegible = true) (hname : isName name = true) : literal.lexeme ≠ .word name := by
  obtain ⟨kind, value, type⟩ := literal
  simp only [isLegible, Bool.and_eq_true] at h
  intro hsame
  cases kind with
  | number =>
    cases hsame
    exact absurd h.2 (ne_true_of_eq_false (isNumeral_of_isName hname))
  | boolean =>
    cases hsame
    have hkeyword := mem_keywords_of_boolean h.2
    exact absurd hname (ne_true_of_eq_false (isName_of_mem_keywords value hkeyword))
  | string => cases hsame

/-- The kind and the value of a literal are determined by what it is written as. -/
theorem Literal.eq_of_lexeme_eq {literal literal' : Literal} (h : literal.isLegible = true)
    (h' : literal'.isLegible = true) (hlexeme : literal.lexeme = literal'.lexeme)
    (htype : literal.type = literal'.type) : literal = literal' := by
  have hno : ∀ {value}, isNumeral value = true →
      ¬ (decide (value = "true") || decide (value = "false")) = true := by
    intro value hnumeral hboolean
    have hkeyword := mem_keywords_of_boolean hboolean
    exact absurd hnumeral (ne_true_of_eq_false (isNumeral_of_mem_keywords value hkeyword))
  obtain ⟨kind, value, type⟩ := literal
  obtain ⟨kind', value', type'⟩ := literal'
  simp only [isLegible, Bool.and_eq_true] at h h'
  cases htype
  cases kind with
  | number =>
    cases kind' with
    | number =>
      cases hlexeme
      rfl
    | boolean =>
      cases hlexeme
      exact absurd h'.2 (hno h.2)
    | string => cases hlexeme
  | boolean =>
    cases kind' with
    | number =>
      cases hlexeme
      exact absurd h.2 (hno h'.2)
    | boolean =>
      cases hlexeme
      rfl
    | string => cases hlexeme
  | string =>
    cases kind' with
    | number => cases hlexeme
    | boolean => cases hlexeme
    | string =>
      cases hlexeme
      rfl

theorem Literal.determined {literal : Literal} (h : literal.isLegible = true) :
    Determined Literal.lexemes Literal.isLegible id Untagged literal := by
  intro literal' rest rest' h' hrest hrest' hsame
  obtain ⟨hlexeme, hback⟩ := List.cons.inj hsame
  obtain ⟨htype, hrest⟩ := tag_determined hrest hrest' hback
  exact ⟨Literal.eq_of_lexeme_eq h h' hlexeme htype, hrest⟩

/-! ## Expressions -/

/-- Sequences with which an expression in front of them does not go on. -/
def EndsExpr (rest : List Lexeme) : Prop :=
  ∀ l ∈ rest.head?, l ≠ .mark '(' ∧ l ≠ .mark ':'

theorem endsExpr_cons {l : Lexeme} (hopening : l ≠ .mark '(') (hcolon : l ≠ .mark ':')
    (rest : List Lexeme) : EndsExpr (l :: rest) := by
  intro first hfirst
  cases hfirst
  exact ⟨hopening, hcolon⟩

theorem endsExpr_mark {c : Char} (hopening : c ≠ '(') (hcolon : c ≠ ':') (rest : List Lexeme) :
    EndsExpr (.mark c :: rest) :=
  endsExpr_cons (fun h => hopening (Lexeme.mark.inj h)) (fun h => hcolon (Lexeme.mark.inj h)) rest

theorem endsExpr_braced (inner rest : List Lexeme) : EndsExpr (braced inner ++ rest) :=
  endsExpr_mark (by decide) (by decide) _

theorem EndsExpr.untagged {rest : List Lexeme} (h : EndsExpr rest) : Untagged rest := by
  intro word more hsame
  rw [hsame] at h
  exact (h _ rfl).2 rfl

theorem EndsExpr.ne_parenthesis {rest : List Lexeme} (h : EndsExpr rest) (more : List Lexeme) :
    rest ≠ .mark '(' :: more := by
  intro hsame
  rw [hsame] at h
  exact (h _ rfl).1 rfl

/-- An expression starts with a word or a quoted text. -/
theorem Expr.lexemes_append_ne_mark (e : Expr) (c : Char) (rest rest' : List Lexeme) :
    e.lexemes ++ rest ≠ .mark c :: rest' := by
  intro h
  cases e with
  | literal value =>
    obtain ⟨kind, value, type⟩ := value
    have hfirst := (List.cons.inj h).1
    cases kind <;> cases hfirst
  | ident name => cases (List.cons.inj h).1
  | instr op args => cases (List.cons.inj h).1
  | call callee args => cases (List.cons.inj h).1

/-- The lexemes of an expression determine it up to calls. -/
abbrev Expr.Determined : Expr → Prop :=
  YulInline.Determined Expr.lexemes Expr.isLegible Expr.withoutCalls EndsExpr

theorem Expr.areLegible_eq_all (args : List Expr) :
    Expr.areLegible args = args.all Expr.isLegible := by
  induction args with
  | nil => rfl
  | cons arg args ih => exact congrArg (arg.isLegible && ·) ih

/-- A name with arguments between parentheses is determined if the arguments are. -/
theorem Expr.determined_instr {op : String} {args : List Expr} (hop : isName op = true)
    (hargs : ∀ arg ∈ args, arg.Determined) : (Expr.instr op args).Determined := by
  intro e' rest rest' he' hrest hrest' h
  have happlied : ∀ op' args', Expr.areLegible args' = true →
      (Expr.instr op args).lexemes ++ rest = (Expr.instr op' args').lexemes ++ rest' →
      (Expr.instr op args).withoutCalls = (Expr.instr op' args').withoutCalls ∧ rest = rest' := by
    intro op' args' hargs' h
    simp only [Expr.lexemes, List.cons_append, List.append_assoc, List.nil_append,
      Expr.lexemesOfEach_eq_map] at h
    obtain ⟨hname, hback⟩ := List.cons.inj h
    rw [Expr.areLegible_eq_all] at hargs'
    obtain ⟨hplain, hrest⟩ := Determined.parenthesised
      (endsExpr_mark (by decide) (by decide)) (endsExpr_mark (by decide) (by decide))
      (fun e => e.lexemes_append_ne_mark ')') hargs hargs' (List.cons.inj hback).2
    simp only [Expr.withoutCalls, Expr.withoutCallsOfEach_eq_map]
    exact ⟨by rw [hplain, Lexeme.word.inj hname], hrest⟩
  cases e' with
  | literal value' => exact absurd (List.cons.inj h).1.symm (Literal.lexeme_ne_word he' hop)
  | ident name' => exact absurd (List.cons.inj h).2.symm (hrest'.ne_parenthesis _)
  | instr op' args' =>
    rw [isLegible, Bool.and_eq_true] at he'
    exact happlied op' args' he'.2 h
  | call callee' args' =>
    rw [isLegible, Bool.and_eq_true] at he'
    exact happlied callee' args' he'.2 h

theorem Expr.determined_ident {name : String} (hname : isName name = true) :
    (Expr.ident name).Determined := by
  intro e' rest rest' he' hrest hrest' h
  cases e' with
  | literal value' => exact absurd (List.cons.inj h).1.symm (Literal.lexeme_ne_word he' hname)
  | ident name' =>
    obtain ⟨hsame, hrest⟩ := List.cons.inj h
    exact ⟨congrArg Expr.ident (Lexeme.word.inj hsame), hrest⟩
  | instr op' args' => exact absurd (List.cons.inj h).2 (hrest.ne_parenthesis _)
  | call callee' args' => exact absurd (List.cons.inj h).2 (hrest.ne_parenthesis _)

theorem Expr.determined_literal {value : Literal} (hvalue : value.isLegible = true) :
    (Expr.literal value).Determined := by
  have hno : ∀ {name rest rest'}, isName name = true →
      value.lexemes ++ rest ≠ .word name :: rest' := by
    intro name rest rest' hname h
    exact Literal.lexeme_ne_word hvalue hname (List.cons.inj h).1
  intro e' rest rest' he' hrest hrest' h
  cases e' with
  | literal value' =>
    obtain ⟨hsame, hrest⟩ :=
      Literal.determined hvalue value' rest rest' he' hrest.untagged hrest'.untagged h
    exact ⟨congrArg Expr.literal hsame, hrest⟩
  | ident name' => exact absurd h (hno he')
  | instr op' args' =>
    rw [isLegible, Bool.and_eq_true] at he'
    exact absurd h (hno he'.1)
  | call callee' args' =>
    rw [isLegible, Bool.and_eq_true] at he'
    exact absurd h (hno he'.1)

mutual

theorem Expr.determined : ∀ e : Expr, e.isLegible = true → e.Determined
  | .literal _, h => Expr.determined_literal h
  | .ident _, h => Expr.determined_ident h
  | .instr _ args, h => by
    rw [isLegible, Bool.and_eq_true] at h
    exact Expr.determined_instr h.1 (Expr.determined_of_mem args h.2)
  | .call _ args, h => by
    -- A call has the lexemes of an instruction.
    rw [isLegible, Bool.and_eq_true] at h
    exact Expr.determined_instr h.1 (Expr.determined_of_mem args h.2)

theorem Expr.determined_of_mem : ∀ args : List Expr, Expr.areLegible args = true →
    ∀ arg ∈ args, arg.Determined
  | [], _, _, hmem => by cases hmem
  | arg :: args, h, other, hmem => by
    rw [Expr.areLegible, Bool.and_eq_true] at h
    rcases List.mem_cons.mp hmem with hsame | hmem
    · rw [hsame]
      exact Expr.determined arg h.1
    · exact Expr.determined_of_mem args h.2 other hmem

end

end YulInline
