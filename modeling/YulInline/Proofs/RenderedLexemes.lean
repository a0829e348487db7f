import YulInline.Proofs.Lexemes

/-!
# What a rendering spells

A tree is legible if its names could not be taken for keywords or numbers, its numbers and truth
values for nothing else, and if no declaration or assignment lacks a variable. The lexemes of a tree
are those of its parts in the order in which they are written; indentation and line breaks leave no
trace in them. The text of a legible tree spells its lexemes (`Block.spells_render`).
-/

namespace YulInline

open Lexeme (IsWord Stops isWordChar)

/-! ## Legible trees -/

/-- The words that are no names. -/
def keywords : List String :=
  ["let", "function", "if", "switch", "case", "default", "for", "true", "false"]

/-- Whether a text has a first character of one sort and further characters of another. -/
def consistsOf (first next : Char → Bool) (text : String) : Bool :=
  match text.toList with
  | [] => false
  | c :: cs => first c && cs.all next

/-- Whether a text is a name: it starts with a letter, `_` or `$`, goes on with these, digits and
periods, and is no keyword. -/
def isName (text : String) : Bool :=
  consistsOf (fun c => c.isAlpha || c = '_' || c = '$')
      (fun c => c.isAlphanum || c = '_' || c = '$' || c = '.') text &&
    !keywords.contains text

/-- Whether a text is a number: it starts with a digit and goes on with digits and letters. Every
character beyond ASCII is let through, so that digits and letters of all scripts are. -/
def isNumeral (text : String) : Bool :=
  consistsOf (fun c => c.isDigit || decide (128 ≤ c.toNat))
    (fun c => c.isAlphanum || decide (128 ≤ c.toNat)) text

/-- Whether a text is a type tag; the empty text stands for none. -/
def isTag (text : String) : Bool :=
  text = "" || isName text

def TypedName.isLegible (var : TypedName) : Bool :=
  isName var.name && isTag var.type

/-- Whether a literal is written as what it is; a string may have any value. -/
def Literal.isLegible (literal : Literal) : Bool :=
  isTag literal.type &&
    match literal.kind with
    | .number => isNumeral literal.value
    | .boolean => literal.value = "true" || literal.value = "false"
    | .string => true

mutual

def Expr.isLegible : Expr → Bool
  | .literal value => value.isLegible
  | .ident name => isName name
  | .instr op args => isName op && Expr.areLegible args
  | .call callee args => isName callee && Expr.areLegible args

def Expr.areLegible : List Expr → Bool
  | [] => true
  | arg :: args => arg.isLegible && Expr.areLegible args

end

mutual

/-- Whether the parts of a statement are legible, and what is declared or assigned to is at least
one variable. -/
def Stmt.isLegible : Stmt → Bool
  | .expr value => value.isLegible
  | .assign targets value => !targets.isEmpty && targets.all isName && value.isLegible
  | .declare vars value =>
    !vars.isEmpty && vars.all TypedName.isLegible && value.all Expr.isLegible
  | .define ⟨name, params, returns, body⟩ =>
    isName name && params.all TypedName.isLegible && returns.all TypedName.isLegible &&
      Block.isLegible body
  | .branch condition body => condition.isLegible && Block.isLegible body
  | .switch scrutinee cases => scrutinee.isLegible && Case.areLegible cases
  | .loop init condition step body =>
    Block.isLegible init && condition.isLegible && Block.isLegible step && Block.isLegible body
  | .block body => Block.isLegible body

def Case.areLegible : List Case → Bool
  | [] => true
  | ⟨value, body⟩ :: cases =>
    value.all Literal.isLegible && Block.isLegible body && Case.areLegible cases

def Block.isLegible : List Stmt → Bool
  | [] => true
  | stmt :: stmts => stmt.isLegible && Block.isLegible stmts

end

/-! ## The lexemes of a tree -/

namespace Lexeme

/-- A type tag behind what it belongs to. -/
def tag (type : String) : List Lexeme :=
  if type = "" then [] else [.mark ':', .word type]

/-- Sequences of lexemes with commas between them. -/
def commas : List (List Lexeme) → List Lexeme
  | [] => []
  | item :: items => item ++ items.flatMap fun item => .mark ',' :: item

/-- Braces around lexemes. -/
def braced (inner : List Lexeme) : List Lexeme :=
  .mark '\x7b' :: (inner ++ [.mark '\x7d'])

end Lexeme

open Lexeme (tag commas braced)

def TypedName.lexemes (var : TypedName) : List Lexeme :=
  .word var.name :: tag var.type

/-- The lexeme of the value of a literal. -/
def Literal.lexeme (literal : Literal) : Lexeme :=
  match literal.kind with
  | .string => .quoted literal.value
  | .number | .boolean => .word literal.value

def Literal.lexemes (literal : Literal) : List Lexeme :=
  literal.lexeme :: tag literal.type

mutual

def Expr.lexemes : Expr → List Lexeme
  | .literal value => value.lexemes
  | .ident name => [.word name]
  | .instr op args => .word op :: .mark '(' :: (commas (Expr.lexemesOfEach args) ++ [.mark ')'])
  | .call callee args =>
    .word callee :: .mark '(' :: (commas (Expr.lexemesOfEach args) ++ [.mark ')'])

def Expr.lexemesOfEach : List Expr → List (List Lexeme)
  | [] => []
  | arg :: args => arg.lexemes :: Expr.lexemesOfEach args

end

namespace Lexeme

/-- The lexemes of an initial value, which may be missing. -/
def initial : Option Expr → List Lexeme
  | none => []
  | some value => .mark ':' :: .mark '=' :: value.lexemes

/-- The lexemes of the return variables of a function, which may have none. -/
def returns : List TypedName → List Lexeme
  | [] => []
  | vars => .mark '-' :: .mark '>' :: commas (vars.map TypedName.lexemes)

/-- The lexemes that introduce the body of a case. -/
def caseLabel : Option Literal → List Lexeme
  | none => [.word "default"]
  | some value => .word "case" :: value.lexemes

end Lexeme

mutual

def Stmt.lexemes : Stmt → List Lexeme
  | .expr value => value.lexemes
  | .assign targets value =>
    commas (targets.map fun target => [.word target]) ++ .mark ':' :: .mark '=' :: value.lexemes
  | .declare vars value =>
    .word "let" :: (commas (vars.map TypedName.lexemes) ++ Lexeme.initial value)
  | .define ⟨name, params, returns, body⟩ =>
    .word "function" :: .word name :: .mark '(' :: (commas (params.map TypedName.lexemes) ++
      .mark ')' :: (Lexeme.returns returns ++ braced (Block.lexemes body)))
  | .branch condition body => .word "if" :: (condition.lexemes ++ braced (Block.lexemes body))
  | .switch scrutinee cases => .word "switch" :: (scrutinee.lexemes ++ Case.lexemes cases)
  | .loop init condition step body =>
    .word "for" :: (braced (Block.lexemes init) ++ (condition.lexemes ++
      (braced (Block.lexemes step) ++ braced (Block.lexemes body))))
  | .block body => braced (Block.lexemes body)

def Case.lexemes : List Case → List Lexeme
  | [] => []
  | ⟨value, body⟩ :: cases =>
    Lexeme.caseLabel value ++ (braced (Block.lexemes body) ++ Case.lexemes cases)

def Block.lexemes : List Stmt → List Lexeme
  | [] => []
  | stmt :: stmts => stmt.lexemes ++ Block.lexemes stmts

end

/-! ## Words -/

/-- A text of characters of a word is a word. -/
theorem isWord_of_consistsOf {first next : Char → Bool} {text : String}
    (hfirst : ∀ c, first c = true → isWordChar c = true)
    (hnext : ∀ c, next c = true → isWordChar c = true)
    (h : consistsOf first next text = true) : IsWord text := by
  unfold consistsOf at h
  split at h
  · cases h
  · next c cs htext =>
    rw [Bool.and_eq_true, List.all_eq_true] at h
    rw [IsWord, htext]
    refine ⟨List.cons_ne_nil c cs, fun d hd => ?_⟩
    rcases List.mem_cons.mp hd with rfl | hd
    · exact hfirst d h.1
    · exact hnext d (h.2 d hd)

theorem isWord_of_isName {text : String} (h : isName text = true) : IsWord text := by
  rw [isName, Bool.and_eq_true] at h
  refine isWord_of_consistsOf (fun c hc => ?_) (fun c hc => ?_) h.1
  · simp only [Bool.or_eq_true, decide_eq_true_eq] at hc
    rcases hc with (halpha | hscore) | hdollar
    · simp [isWordChar, Char.isAlphanum, halpha]
    · simp [isWordChar, hscore]
    · simp [isWordChar, hdollar]
  · rw [isWordChar, hc]
    rfl

theorem isWord_of_isNumeral {text : String} (h : isNumeral text = true) : IsWord text := by
  refine isWord_of_consistsOf (fun c hc => ?_) (fun c hc => ?_) h
  · simp only [Bool.or_eq_true, decide_eq_true_eq] at hc
    rcases hc with hdigit | hcode
    · simp [isWordChar, Char.isAlphanum, hdigit]
    · simp [isWordChar, hcode]
  · simp only [Bool.or_eq_true, decide_eq_true_eq] at hc
    rcases hc with halphanum | hcode
    · simp [isWordChar, halphanum]
    · simp [isWordChar, hcode]

theorem isWord_of_mem_keywords : ∀ word ∈ keywords, IsWord word := by
  have hall : keywords.all (fun word => !word.toList.isEmpty && word.toList.all isWordChar) =
      true := by
    decide
  intro word hword
  have hkeyword := List.all_eq_true.mp hall word hword
  simpa [IsWord] using hkeyword

theorem Literal.proper_lexeme {literal : Literal} (h : literal.isLegible = true) :
    literal.lexeme.Proper := by
  obtain ⟨kind, value, type⟩ := literal
  simp only [isLegible, Bool.and_eq_true] at h
  cases kind with
  | number => exact isWord_of_isNumeral h.2
  | boolean =>
    have hvalue : value = "true" ∨ value = "false" := by simpa using h.2
    rcases hvalue with rfl | rfl
    · exact isWord_of_mem_keywords "true" (by decide)
    · exact isWord_of_mem_keywords "false" (by decide)
  | string => trivial

/-! ## Spelling the parts -/

theorem Lexeme.stops_cons {c : Char} (h : isWordChar c = false) (text : List Char) :
    Stops (c :: text) := by
  intro d hd
  cases hd
  exact h

namespace Spells

variable {text : List Char} {lexemes : List Lexeme}

theorem space (h : Spells text lexemes) : Spells (' ' :: text) lexemes :=
  .blank (.inl rfl) h

theorem newline (h : Spells text lexemes) : Spells ('\n' :: text) lexemes :=
  .blank (.inr rfl) h

theorem mark {c : Char} (hc : c ∈ Lexeme.marks) (h : Spells text lexemes) :
    Spells (c :: text) (.mark c :: lexemes) :=
  have hproper : (Lexeme.mark c).Proper := hc
  .lexeme hproper trivial h

theorem word {word : String} (hword : IsWord word) (htext : Stops text)
    (h : Spells text lexemes) : Spells (word.toList ++ text) (.word word :: lexemes) :=
  have hproper : (Lexeme.word word).Proper := hword
  .lexeme hproper htext h

/-- A keyword with a space behind it. -/
theorem keyword {front word : String} (hword : word ∈ keywords)
    (hfront : front.toList = word.toList ++ [' ']) (h : Spells text lexemes) :
    Spells (front.toList ++ text) (.word word :: lexemes) := by
  rw [hfront, List.append_assoc]
  exact .word (isWord_of_mem_keywords word hword) (Lexeme.stops_cons (by decide) _) h.space

theorem indent (depth : Nat) (h : Spells text lexemes) :
    Spells ((Layout.indent depth).toList ++ text) lexemes := by
  rw [Layout.indent, String.toList_ofList]
  induction 4 * depth with
  | zero => exact h
  | succ n ih => exact ih.space

/-- Braces around lines that spell `inner`. An empty block has a space in place of lines. -/
theorem braces {lines : String} {inner : List Lexeme} (depth : Nat)
    (hlines : ∀ {text lexemes}, Spells text lexemes →
      Spells (lines.toList ++ text) (inner ++ lexemes))
    (h : Spells text lexemes) :
    Spells ((Layout.braces depth lines).toList ++ text) (braced inner ++ lexemes) := by
  have hclosing : Spells ('\x7d' :: text) (.mark '\x7d' :: lexemes) := .mark (by decide) h
  rw [Layout.braces]
  by_cases hempty : lines = ""
  · have hinner := hlines hclosing
    rw [hempty] at hinner
    rw [if_pos hempty, braced, List.cons_append, List.append_assoc]
    exact .mark (by decide) hinner.space
  · rw [if_neg hempty, braced, List.cons_append, List.append_assoc]
    simp only [String.toList_append, List.append_assoc]
    exact .mark (by decide) (hlines (hclosing.indent depth)).newline

end Spells

/-- A text spells these lexemes in front of every text that does not go on with a word. -/
def Spelled (rendering : String) (lexemes : List Lexeme) : Prop :=
  ∀ (text : List Char) (more : List Lexeme), Stops text → Spells text more →
    Spells (rendering.toList ++ text) (lexemes ++ more)

namespace Spelled

/-- A lexeme with a type tag behind it, if there is one. -/
theorem tagged {l : Lexeme} {text type : String} (hl : l.Proper)
    (hspelling : l.spelling = text.toList) (htype : isTag type = true) :
    Spelled (if type = "" then text else text ++ ":" ++ type) (l :: tag type) := by
  have hfront : ∀ {rest more}, Stops rest → Spells rest more →
      Spells (text.toList ++ rest) (l :: more) := by
    intro rest more hstops hrest
    rw [← hspelling]
    refine .lexeme hl ?_ hrest
    cases l with
    | word => exact hstops
    | quoted => trivial
    | mark => trivial
  intro rest more hstops hrest
  rw [tag]
  by_cases hempty : type = ""
  · rw [if_pos hempty, if_pos hempty]
    exact hfront hstops hrest
  · have hname : isName type = true := by simpa [isTag, hempty] using htype
    rw [if_neg hempty, if_neg hempty]
    simp only [String.toList_append, List.append_assoc]
    exact hfront (Lexeme.stops_cons (by decide) _)
      (.mark (by decide) (.word (isWord_of_isName hname) hstops hrest))

/-- Spelled texts with commas between them. -/
theorem separated {α : Type} {render : α → String} {lexemes : α → List Lexeme} :
    ∀ {items : List α}, (∀ item ∈ items, Spelled (render item) (lexemes item)) →
      Spelled (", ".intercalate (items.map render)) (commas (items.map lexemes))
  | [], _, _, _, _, hrest => hrest
  | [item], hitems, rest, more, hstops, hrest => by
    have hitem := hitems item List.mem_cons_self rest more hstops hrest
    simpa [Lexeme.commas] using hitem
  | item :: next :: items, hitems, rest, more, hstops, hrest => by
    have hback := separated (fun item hitem => hitems item (List.mem_cons_of_mem _ hitem))
      rest more hstops hrest
    have hcomma := Spells.mark (by decide : ',' ∈ Lexeme.marks) hback.space
    have hitem := hitems item List.mem_cons_self _ _ (Lexeme.stops_cons (by decide) _) hcomma
    simpa [Lexeme.commas, String.toList_intercalate, List.intercalate_cons_cons] using hitem

end Spelled

theorem TypedName.spelled {var : TypedName} (h : var.isLegible = true) :
    Spelled var.render var.lexemes := by
  rw [isLegible, Bool.and_eq_true] at h
  exact .tagged (isWord_of_isName h.1) rfl h.2

theorem TypedName.spelled_renderList {vars : List TypedName}
    (h : vars.all TypedName.isLegible = true) :
    Spelled (TypedName.renderList vars) (commas (vars.map TypedName.lexemes)) :=
  .separated fun var hvar => var.spelled (List.all_eq_true.mp h var hvar)

theorem Literal.spelled {literal : Literal} (h : literal.isLegible = true) :
    Spelled literal.render literal.lexemes := by
  have hproper := proper_lexeme h
  rw [isLegible, Bool.and_eq_true] at h
  refine .tagged hproper ?_ h.1
  obtain ⟨kind, value, type⟩ := literal
  cases kind <;> rfl

/-! ## Spelling a tree -/

theorem Expr.renderEach_eq_map (args : List Expr) :
    Expr.renderEach args = args.map Expr.render := by
  induction args with
  | nil => rfl
  | cons arg args ih => exact congrArg (arg.render :: ·) ih

theorem Expr.lexemesOfEach_eq_map (args : List Expr) :
    Expr.lexemesOfEach args = args.map Expr.lexemes := by
  induction args with
  | nil => rfl
  | cons arg args ih => exact congrArg (arg.lexemes :: ·) ih

/-- A name with spelled arguments between parentheses behind it. -/
theorem Spelled.application {name : String} {args : List Expr} (hname : isName name = true)
    (hargs : ∀ arg ∈ args, Spelled arg.render arg.lexemes) :
    Spelled (name ++ "(" ++ ", ".intercalate (Expr.renderEach args) ++ ")")
      (.word name :: .mark '(' :: (commas (Expr.lexemesOfEach args) ++ [.mark ')'])) := by
  intro text more _ h
  have hclosing : Spells (')' :: text) (.mark ')' :: more) := .mark (by decide) h
  have hinner := Spelled.separated hargs _ _ (Lexeme.stops_cons (by decide) _) hclosing
  rw [Expr.renderEach_eq_map, Expr.lexemesOfEach_eq_map]
  simp only [String.toList_append, List.append_assoc, List.cons_append]
  exact .word (isWord_of_isName hname) (Lexeme.stops_cons (by decide) _) (.mark (by decide) hinner)

mutual

theorem Expr.spelled : ∀ e : Expr, e.isLegible = true → Spelled e.render e.lexemes
  | .literal _, h => Literal.spelled h
  | .ident _, h => fun _ _ hstops hrest => .word (isWord_of_isName h) hstops hrest
  | .instr _ args, h => by
    rw [isLegible, Bool.and_eq_true] at h
    exact .application h.1 (Expr.spelled_of_mem args h.2)
  | .call _ args, h => by
    rw [isLegible, Bool.and_eq_true] at h
    exact .application h.1 (Expr.spelled_of_mem args h.2)

theorem Expr.spelled_of_mem : ∀ args : List Expr, Expr.areLegible args = true →
    ∀ arg ∈ args, Spelled arg.render arg.lexemes
  | [], _, _, hmem => by cases hmem
  | arg :: args, h, other, hmem => by
    rw [Expr.areLegible, Bool.and_eq_true] at h
    rcases List.mem_cons.mp hmem with hsame | hmem
    · rw [hsame]
      exact Expr.spelled arg h.1
    · exact Expr.spelled_of_mem args h.2 other hmem

end

section Parts

variable {text : List Char} {lexemes : List Lexeme}

theorem Layout.spells_initial {value : Option Expr} (hvalue : value.all Expr.isLegible = true)
    (htext : Stops text) (h : Spells text lexemes) :
    Spells ((Layout.initial value).toList ++ text) (Lexeme.initial value ++ lexemes) := by
  cases value with
  | none => exact h
  | some value =>
    have hspelled := Expr.spelled value hvalue text lexemes htext h
    simp only [Layout.initial, String.toList_append, List.append_assoc]
    exact (Spells.mark (by decide) (.mark (by decide) hspelled.space)).space

theorem Layout.stops_initial (value : Option Expr) (htext : Stops text) :
    Stops ((Layout.initial value).toList ++ text) := by
  cases value with
  | none => exact htext
  | some value =>
    simp only [Layout.initial, String.toList_append, List.append_assoc]
    exact Lexeme.stops_cons (by decide) _

theorem Layout.spells_returns {vars : List TypedName} (hvars : vars.all TypedName.isLegible = true)
    (htext : Stops text) (h : Spells text lexemes) :
    Spells ((Layout.returns vars).toList ++ text) (Lexeme.returns vars ++ lexemes) := by
  cases vars with
  | nil => exact h
  | cons var vars =>
    have hspelled := TypedName.spelled_renderList hvars text lexemes htext h
    simp only [Layout.returns, String.toList_append, List.append_assoc]
    exact (Spells.mark (by decide) (.mark (by decide) hspelled.space)).space

theorem Layout.spells_caseLabel {value : Option Literal}
    (hvalue : value.all Literal.isLegible = true) (h : Spells text lexemes) :
    Spells ((Layout.caseLabel value).toList ++ text) (Lexeme.caseLabel value ++ lexemes) := by
  cases value with
  | none => exact .keyword (by decide) rfl h
  | some value =>
    have hspelled := Literal.spelled hvalue _ _ (Lexeme.stops_cons (by decide) text) h.space
    simp only [Layout.caseLabel, String.toList_append, List.append_assoc]
    exact .keyword (by decide) rfl hspelled

end Parts

/-- The cases of a `switch` start on lines of their own. -/
theorem Case.stops_renderCases (depth : Nat) (cases : List Case) {text : List Char}
    (htext : Stops text) : Stops ((Case.renderCases depth cases).toList ++ text) := by
  cases cases with
  | nil => exact htext
  | cons case cases =>
    obtain ⟨value, body⟩ := case
    simp only [Case.renderCases, String.toList_append, List.append_assoc]
    exact Lexeme.stops_cons (by decide) _

mutual

/-- The text of a legible statement spells its lexemes, at whatever depth it stands. -/
theorem Stmt.spelled : ∀ (depth : Nat) (stmt : Stmt), stmt.isLegible = true →
    Spelled (stmt.renderAt depth) stmt.lexemes
  | _, .expr value, h => value.spelled h
  | _, .assign targets value, h => by
    simp only [Stmt.isLegible, Bool.and_eq_true] at h
    obtain ⟨⟨-, htargets⟩, hvalue⟩ := h
    have htarget : ∀ target ∈ targets, Spelled target [.word target] := by
      intro target hmem text more hstops hrest
      exact .word (isWord_of_isName (List.all_eq_true.mp htargets target hmem)) hstops hrest
    intro text more hstops hrest
    have hsigned := Spells.mark (by decide : ':' ∈ Lexeme.marks)
      (.mark (by decide : '=' ∈ Lexeme.marks) (value.spelled hvalue text more hstops hrest).space)
    have hfront := Spelled.separated htarget _ _ (Lexeme.stops_cons (by decide) _) hsigned.space
    rw [List.map_id'] at hfront
    simp only [Stmt.renderAt, Stmt.lexemes, String.toList_append, List.append_assoc]
    exact hfront
  | _, .declare vars value, h => by
    simp only [Stmt.isLegible, Bool.and_eq_true] at h
    obtain ⟨⟨-, hvars⟩, hvalue⟩ := h
    intro text more hstops hrest
    have hinitial := Layout.spells_initial hvalue hstops hrest
    have hback := TypedName.spelled_renderList hvars _ _ (Layout.stops_initial value hstops)
      hinitial
    simp only [Stmt.renderAt, Stmt.lexemes, String.toList_append, List.append_assoc,
      List.cons_append]
    exact .keyword (by decide) rfl hback
  | depth, .define ⟨name, params, returns, body⟩, h => by
    simp only [Stmt.isLegible, Bool.and_eq_true] at h
    obtain ⟨⟨⟨hname, hparams⟩, hreturns⟩, hbody⟩ := h
    intro text more hstops hrest
    have hbraces := Spells.braces depth (Block.spells_renderLines (depth + 1) body hbody) hrest
    have hreturned := Layout.spells_returns hreturns (Lexeme.stops_cons (by decide) _) hbraces.space
    have hclosing := Spells.mark (by decide : ')' ∈ Lexeme.marks) hreturned
    have hinner := TypedName.spelled_renderList hparams _ _ (Lexeme.stops_cons (by decide) _)
      hclosing
    have hopening := Spells.mark (by decide : '(' ∈ Lexeme.marks) hinner
    have hnamed := Spells.word (isWord_of_isName hname) (Lexeme.stops_cons (by decide) _) hopening
    simp only [Stmt.renderAt, Stmt.lexemes, String.toList_append, List.append_assoc,
      List.cons_append]
    exact .keyword (by decide) rfl hnamed
  | depth, .branch condition body, h => by
    simp only [Stmt.isLegible, Bool.and_eq_true] at h
    intro text more hstops hrest
    have hbraces := Spells.braces depth (Block.spells_renderLines (depth + 1) body h.2) hrest
    have hcondition := condition.spelled h.1 _ _ (Lexeme.stops_cons (by decide) _) hbraces.space
    simp only [Stmt.renderAt, Stmt.lexemes, String.toList_append, List.append_assoc,
      List.cons_append]
    exact .keyword (by decide) rfl hcondition
  | depth, .switch scrutinee cases, h => by
    simp only [Stmt.isLegible, Bool.and_eq_true] at h
    intro text more hstops hrest
    have hcases := Case.spells_renderCases depth cases h.2 hrest
    have hscrutinee := scrutinee.spelled h.1 _ _ (Case.stops_renderCases depth cases hstops) hcases
    simp only [Stmt.renderAt, Stmt.lexemes, String.toList_append, List.append_assoc,
      List.cons_append]
    exact .keyword (by decide) rfl hscrutinee
  | depth, .loop init condition step body, h => by
    simp only [Stmt.isLegible, Bool.and_eq_true] at h
    obtain ⟨⟨⟨hinit, hcondition⟩, hstep⟩, hbody⟩ := h
    intro text more hstops hrest
    have hbodied := Spells.braces depth (Block.spells_renderLines (depth + 1) body hbody) hrest
    have hstepped := Spells.braces depth (Block.spells_renderLines (depth + 1) step hstep)
      hbodied.space
    have hchecked := condition.spelled hcondition _ _ (Lexeme.stops_cons (by decide) _)
      hstepped.space
    have hstarted := Spells.braces depth (Block.spells_renderLines (depth + 1) init hinit)
      hchecked.space
    simp only [Stmt.renderAt, Stmt.lexemes, String.toList_append, List.append_assoc,
      List.cons_append]
    exact .keyword (by decide) rfl hstarted
  | depth, .block body, h => fun _ _ _ hrest =>
    Spells.braces depth (Block.spells_renderLines (depth + 1) body h) hrest

theorem Case.spells_renderCases : ∀ (depth : Nat) (cases : List Case),
    Case.areLegible cases = true → ∀ {text : List Char} {more : List Lexeme}, Spells text more →
      Spells ((Case.renderCases depth cases).toList ++ text) (Case.lexemes cases ++ more)
  | _, [], _, _, _, hrest => hrest
  | depth, ⟨value, body⟩ :: cases, h, text, more, hrest => by
    simp only [Case.areLegible, Bool.and_eq_true] at h
    obtain ⟨⟨hvalue, hbody⟩, hcases⟩ := h
    have hback := Case.spells_renderCases depth cases hcases hrest
    have hbraces := Spells.braces depth (Block.spells_renderLines (depth + 1) body hbody) hback
    have hlabel := Layout.spells_caseLabel hvalue hbraces
    simp only [Case.renderCases, Case.lexemes, String.toList_append, List.append_assoc]
    exact (hlabel.indent depth).newline

theorem Block.spells_renderLines : ∀ (depth : Nat) (block : Block), Block.isLegible block = true →
    ∀ {text : List Char} {more : List Lexeme}, Spells text more →
      Spells ((Block.renderLines depth block).toList ++ text) (Block.lexemes block ++ more)
  | _, [], _, _, _, hrest => hrest
  | depth, stmt :: stmts, h, text, more, hrest => by
    simp only [Block.isLegible, Bool.and_eq_true] at h
    have hback := Block.spells_renderLines depth stmts h.2 hrest
    have hstmt := stmt.spelled depth h.1 _ _ (Lexeme.stops_cons (by decide) _) hback.newline
    simp only [Block.renderLines, Block.lexemes, String.toList_append, List.append_assoc]
    exact hstmt.indent depth

end

/-- The text of a legible block spells its lexemes. -/
theorem Block.spells_render {block : Block} (h : Block.isLegible block = true) :
    Spells (Block.render block).toList (braced (Block.lexemes block)) := by
  have hspells := Spells.braces 0 (Block.spells_renderLines 1 block h) Spells.nil
  rwa [List.append_nil, List.append_nil] at hspells

end YulInline
