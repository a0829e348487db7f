import YulInline.Proofs.ReadableExpressions
import YulInline.Proofs.Tree

/-!
# Renderings can be read back

The lexemes of a legible tree determine the tree, except that a call and an instruction of the same
name are written alike (`Block.determined`). As a text spells only one sequence of lexemes, the text
of a tree determines it in the same way.

Statements are told apart by their first lexemes (`opening`): by a keyword or a brace, or, behind a
word that is no keyword, by the comma or the sign that only an assignment has there. A `switch` goes
on as long as cases follow, and a declaration if a value follows. What stands behind a statement is
another one or the closing brace of the block, and with neither of them a statement goes on.
-/

namespace YulInline

open Lexeme (tag commas braced)

/-! ## Trees without calls -/

/-- A statement with an instruction in place of every call. -/
def Stmt.withoutCalls (stmt : Stmt) : Stmt :=
  stmt.mapParts Expr.withoutCalls id id

/-- A list of cases with an instruction in place of every call. -/
def Case.withoutCalls (cases : List Case) : List Case :=
  Case.mapParts Expr.withoutCalls id id cases

/-- A block with an instruction in place of every call. -/
def Block.withoutCalls (block : Block) : Block :=
  Block.mapParts Expr.withoutCalls id id block

/-! ## How statements start -/

/-- The keywords that statements start with, and those that a case starts with. -/
def openings : List (String × Option StmtKind) :=
  [("let", some .declaration), ("function", some .definition), ("if", some .branch),
    ("switch", some .switch), ("for", some .loop), ("case", none), ("default", none)]

/-- The kind of a statement that starts with a word of its own, by what follows the word. -/
def kindBehindWord : List Lexeme → StmtKind
  | .mark ',' :: _ => .assignment
  | .mark ':' :: .mark '=' :: _ => .assignment
  | _ => .expression

/-- The kind of statement that a sequence starts with, if it starts with one. -/
def opening : List Lexeme → Option StmtKind
  | [] => none
  | .word text :: rest => (openings.lookup text).getD (some (kindBehindWord rest))
  | .quoted _ :: _ => some .expression
  | .mark c :: _ => if c = '\x7b' then some .block else none

/-- Sequences that may stand behind a statement: the block is closed or goes on. -/
def EndsStmt (rest : List Lexeme) : Prop :=
  (∃ more, rest = .mark '\x7d' :: more) ∨ ∃ kind, opening rest = some kind

theorem endsStmt_closing (more : List Lexeme) : EndsStmt (.mark '\x7d' :: more) :=
  Or.inl ⟨more, rfl⟩

theorem EndsStmt.ne_cons {l : Lexeme} {rest more : List Lexeme} (h : EndsStmt rest)
    (hclosing : l ≠ .mark '\x7d') (hl : opening (l :: more) = none) : rest ≠ l :: more := by
  intro hsame
  rcases h with ⟨closed, hclosed⟩ | ⟨kind, hkind⟩
  · exact hclosing (List.cons.inj (hsame.symm.trans hclosed)).1
  · rw [hsame, hl] at hkind
    cases hkind

/-- No statement starts with a mark other than a brace. -/
theorem EndsStmt.ne_mark {c : Char} {rest : List Lexeme} (h : EndsStmt rest)
    (hopening : c ≠ '\x7b') (hclosing : c ≠ '\x7d') (more : List Lexeme) :
    rest ≠ .mark c :: more :=
  h.ne_cons (fun hsame => hclosing (Lexeme.mark.inj hsame)) (if_neg hopening)

theorem EndsStmt.endsExpr {rest : List Lexeme} (h : EndsStmt rest) : EndsExpr rest := by
  cases rest with
  | nil => exact fun l hl => by cases hl
  | cons l more =>
    refine endsExpr_cons ?_ ?_ more
    · rintro rfl
      exact h.ne_mark (by decide) (by decide) more rfl
    · rintro rfl
      exact h.ne_mark (by decide) (by decide) more rfl

theorem EndsStmt.endsSeparated {rest : List Lexeme} (h : EndsStmt rest) :
    EndsSeparated Untagged rest :=
  ⟨h.endsExpr.untagged, h.ne_mark (by decide) (by decide)⟩

/-- Behind a word that no statement and no case has as keyword, the next lexemes decide. -/
theorem opening_word {text : String} (h : ∀ entry ∈ openings, text ≠ entry.1)
    (rest : List Lexeme) : opening (.word text :: rest) = some (kindBehindWord rest) := by
  have hlookup : openings.lookup text = none := by
    rw [List.lookup_eq_none_iff]
    intro entry hentry
    exact bne_iff_ne.mpr (h entry hentry)
  rw [opening, hlookup]
  rfl

theorem opening_name {text : String} (h : isName text = true) (rest : List Lexeme) :
    opening (.word text :: rest) = some (kindBehindWord rest) := by
  have hkeywords : ∀ entry ∈ openings, isName entry.1 = false := by decide
  refine opening_word (fun entry hentry hsame => ?_) rest
  rw [hsame, hkeywords entry hentry] at h
  cases h

theorem kindBehindWord_of_endsStmt {rest : List Lexeme} (h : EndsStmt rest) :
    kindBehindWord rest = .expression := by
  unfold kindBehindWord
  split
  · exact absurd rfl (h.ne_mark (by decide) (by decide) _)
  · exact absurd rfl (h.ne_mark (by decide) (by decide) _)
  · rfl

theorem kindBehindWord_tag {type : String} {rest : List Lexeme} (h : EndsStmt rest) :
    kindBehindWord (tag type ++ rest) = .expression := by
  rw [tag]
  by_cases hempty : type = ""
  · rw [if_pos hempty]
    exact kindBehindWord_of_endsStmt h
  · rw [if_neg hempty]
    rfl

theorem Literal.opening_lexemes {value : Literal} (hvalue : value.isLegible = true)
    {rest : List Lexeme} (hrest : EndsStmt rest) :
    opening (value.lexemes ++ rest) = some .expression := by
  obtain ⟨kind, value, type⟩ := value
  simp only [isLegible, Bool.and_eq_true] at hvalue
  have hword : (∀ entry ∈ openings, value ≠ entry.1) →
      opening (.word value :: (tag type ++ rest)) = some .expression := by
    intro hkeywords
    rw [opening_word hkeywords, kindBehindWord_tag hrest]
  cases kind with
  | number =>
    have hkeywords : ∀ entry ∈ openings, isNumeral entry.1 = false := by decide
    refine hword fun entry hentry hsame => ?_
    have hnumeral := hkeywords entry hentry
    rw [← hsame] at hnumeral
    exact absurd hvalue.2 (ne_true_of_eq_false hnumeral)
  | boolean =>
    refine hword ?_
    have hboolean : value = "true" ∨ value = "false" := by simpa using hvalue.2
    rcases hboolean with rfl | rfl <;> decide
  | string => rfl

theorem Expr.opening_lexemes {e : Expr} (he : e.isLegible = true) {rest : List Lexeme}
    (hrest : EndsStmt rest) : opening (e.lexemes ++ rest) = some .expression := by
  cases e with
  | literal value => exact Literal.opening_lexemes he hrest
  | ident name =>
    exact (opening_name he rest).trans (congrArg some (kindBehindWord_of_endsStmt hrest))
  | instr op args =>
    rw [isLegible, Bool.and_eq_true] at he
    exact opening_name he.1 _
  | call callee args =>
    rw [isLegible, Bool.and_eq_true] at he
    exact opening_name he.1 _

/-- The first lexemes of a statement tell of which kind it is. -/
theorem Stmt.opening_lexemes {stmt : Stmt} (h : stmt.isLegible = true) {rest : List Lexeme}
    (hrest : EndsStmt rest) : opening (stmt.lexemes ++ rest) = some stmt.kind := by
  cases stmt with
  | expr value => exact Expr.opening_lexemes h hrest
  | assign targets value =>
    simp only [isLegible, Bool.and_eq_true] at h
    obtain ⟨⟨hne, htargets⟩, -⟩ := h
    match targets, hne, htargets with
    | [target], _, htargets =>
      have htarget : isName target = true := by simpa using htargets
      exact opening_name htarget _
    | target :: next :: targets, _, htargets =>
      have htarget : isName target = true := (Bool.and_eq_true_iff.mp htargets).1
      exact opening_name htarget _
  | declare vars value => rfl
  | define function =>
    obtain ⟨name, params, returns, body⟩ := function
    rfl
  | branch condition body => rfl
  | switch scrutinee cases => rfl
  | loop init condition step body => rfl
  | block body => rfl

/-- Behind a statement of a block stands what may stand there. -/
theorem Block.endsStmt_lexemes {block : Block} (h : Block.isLegible block = true)
    (rest : List Lexeme) : EndsStmt (Block.lexemes block ++ .mark '\x7d' :: rest) := by
  induction block with
  | nil => exact endsStmt_closing rest
  | cons stmt stmts ih =>
    rw [Block.isLegible, Bool.and_eq_true] at h
    rw [Block.lexemes, List.append_assoc]
    exact Or.inr ⟨_, stmt.opening_lexemes h.1 (ih h.2)⟩

/-! ## Statements -/

section Parts

variable {rest rest' : List Lexeme}

theorem endsSeparated_mark {ends : List Lexeme → Prop} {c : Char} (hc : c ≠ ',')
    (hends : ends (.mark c :: rest)) : EndsSeparated ends (.mark c :: rest) := by
  refine ⟨hends, fun more hsame => hc ?_⟩
  exact Lexeme.mark.inj (List.cons.inj hsame).1

theorem untagged_mark {c : Char} (hc : c ≠ ':') (rest : List Lexeme) :
    Untagged (.mark c :: rest) := by
  intro word more hsame
  exact hc (Lexeme.mark.inj (List.cons.inj hsame).1)

theorem Lexeme.endsSeparated_initial (value : Option Expr) (h : EndsStmt rest) :
    EndsSeparated Untagged (Lexeme.initial value ++ rest) := by
  cases value with
  | none => exact h.endsSeparated
  | some value =>
    refine endsSeparated_mark (by decide) ?_
    intro word more hsame
    cases hsame

theorem Lexeme.initial_determined {value value' : Option Expr}
    (hvalue : value.all Expr.isLegible = true) (hvalue' : value'.all Expr.isLegible = true)
    (hrest : EndsStmt rest) (hrest' : EndsStmt rest')
    (h : Lexeme.initial value ++ rest = Lexeme.initial value' ++ rest') :
    value.map Expr.withoutCalls = value'.map Expr.withoutCalls ∧ rest = rest' := by
  cases value with
  | none =>
    cases value' with
    | none => exact ⟨rfl, h⟩
    | some value' => exact absurd h (hrest.ne_mark (by decide) (by decide) _)
  | some value =>
    cases value' with
    | none => exact absurd h.symm (hrest'.ne_mark (by decide) (by decide) _)
    | some value' =>
      obtain ⟨hplain, hsame⟩ := value.determined hvalue value' rest rest' hvalue' hrest.endsExpr
        hrest'.endsExpr (List.cons.inj (List.cons.inj h).2).2
      exact ⟨congrArg some hplain, hsame⟩

theorem TypedName.determined_parenthesised {vars vars' : List TypedName}
    (hvars' : vars'.all TypedName.isLegible = true)
    (h : commas (vars.map TypedName.lexemes) ++ .mark ')' :: rest =
      commas (vars'.map TypedName.lexemes) ++ .mark ')' :: rest') :
    vars = vars' ∧ rest = rest' := by
  have hopen : ∀ (var : TypedName) rest rest', var.lexemes ++ rest ≠ .mark ')' :: rest' := by
    intro var rest rest' hsame
    cases (List.cons.inj hsame).1
  obtain ⟨hvars, hrest⟩ := Determined.parenthesised untagged_comma (untagged_mark (by decide)) hopen
    (fun var _ => var.determined) hvars' h
  rw [List.map_id, List.map_id] at hvars
  exact ⟨hvars, hrest⟩

theorem TypedName.determined_commas {vars vars' : List TypedName} (hne : vars ≠ [])
    (hne' : vars' ≠ []) (hvars' : vars'.all TypedName.isLegible = true)
    (hrest : EndsSeparated Untagged rest) (hrest' : EndsSeparated Untagged rest')
    (h : commas (vars.map TypedName.lexemes) ++ rest =
      commas (vars'.map TypedName.lexemes) ++ rest') : vars = vars' ∧ rest = rest' := by
  obtain ⟨hvars, hrest⟩ := Determined.commas untagged_comma (fun var _ => var.determined) hvars' hne
    hne' hrest hrest' h
  rw [List.map_id, List.map_id] at hvars
  exact ⟨hvars, hrest⟩

theorem Lexeme.returns_determined {vars vars' : List TypedName} {inner inner' : List Lexeme}
    (hvars' : vars'.all TypedName.isLegible = true)
    (h : Lexeme.returns vars ++ (braced inner ++ rest) =
      Lexeme.returns vars' ++ (braced inner' ++ rest')) :
    vars = vars' ∧ braced inner ++ rest = braced inner' ++ rest' := by
  have hends : ∀ inner rest, EndsSeparated Untagged (braced inner ++ rest) :=
    fun inner rest => endsSeparated_mark (by decide) (untagged_mark (by decide) _)
  match vars, vars', hvars', h with
  | [], [], _, h => exact ⟨rfl, h⟩
  | [], _ :: _, _, h => cases (List.cons.inj h).1
  | _ :: _, [], _, h => cases (List.cons.inj h).1
  | var :: vars, var' :: vars', hvars', h =>
    exact TypedName.determined_commas (List.cons_ne_nil var vars) (List.cons_ne_nil var' vars')
      hvars' (hends inner rest) (hends inner' rest') (List.cons.inj (List.cons.inj h).2).2

theorem Lexeme.caseLabel_determined {value value' : Option Literal} {inner inner' : List Lexeme}
    (hvalue : value.all Literal.isLegible = true) (hvalue' : value'.all Literal.isLegible = true)
    (h : Lexeme.caseLabel value ++ (braced inner ++ rest) =
      Lexeme.caseLabel value' ++ (braced inner' ++ rest')) :
    value = value' ∧ braced inner ++ rest = braced inner' ++ rest' := by
  have hends : ∀ inner rest, Untagged (braced inner ++ rest) :=
    fun inner rest => untagged_mark (by decide) _
  cases value with
  | none =>
    cases value' with
    | none => exact ⟨rfl, (List.cons.inj h).2⟩
    | some value' => exact absurd (Lexeme.word.inj (List.cons.inj h).1) (by decide)
  | some value =>
    cases value' with
    | none => exact absurd (Lexeme.word.inj (List.cons.inj h).1) (by decide)
    | some value' =>
      obtain ⟨hsame, hback⟩ := Literal.determined hvalue value' _ _ hvalue' (hends inner rest)
        (hends inner' rest') (List.cons.inj h).2
      exact ⟨congrArg some hsame, hback⟩

end Parts

/-- The lexemes of a statement determine it up to calls. -/
abbrev Stmt.Determined : Stmt → Prop :=
  YulInline.Determined Stmt.lexemes Stmt.isLegible Stmt.withoutCalls EndsStmt

/-- The lexemes of the cases of a `switch` determine them up to calls. -/
abbrev Case.Determined : List Case → Prop :=
  YulInline.Determined Case.lexemes Case.areLegible Case.withoutCalls EndsStmt

/-- The lexemes of a block, with the closing brace, determine it up to calls. -/
abbrev Block.Determined : Block → Prop :=
  YulInline.Determined (fun block => Block.lexemes block ++ [.mark '\x7d']) Block.isLegible
    Block.withoutCalls fun _ => True

theorem Block.Determined.braced {body body' : Block} (hbody : Block.Determined body)
    (hbody' : Block.isLegible body' = true) {rest rest' : List Lexeme}
    (h : braced (Block.lexemes body) ++ rest = braced (Block.lexemes body') ++ rest') :
    Block.withoutCalls body = Block.withoutCalls body' ∧ rest = rest' :=
  hbody body' rest rest' hbody' trivial trivial (List.cons.inj h).2

/-- Statements with the same lexemes are of one kind. -/
theorem Stmt.determined_of_kind {stmt : Stmt} (h : stmt.isLegible = true)
    (hkind : ∀ (stmt' : Stmt) rest rest', stmt'.kind = stmt.kind → stmt'.isLegible = true →
      EndsStmt rest → EndsStmt rest' → stmt.lexemes ++ rest = stmt'.lexemes ++ rest' →
      stmt.withoutCalls = stmt'.withoutCalls ∧ rest = rest') : stmt.Determined := by
  intro stmt' rest rest' h' hrest hrest' hsame
  have hopening : some stmt'.kind = some stmt.kind := by
    rw [← stmt.opening_lexemes h hrest, ← stmt'.opening_lexemes h' hrest', hsame]
  exact hkind stmt' rest rest' (Option.some.inj hopening) h' hrest hrest' hsame

theorem Stmt.determined_expr {value : Expr} (h : (Stmt.expr value).isLegible = true) :
    (Stmt.expr value).Determined := by
  refine Stmt.determined_of_kind h fun stmt' rest rest' hkind h' hrest hrest' hsame => ?_
  cases stmt' with
  | expr value' =>
    obtain ⟨hplain, hrest⟩ :=
      value.determined h value' rest rest' h' hrest.endsExpr hrest'.endsExpr hsame
    exact ⟨congrArg Stmt.expr hplain, hrest⟩
  | _ => cases hkind

theorem Stmt.determined_assign {targets : List String} {value : Expr}
    (h : (Stmt.assign targets value).isLegible = true) :
    (Stmt.assign targets value).Determined := by
  refine Stmt.determined_of_kind h fun stmt' rest rest' hkind h' hrest hrest' hsame => ?_
  cases stmt' with
  | assign targets' value' =>
    simp only [isLegible, Bool.and_eq_true, Bool.not_eq_true', List.isEmpty_eq_false_iff] at h h'
    obtain ⟨⟨hne, -⟩, hvalue⟩ := h
    obtain ⟨⟨hne', htargets'⟩, hvalue'⟩ := h'
    have htarget : ∀ target ∈ targets, YulInline.Determined (fun target => [Lexeme.word target])
        isName id (fun _ => True) target := by
      intro target _ target' rest rest' _ _ _ hsame
      exact ⟨Lexeme.word.inj (List.cons.inj hsame).1, (List.cons.inj hsame).2⟩
    have hends : ∀ value, EndsSeparated (fun _ => True) (.mark ':' :: value) :=
      fun value => endsSeparated_mark (by decide) trivial
    simp only [lexemes, List.append_assoc] at hsame
    obtain ⟨htargets, hback⟩ :=
      Determined.commas (fun _ => trivial) htarget htargets' hne hne' (hends _) (hends _) hsame
    obtain ⟨hplain, hrest⟩ := value.determined hvalue value' rest rest' hvalue' hrest.endsExpr
      hrest'.endsExpr (List.cons.inj (List.cons.inj hback).2).2
    rw [List.map_id, List.map_id] at htargets
    refine ⟨?_, hrest⟩
    show Stmt.assign targets value.withoutCalls = Stmt.assign targets' value'.withoutCalls
    rw [htargets, hplain]
  | _ => cases hkind

theorem Stmt.determined_declare {vars : List TypedName} {value : Option Expr}
    (h : (Stmt.declare vars value).isLegible = true) :
    (Stmt.declare vars value).Determined := by
  refine Stmt.determined_of_kind h fun stmt' rest rest' hkind h' hrest hrest' hsame => ?_
  cases stmt' with
  | declare vars' value' =>
    simp only [isLegible, Bool.and_eq_true, Bool.not_eq_true', List.isEmpty_eq_false_iff] at h h'
    obtain ⟨⟨hne, -⟩, hvalue⟩ := h
    obtain ⟨⟨hne', hvars'⟩, hvalue'⟩ := h'
    simp only [lexemes, List.cons_append, List.append_assoc] at hsame
    obtain ⟨rfl, hback⟩ := TypedName.determined_commas hne hne' hvars'
      (Lexeme.endsSeparated_initial value hrest) (Lexeme.endsSeparated_initial value' hrest')
      (List.cons.inj hsame).2
    obtain ⟨hplain, hrest⟩ := Lexeme.initial_determined hvalue hvalue' hrest hrest' hback
    exact ⟨congrArg (Stmt.declare _) hplain, hrest⟩
  | _ => cases hkind

theorem Stmt.determined_define {name : String} {params returns : List TypedName} {body : Block}
    (h : (Stmt.define ⟨name, params, returns, body⟩).isLegible = true)
    (hbody : Block.Determined body) : (Stmt.define ⟨name, params, returns, body⟩).Determined := by
  refine Stmt.determined_of_kind h fun stmt' rest rest' hkind h' hrest hrest' hsame => ?_
  cases stmt' with
  | define function' =>
    obtain ⟨name', params', returns', body'⟩ := function'
    simp only [isLegible, Bool.and_eq_true] at h'
    obtain ⟨⟨⟨-, hparams'⟩, hreturns'⟩, hbody'⟩ := h'
    simp only [lexemes, List.cons_append, List.append_assoc] at hsame
    obtain ⟨hname, hopened⟩ := List.cons.inj (List.cons.inj hsame).2
    obtain ⟨hparams, hclosed⟩ :=
      TypedName.determined_parenthesised hparams' (List.cons.inj hopened).2
    obtain ⟨hreturns, hbraced⟩ := Lexeme.returns_determined hreturns' hclosed
    obtain ⟨hplain, hrest⟩ := hbody.braced hbody' hbraced
    refine ⟨?_, hrest⟩
    show Stmt.define ⟨name, params.map id, returns.map id, Block.withoutCalls body⟩ =
      Stmt.define ⟨name', params'.map id, returns'.map id, Block.withoutCalls body'⟩
    rw [Lexeme.word.inj hname, hparams, hreturns, hplain]
  | _ => cases hkind

theorem Stmt.determined_branch {condition : Expr} {body : Block}
    (h : (Stmt.branch condition body).isLegible = true) (hbody : Block.Determined body) :
    (Stmt.branch condition body).Determined := by
  refine Stmt.determined_of_kind h fun stmt' rest rest' hkind h' hrest hrest' hsame => ?_
  cases stmt' with
  | branch condition' body' =>
    simp only [isLegible, Bool.and_eq_true] at h h'
    simp only [lexemes, List.cons_append, List.append_assoc] at hsame
    obtain ⟨hcondition, hback⟩ := condition.determined h.1 condition' _ _ h'.1
      (endsExpr_braced _ _) (endsExpr_braced _ _) (List.cons.inj hsame).2
    obtain ⟨hplain, hrest⟩ := hbody.braced h'.2 hback
    refine ⟨?_, hrest⟩
    show Stmt.branch condition.withoutCalls (Block.withoutCalls body) =
      Stmt.branch condition'.withoutCalls (Block.withoutCalls body')
    rw [hcondition, hplain]
  | _ => cases hkind

/-- What starts with a case does not stand behind a statement. -/
theorem Case.lexemes_cons_ne (case : Case) (cases : List Case) (more : List Lexeme)
    {rest : List Lexeme} (hrest : EndsStmt rest) : rest ≠ Case.lexemes (case :: cases) ++ more := by
  match case with
  | ⟨none, body⟩ => exact hrest.ne_cons (fun h => by cases h) rfl
  | ⟨some value, body⟩ => exact hrest.ne_cons (fun h => by cases h) rfl

theorem Case.endsExpr_lexemes (cases : List Case) {rest : List Lexeme} (hrest : EndsStmt rest) :
    EndsExpr (Case.lexemes cases ++ rest) := by
  match cases with
  | [] => exact hrest.endsExpr
  | ⟨none, body⟩ :: cases => exact endsExpr_cons (fun h => by cases h) (fun h => by cases h) _
  | ⟨some value, body⟩ :: cases => exact endsExpr_cons (fun h => by cases h) (fun h => by cases h) _

theorem Stmt.determined_switch {scrutinee : Expr} {cases : List Case}
    (h : (Stmt.switch scrutinee cases).isLegible = true) (hcases : Case.Determined cases) :
    (Stmt.switch scrutinee cases).Determined := by
  refine Stmt.determined_of_kind h fun stmt' rest rest' hkind h' hrest hrest' hsame => ?_
  cases stmt' with
  | switch scrutinee' cases' =>
    simp only [isLegible, Bool.and_eq_true] at h h'
    simp only [lexemes, List.cons_append, List.append_assoc] at hsame
    obtain ⟨hscrutinee, hback⟩ := scrutinee.determined h.1 scrutinee' _ _ h'.1
      (Case.endsExpr_lexemes cases hrest) (Case.endsExpr_lexemes cases' hrest')
      (List.cons.inj hsame).2
    obtain ⟨hplain, hrest⟩ := hcases cases' rest rest' h'.2 hrest hrest' hback
    refine ⟨?_, hrest⟩
    show Stmt.switch scrutinee.withoutCalls (Case.withoutCalls cases) =
      Stmt.switch scrutinee'.withoutCalls (Case.withoutCalls cases')
    rw [hscrutinee, hplain]
  | _ => cases hkind

theorem Stmt.determined_loop {init step body : Block} {condition : Expr}
    (h : (Stmt.loop init condition step body).isLegible = true) (hinit : Block.Determined init)
    (hstep : Block.Determined step) (hbody : Block.Determined body) :
    (Stmt.loop init condition step body).Determined := by
  refine Stmt.determined_of_kind h fun stmt' rest rest' hkind h' hrest hrest' hsame => ?_
  cases stmt' with
  | loop init' condition' step' body' =>
    simp only [isLegible, Bool.and_eq_true] at h h'
    obtain ⟨⟨⟨-, hcondition⟩, -⟩, -⟩ := h
    obtain ⟨⟨⟨hinit', hcondition'⟩, hstep'⟩, hbody'⟩ := h'
    simp only [lexemes, List.cons_append, List.append_assoc] at hsame
    obtain ⟨hinitial, hback⟩ := hinit.braced hinit' (List.cons.inj hsame).2
    obtain ⟨hchecked, hback⟩ := condition.determined hcondition condition' _ _ hcondition'
      (endsExpr_braced _ _) (endsExpr_braced _ _) hback
    obtain ⟨hstepped, hback⟩ := hstep.braced hstep' hback
    obtain ⟨hplain, hrest⟩ := hbody.braced hbody' hback
    refine ⟨?_, hrest⟩
    show Stmt.loop (Block.withoutCalls init) condition.withoutCalls (Block.withoutCalls step)
      (Block.withoutCalls body) = Stmt.loop (Block.withoutCalls init') condition'.withoutCalls
      (Block.withoutCalls step') (Block.withoutCalls body')
    rw [hinitial, hchecked, hstepped, hplain]
  | _ => cases hkind

theorem Stmt.determined_block {body : Block} (h : (Stmt.block body).isLegible = true)
    (hbody : Block.Determined body) : (Stmt.block body).Determined := by
  refine Stmt.determined_of_kind h fun stmt' rest rest' hkind h' hrest hrest' hsame => ?_
  cases stmt' with
  | block body' =>
    obtain ⟨hplain, hrest⟩ := hbody.braced h' hsame
    exact ⟨congrArg Stmt.block hplain, hrest⟩
  | _ => cases hkind

theorem Case.determined_nil : Case.Determined [] := by
  intro cases' rest rest' _ hrest _ hsame
  cases cases' with
  | nil => exact ⟨rfl, hsame⟩
  | cons case' cases' => exact absurd hsame (Case.lexemes_cons_ne case' cases' rest' hrest)

theorem Case.determined_cons {value : Option Literal} {body : Block} {cases : List Case}
    (hvalue : value.all Literal.isLegible = true) (hbody : Block.Determined body)
    (hcases : Case.Determined cases) : Case.Determined (⟨value, body⟩ :: cases) := by
  intro cases' rest rest' h' hrest hrest' hsame
  match cases', h', hsame with
  | [], _, hsame => exact absurd hsame.symm (Case.lexemes_cons_ne ⟨value, body⟩ cases rest hrest')
  | ⟨value', body'⟩ :: cases', h', hsame =>
    simp only [areLegible, Bool.and_eq_true] at h'
    obtain ⟨⟨hvalue', hbody'⟩, hcases'⟩ := h'
    simp only [lexemes, List.append_assoc] at hsame
    obtain ⟨rfl, hback⟩ := Lexeme.caseLabel_determined hvalue hvalue' hsame
    obtain ⟨hplain, hback⟩ := hbody.braced hbody' hback
    obtain ⟨hback, hrest⟩ := hcases cases' rest rest' hcases' hrest hrest' hback
    refine ⟨?_, hrest⟩
    show ⟨value.map id, Block.withoutCalls body⟩ :: Case.withoutCalls cases =
      ⟨value.map id, Block.withoutCalls body'⟩ :: Case.withoutCalls cases'
    rw [hplain, hback]

/-- What starts with a statement does not start with the closing brace of the block. -/
theorem Block.lexemes_cons_ne {stmt : Stmt} {stmts : Block}
    (h : Block.isLegible (stmt :: stmts) = true) (rest rest' : List Lexeme) :
    Block.lexemes (stmt :: stmts) ++ [.mark '\x7d'] ++ rest ≠ .mark '\x7d' :: rest' := by
  rw [isLegible, Bool.and_eq_true] at h
  intro hsame
  simp only [lexemes, List.append_assoc, List.cons_append, List.nil_append] at hsame
  have hopening := stmt.opening_lexemes h.1 (Block.endsStmt_lexemes h.2 rest)
  rw [hsame] at hopening
  cases hopening

theorem Block.determined_nil : Block.Determined [] := by
  intro block' rest rest' h' _ _ hsame
  cases block' with
  | nil => exact ⟨rfl, (List.cons.inj hsame).2⟩
  | cons stmt' stmts' => exact absurd hsame.symm (Block.lexemes_cons_ne h' rest' rest)

theorem Block.determined_cons {stmt : Stmt} {stmts : Block}
    (h : Block.isLegible (stmt :: stmts) = true) (hstmt : stmt.Determined)
    (hstmts : Block.Determined stmts) : Block.Determined (stmt :: stmts) := by
  intro block' rest rest' h' _ _ hsame
  cases block' with
  | nil => exact absurd hsame (Block.lexemes_cons_ne h rest rest')
  | cons stmt' stmts' =>
    rw [isLegible, Bool.and_eq_true] at h h'
    simp only [lexemes, List.append_assoc, List.nil_append, List.cons_append] at hsame
    obtain ⟨hplain, hback⟩ := hstmt stmt' _ _ h'.1 (Block.endsStmt_lexemes h.2 rest)
      (Block.endsStmt_lexemes h'.2 rest') hsame
    obtain ⟨hplains, hrest⟩ := hstmts stmts' rest rest' h'.2 trivial trivial (by simpa using hback)
    refine ⟨?_, hrest⟩
    show stmt.withoutCalls :: Block.withoutCalls stmts =
      stmt'.withoutCalls :: Block.withoutCalls stmts'
    rw [hplain, hplains]

mutual

theorem Stmt.determined : ∀ stmt : Stmt, stmt.isLegible = true → stmt.Determined
  | .expr _, h => Stmt.determined_expr h
  | .assign _ _, h => Stmt.determined_assign h
  | .declare _ _, h => Stmt.determined_declare h
  | .define ⟨_, _, _, body⟩, h => by
    have hlegible := h
    simp only [Stmt.isLegible, Bool.and_eq_true] at hlegible
    exact Stmt.determined_define h (Block.determined body hlegible.2)
  | .branch _ body, h => by
    have hlegible := h
    simp only [Stmt.isLegible, Bool.and_eq_true] at hlegible
    exact Stmt.determined_branch h (Block.determined body hlegible.2)
  | .switch _ cases, h => by
    have hlegible := h
    simp only [Stmt.isLegible, Bool.and_eq_true] at hlegible
    exact Stmt.determined_switch h (Case.determined cases hlegible.2)
  | .loop init _ step body, h => by
    have hlegible := h
    simp only [Stmt.isLegible, Bool.and_eq_true] at hlegible
    obtain ⟨⟨⟨hinit, -⟩, hstep⟩, hbody⟩ := hlegible
    exact Stmt.determined_loop h (Block.determined init hinit) (Block.determined step hstep)
      (Block.determined body hbody)
  | .block body, h => Stmt.determined_block h (Block.determined body h)

theorem Case.determined : ∀ cases : List Case, Case.areLegible cases = true → Case.Determined cases
  | [], _ => Case.determined_nil
  | ⟨_, body⟩ :: cases, h => by
    simp only [Case.areLegible, Bool.and_eq_true] at h
    obtain ⟨⟨hvalue, hbody⟩, hcases⟩ := h
    exact Case.determined_cons hvalue (Block.determined body hbody) (Case.determined cases hcases)

theorem Block.determined : ∀ block : Block, Block.isLegible block = true → Block.Determined block
  | [], _ => Block.determined_nil
  | stmt :: stmts, h => by
    have hlegible := h
    rw [Block.isLegible, Bool.and_eq_true] at hlegible
    exact Block.determined_cons h (Stmt.determined stmt hlegible.1)
      (Block.determined stmts hlegible.2)

end

/-! ## Renderings -/

mutual

/-- A call is written like an instruction. -/
theorem Expr.render_withoutCalls : ∀ e : Expr, e.withoutCalls.render = e.render
  | .literal _ => rfl
  | .ident _ => rfl
  | .instr op args => by
    rw [Expr.withoutCalls, Expr.render, Expr.render, Expr.renderEach_withoutCalls args]
  | .call callee args => by
    rw [Expr.withoutCalls, Expr.render, Expr.render, Expr.renderEach_withoutCalls args]

theorem Expr.renderEach_withoutCalls :
    ∀ args : List Expr, Expr.renderEach (Expr.withoutCallsOfEach args) = Expr.renderEach args
  | [] => rfl
  | arg :: args => by
    rw [Expr.withoutCallsOfEach, Expr.renderEach, Expr.renderEach, Expr.render_withoutCalls arg,
      Expr.renderEach_withoutCalls args]

end

mutual

theorem Stmt.renderAt_withoutCalls :
    ∀ (depth : Nat) (stmt : Stmt), stmt.withoutCalls.renderAt depth = stmt.renderAt depth
  | _, .expr value => value.render_withoutCalls
  | _, .assign targets value => by
    simp only [Stmt.withoutCalls, Stmt.mapParts, Stmt.renderAt, Expr.render_withoutCalls]
  | _, .declare vars none => by
    simp only [Stmt.withoutCalls, Stmt.mapParts, Stmt.renderAt, List.map_id, Option.map_none]
  | _, .declare vars (some value) => by
    simp only [Stmt.withoutCalls, Stmt.mapParts, Stmt.renderAt, List.map_id, Option.map_some,
      Layout.initial, Expr.render_withoutCalls]
  | depth, .define ⟨name, params, returns, body⟩ => by
    have hbody := Block.renderLines_withoutCalls (depth + 1) body
    rw [Block.withoutCalls] at hbody
    simp only [Stmt.withoutCalls, Stmt.mapParts, Stmt.renderAt, List.map_id, hbody]
  | depth, .branch condition body => by
    have hbody := Block.renderLines_withoutCalls (depth + 1) body
    rw [Block.withoutCalls] at hbody
    simp only [Stmt.withoutCalls, Stmt.mapParts, Stmt.renderAt, Expr.render_withoutCalls, hbody]
  | depth, .switch scrutinee cases => by
    have hcases := Case.renderCases_withoutCalls depth cases
    rw [Case.withoutCalls] at hcases
    simp only [Stmt.withoutCalls, Stmt.mapParts, Stmt.renderAt, Expr.render_withoutCalls, hcases]
  | depth, .loop init condition step body => by
    have hinit := Block.renderLines_withoutCalls (depth + 1) init
    have hstep := Block.renderLines_withoutCalls (depth + 1) step
    have hbody := Block.renderLines_withoutCalls (depth + 1) body
    rw [Block.withoutCalls] at hinit hstep hbody
    simp only [Stmt.withoutCalls, Stmt.mapParts, Stmt.renderAt, Expr.render_withoutCalls, hinit,
      hstep, hbody]
  | depth, .block body =>
    congrArg (Layout.braces depth) (Block.renderLines_withoutCalls (depth + 1) body)

theorem Case.renderCases_withoutCalls : ∀ (depth : Nat) (cases : List Case),
    Case.renderCases depth (Case.withoutCalls cases) = Case.renderCases depth cases
  | _, [] => rfl
  | depth, ⟨value, body⟩ :: cases => by
    have hbody := Block.renderLines_withoutCalls (depth + 1) body
    have hcases := Case.renderCases_withoutCalls depth cases
    rw [Block.withoutCalls] at hbody
    rw [Case.withoutCalls] at hcases
    simp only [Case.withoutCalls, Case.mapParts, Case.renderCases, Option.map_id_fun, id_eq, hbody,
      hcases]

theorem Block.renderLines_withoutCalls : ∀ (depth : Nat) (block : Block),
    Block.renderLines depth (Block.withoutCalls block) = Block.renderLines depth block
  | _, [] => rfl
  | depth, stmt :: stmts => by
    have hstmt := Stmt.renderAt_withoutCalls depth stmt
    have hstmts := Block.renderLines_withoutCalls depth stmts
    rw [Stmt.withoutCalls] at hstmt
    rw [Block.withoutCalls] at hstmts
    simp only [Block.withoutCalls, Block.mapParts, Block.renderLines, hstmt, hstmts]

end

/-- Legible blocks have the same text just if they are equal up to exchanging calls with
instructions of the same name and arguments. -/
theorem Block.render_eq_iff_withoutCalls {block block' : Block}
    (h : Block.isLegible block = true) (h' : Block.isLegible block' = true) :
    Block.render block = Block.render block' ↔
      Block.withoutCalls block = Block.withoutCalls block' := by
  constructor
  · intro hrender
    have hspells := Block.spells_render h
    rw [hrender] at hspells
    have hlexemes := hspells.unique (Block.spells_render h')
    obtain ⟨hplain, -⟩ := (Block.determined block h).braced h' (congrArg (· ++ []) hlexemes)
    exact hplain
  · intro hplain
    have hlines := congrArg (Block.renderLines 1) hplain
    rw [Block.renderLines_withoutCalls, Block.renderLines_withoutCalls] at hlines
    exact congrArg (Layout.braces 0) hlines

/-- A module that declares a variable with a type tag, and in which a block stands behind a `switch`
without cases. -/
def declaredWith (value : Expr) : Block :=
  [.declare [⟨"x", "u256"⟩] (some value), .switch (.ident "x") [],
    .block [.assign ["x"] (.literal ⟨.string, "\"x\"", ""⟩)]]

theorem Block.render_eq_iff_withoutCalls_declaredWith :
    Block.isLegible (declaredWith (.call "f" [.ident "y"])) = true ∧
    Block.isLegible (declaredWith (.instr "f" [.ident "y"])) = true ∧
    (Block.render (declaredWith (.call "f" [.ident "y"])) =
        Block.render (declaredWith (.instr "f" [.ident "y"])) ↔
      Block.withoutCalls (declaredWith (.call "f" [.ident "y"])) =
        Block.withoutCalls (declaredWith (.instr "f" [.ident "y"]))) := by
  have hcall : Block.isLegible (declaredWith (.call "f" [.ident "y"])) = true := by decide
  have hinstr : Block.isLegible (declaredWith (.instr "f" [.ident "y"])) = true := by decide
  exact ⟨hcall, hinstr, Block.render_eq_iff_withoutCalls hcall hinstr⟩

end YulInline
