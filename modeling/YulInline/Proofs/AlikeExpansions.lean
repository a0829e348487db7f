import YulInline.Proofs.Lockstep
import YulInline.Proofs.Progress

/-!
# Alike expansions

An expansion is settled by the tree that is expanded and by the bodies that are copied into it,
except for the names that it gives out. So two complete expansions of trees that are alike are alike
as soon as the bodies copied into the one and into the other are alike, function by function
(`Trace.Meets`), and the names that were given out in the same places correspond to each other.
Nothing is said of how the expansions came about: in two runs the bodies may have been visited in
different orders, and the modules may list their functions in different orders.

The proof goes along the likeness of the two trees. What an expansion of a call or of a list of
arguments looks like is read off its tree first (`Expr.Expands.of_kept`, `Expr.Expands.of_expanded`,
`Expr.ExpandsArgs.of_cons`).
-/

namespace YulInline

variable {twins : Twins} {module module' : Block} {caller : String}

/-! ## What an expansion looks like -/

section Inversion

variable {args : List Expr} {hoisted : List Stmt} {e' : Expr} {t : Trace} {callee : FunctionDef}

/-- A call that is not to be expanded stays. -/
theorem Expr.Expands.of_kept (hnodup : module.functionNames.Nodup) (hform : callee.FormIn module)
    (hresult : callee.result? caller = none)
    (h : Expr.Expands module caller (.call callee.name args) hoisted e' t) :
    ∃ args', e' = .call callee.name args' ∧
      Expr.ExpandsArgs module caller (callee.params.map (·.type)) false args hoisted args' t := by
  generalize he : Expr.call callee.name args = e at h
  cases h with
  | @kept other _ args' _ _ hother hresult' hcount hargs =>
    obtain ⟨hname, rfl⟩ := Expr.call.inj he
    rw [hform.eq_of_name hnodup hother hname] at hargs ⊢
    exact ⟨args', rfl, hargs⟩
  | @expanded other result _ _ _ _ _ _ hother hresult' hcount hargs hcopy =>
    obtain ⟨hname, rfl⟩ := Expr.call.inj he
    rw [hform.eq_of_name hnodup hother hname] at hresult'
    have hsome : callee.result? caller = some result := hresult'
    rw [hresult] at hsome
    cases hsome
  | _ => cases he

/-- A call that is to be expanded is expanded. -/
theorem Expr.Expands.of_expanded (hnodup : module.functionNames.Nodup)
    (hform : callee.FormIn module) {result : TypedName}
    (hresult : callee.result? caller = some result)
    (h : Expr.Expands module caller (.call callee.name args) hoisted e' t) :
    ∃ (body copy : Block) (arguments : List String) (holder : String) (front : List Stmt)
      (s : Trace),
      ({ callee with body } : FunctionDef).Copied arguments result.name holder copy ∧
      Expr.ExpandsArgs module caller (callee.params.map (·.type)) true args front
        (arguments.map .ident) s ∧
      hoisted = front ++ [.declare [⟨holder, result.type⟩] none, .block copy] ∧
      e' = .ident holder ∧
      t = s ++ { names := holder :: Block.declared copy,
                 expansions := [⟨caller, { callee with body }, arguments, holder⟩] } := by
  generalize he : Expr.call callee.name args = e at h
  cases h with
  | @kept other _ _ _ _ hother hresult' hcount hargs =>
    obtain ⟨hname, rfl⟩ := Expr.call.inj he
    rw [hform.eq_of_name hnodup hother hname] at hresult'
    have hnone : callee.result? caller = none := hresult'
    rw [hresult] at hnone
    cases hnone
  | @expanded other result' _ arguments front s holder copy hother hresult' hcount hargs hcopy =>
    obtain ⟨hname, rfl⟩ := Expr.call.inj he
    have hsame := hform.eq_of_name hnodup hother hname
    generalize other.body = body at hsame
    subst hsame
    have hsome : callee.result? caller = some result' := hresult'
    obtain rfl : result = result' := Option.some.inj (hresult.symm.trans hsome)
    exact ⟨body, copy, arguments, holder, front, s, hcopy, hargs, rfl, rfl, rfl⟩
  | _ => cases he

/-- An argument `arg` behind the statements `hoisted`: it stays as it is, or it is bound to a
variable. There are the statements that compute it, what remains of it, and the names given out. -/
inductive Expr.Bound (type : String) (toFront : Bool) (hoisted : List Stmt) (arg : Expr) :
    List Stmt → Expr → List String → Prop where
  | stays (h : (hoisted.isEmpty && !toFront || !hoisted.isEmpty && arg.ident?.isSome) = true) :
    Expr.Bound type toFront hoisted arg hoisted arg []
  | moved (h : (hoisted.isEmpty && !toFront || !hoisted.isEmpty && arg.ident?.isSome) = false)
    (name : String) : Expr.Bound type toFront hoisted arg
      (hoisted ++ [.declare [⟨name, type⟩] (some arg)]) (.ident name) [name]

/-- The first argument is expanded and bound, and the others behind it are moved to the front if
anything was hoisted out of it. -/
theorem Expr.ExpandsArgs.of_cons {types : List String} {toFront : Bool} {arg : Expr}
    {rest : List Expr}
    (h : Expr.ExpandsArgs module caller types toFront (arg :: args) hoisted rest t) :
    ∃ (front bound later : List Stmt) (arg₁ arg₂ : Expr) (rest₁ : List Expr) (given : List String)
      (s s' : Trace), Expr.Expands module caller arg front arg₁ s ∧
      Expr.Bound (types.headD "") toFront front arg₁ bound arg₂ given ∧
      Expr.ExpandsArgs module caller types.tail (toFront || !front.isEmpty) args later rest₁ s' ∧
      hoisted = later ++ bound ∧ rest = arg₂ :: rest₁ ∧ t = s ++ { names := given } ++ s' := by
  have hnonempty : ∀ {stmts : List Stmt}, stmts ≠ [] → stmts.isEmpty = false := by
    intro stmts hstmts
    rw [← Bool.not_eq_true, List.isEmpty_iff]
    exact hstmts
  cases h with
  | @stays _ _ arg₁ _ rest₁ _ s s' harg hargs =>
    refine ⟨[], [], hoisted, arg₁, arg₁, rest₁, [], s, s', harg, .stays rfl, hargs,
      (List.append_nil _).symm, rfl, ?_⟩
    exact congrArg (· ++ s') (Trace.append_empty s).symm
  | @holder _ _ _ name _ rest₁ front later s s' harg hfront hargs =>
    refine ⟨front, front, later, .ident name, .ident name, rest₁, [], s, s', harg, .stays ?_, ?_,
      rfl, rfl, ?_⟩
    · rw [hnonempty hfront]
      rfl
    · rw [hnonempty hfront, Bool.not_false, Bool.or_true]
      exact hargs
    · exact congrArg (· ++ s') (Trace.append_empty s).symm
  | @bound _ _ _ arg₁ name _ rest₁ front later s s' harg hmoved hargs =>
    refine ⟨front, _, later, arg₁, .ident name, rest₁, [name], s, s', harg, .moved ?_ name, ?_, rfl,
      rfl, rfl⟩
    · rcases hmoved with ⟨rfl, rfl⟩ | ⟨hhoisted, hident⟩
      · rfl
      · rw [hnonempty hhoisted, hident]
        rfl
    · rcases hmoved with ⟨rfl, rfl⟩ | ⟨hhoisted, -⟩
      · exact hargs
      · rw [hnonempty hhoisted, Bool.not_false, Bool.or_true]
        exact hargs

end Inversion

/-! ## Bodies that are alike -/

/-- The functions of the same name that were expanded in two places are alike. -/
def Trace.Meets (twins : Twins) (t t' : Trace) : Prop :=
  ∀ expansion ∈ t.expansions, ∀ expansion' ∈ t'.expansions,
    expansion'.callee.name = expansion.callee.name →
      expansion.callee.Alike twins expansion'.callee

theorem Trace.Meets.left {s s' t t' : Trace} (h : (s ++ t).Meets twins (s' ++ t')) :
    s.Meets twins s' :=
  fun _ hmem _ hmem' => h _ (List.mem_append_left _ hmem) _ (List.mem_append_left _ hmem')

theorem Trace.Meets.right {s s' t t' : Trace} (h : (s ++ t).Meets twins (s' ++ t')) :
    t.Meets twins t' :=
  fun _ hmem _ hmem' => h _ (List.mem_append_right _ hmem) _ (List.mem_append_right _ hmem')

theorem Expr.AlikeArgs.names_of_idents {arguments arguments' : List String}
    (h : Expr.AlikeArgs twins (arguments.map .ident) (arguments'.map .ident)) :
    twins.Names arguments arguments' := by
  induction arguments generalizing arguments' with
  | nil =>
    cases arguments' with
    | nil => exact .nil
    | cons name' arguments' => cases h
  | cons name arguments ih =>
    cases arguments' with
    | nil => cases h
    | cons name' arguments' =>
      cases h with
      | cons harg hargs =>
        cases harg with
        | ident hname => exact .cons hname (ih hargs)

/-- Copies of the bodies of functions that are alike are alike, if the names that they declare
correspond. -/
theorem FunctionDef.Alike.copied_joins (hfaithful : twins.Faithful) {callee callee' : FunctionDef}
    (h : callee.Alike twins callee') {arguments arguments' : List String}
    (harguments : twins.Names arguments arguments') {result holder holder' : String}
    (hresult : (result, result) ∈ twins) (hholder : (holder, holder') ∈ twins) {copy copy' : Block}
    (hcopy : callee.Copied arguments result holder copy)
    (hcopy' : callee'.Copied arguments' result holder' copy') :
    twins.Joins (Block.declared copy) (Block.declared copy') (Block.Alike twins copy copy') := by
  obtain ⟨hflat, names, rfl⟩ := hcopy
  obtain ⟨-, names', rfl⟩ := hcopy'
  have hrule := h.copyRule harguments hresult hholder
  have hjoins := @Block.Alike.copy_joins _ _ _ hfaithful hrule _ _ h.body hflat ⟨names, []⟩
    ⟨names', []⟩ .nil
  exact hjoins.imp fun hboth => hboth.1

/-- Arguments that are alike are bound alike. -/
theorem Expr.Bound.joins {type : String} {toFront : Bool}
    {hoisted hoisted' bound bound' : List Stmt} {arg arg' rest rest' : Expr}
    {given given' : List String}
    (h : Expr.Bound type toFront hoisted arg bound rest given)
    (h' : Expr.Bound type toFront hoisted' arg' bound' rest' given')
    (hhoisted : Block.Alike twins hoisted hoisted') (harg : Expr.Alike twins arg arg') :
    twins.Joins given given' (Block.Alike twins bound bound' ∧ Expr.Alike twins rest rest') := by
  cases h with
  | stays hstays =>
    cases h' with
    | stays _ => exact .nil ⟨hhoisted, harg⟩
    | moved hmoved _ =>
      rw [hhoisted.isEmpty, harg.ident?_isSome, hstays] at hmoved
      cases hmoved
  | moved hmoved name =>
    cases h' with
    | stays hstays =>
      rw [hhoisted.isEmpty, harg.ident?_isSome, hmoved] at hstays
      cases hstays
    | moved _ name' =>
      refine .cons fun hname => .nil ⟨hhoisted.append ?_, .ident hname⟩
      exact .cons (.declare (.cons ⟨hname, rfl⟩ .nil) harg) .nil

/-! ## Trees that are alike -/

/-- The functions of two modules have the same heads, in whatever order, and names are equal exactly
if their counterparts are. -/
structure Twins.Across (twins : Twins) (module module' : Block) : Prop where
  faithful : twins.Faithful
  nodup : module'.functionNames.Nodup
  forms : ∀ function : FunctionDef, function.FormIn module → function.FormIn module'

mutual

/-- Expressions that are alike expand alike, if the functions that are copied are alike and the
names that are given out correspond. -/
theorem Expr.Alike.expands_joins (hacross : twins.Across module module') {e e' rest rest' : Expr}
    {hoisted hoisted' : List Stmt} {t t' : Trace} : Expr.Alike twins e e' →
      Expr.Expands module caller e hoisted rest t →
      Expr.Expands module' caller e' hoisted' rest' t' → t.Meets twins t' →
      twins.Joins t.names t'.names
        (Block.Alike twins hoisted hoisted' ∧ Expr.Alike twins rest rest')
  | .literal value, h, h', _ => by
    cases h
    cases h'
    exact .nil ⟨.nil, .literal value⟩
  | .ident hname, h, h', _ => by
    cases h
    cases h'
    exact .nil ⟨.nil, .ident hname⟩
  | .instr op halike, h, h', hmeets => by
    cases h with
    | instr _ hargs =>
      cases h' with
      | instr _ hargs' =>
        exact (halike.expands_joins hacross hargs hargs' hmeets).imp fun ⟨hhoisted, hrest⟩ =>
          ⟨hhoisted, .instr op hrest⟩
  | .call hname halike, h, h', hmeets => by
    cases h with
    | kept hform hresult _ hargs =>
      obtain ⟨args', rfl, hargs'⟩ := h'.of_kept hacross.nodup (hacross.forms _ hform) hresult
      exact (halike.expands_joins hacross hargs hargs' hmeets).imp fun ⟨hhoisted, hrest⟩ =>
        ⟨hhoisted, .call hname hrest⟩
    | @expanded callee result _ arguments front s holder copy hform hresult _ hargs hcopy =>
      obtain ⟨body, copy', arguments', holder', front', s', hcopy', hargs', rfl, rfl, rfl⟩ :=
        h'.of_expanded hacross.nodup (hacross.forms _ hform) hresult
      have hcallee : callee.Alike twins { callee with body } :=
        hmeets.right _ (List.mem_singleton_self _) _ (List.mem_singleton_self _) rfl
      have hresultName : (result.name, result.name) ∈ twins := by
        refine hcallee.own.2 result (List.mem_append_right _ ?_)
        rw [(FunctionDef.result?_eq_some.mp hresult).1]
        exact List.mem_singleton_self result
      refine (halike.expands_joins hacross hargs hargs' hmeets.left).bind fun ⟨hfront, hrest⟩ => ?_
      refine .cons fun hholder => ?_
      refine (hcallee.copied_joins hacross.faithful hrest.names_of_idents hresultName hholder hcopy
        hcopy').imp fun hcopies => ⟨hfront.append ?_, .ident hholder⟩
      exact .cons (.empty (.cons ⟨hholder, rfl⟩ .nil)) (.cons (.block hcopies) .nil)

theorem Expr.AlikeArgs.expands_joins (hacross : twins.Across module module') {types : List String}
    {toFront : Bool} {args args' rest rest' : List Expr} {hoisted hoisted' : List Stmt}
    {t t' : Trace} :
    Expr.AlikeArgs twins args args' →
      Expr.ExpandsArgs module caller types toFront args hoisted rest t →
      Expr.ExpandsArgs module' caller types toFront args' hoisted' rest' t' → t.Meets twins t' →
      twins.Joins t.names t'.names
        (Block.Alike twins hoisted hoisted' ∧ Expr.AlikeArgs twins rest rest')
  | .nil, h, h', _ => by
    cases h
    cases h'
    exact .nil ⟨.nil, .nil⟩
  | .cons halikeArg halike, h, h', hmeets => by
    obtain ⟨front, bound, later, arg₁, arg₂, rest₁, given, s₁, s₂, harg, hbound, hargs, rfl, rfl,
      rfl⟩ := h.of_cons
    obtain ⟨front', bound', later', arg₁', arg₂', rest₁', given', s₁', s₂', harg', hbound', hargs',
      rfl, rfl, rfl⟩ := h'.of_cons
    have hfirst : twins.Joins (s₁.names ++ given) (s₁'.names ++ given')
        (Block.Alike twins front front' ∧ Block.Alike twins bound bound' ∧
          Expr.Alike twins arg₂ arg₂') :=
      (halikeArg.expands_joins hacross harg harg' hmeets.left.left).bind fun ⟨hfront, harg₁⟩ =>
        (hbound.joins hbound' hfront harg₁).imp fun hboth => ⟨hfront, hboth⟩
    refine hfirst.bind fun ⟨hfront, hbounds, harg₂⟩ => ?_
    rw [hfront.isEmpty] at hargs'
    refine (halike.expands_joins hacross hargs hargs' hmeets.right).imp fun ⟨hlater, hrest⟩ => ?_
    exact ⟨hlater.append hbounds, .cons harg₂ hrest⟩

end

mutual

/-- Statements that are alike expand alike, if both expansions are complete. -/
theorem Stmt.Alike.expands_joins (hacross : twins.Across module module')
    {stmt stmt' rest rest' : Stmt} {hoisted hoisted' : List Stmt} {t t' : Trace} :
    Stmt.Alike twins stmt stmt' → Stmt.Expands module caller stmt hoisted rest t →
      Stmt.Expands module' caller stmt' hoisted' rest' t' → t.complete = true →
      t'.complete = true → t.Meets twins t' →
      twins.Joins t.names t'.names
        (Block.Alike twins hoisted hoisted' ∧ Stmt.Alike twins rest rest')
  | .expr halike, h, h', hcomplete, hcomplete', hmeets => by
    cases h with
    | untouched => cases hcomplete
    | expr hvalue =>
      cases h' with
      | untouched => cases hcomplete'
      | expr hvalue' =>
        exact (halike.expands_joins hacross hvalue hvalue' hmeets).imp
          fun ⟨hhoisted, hrest⟩ => ⟨hhoisted, .expr hrest⟩
  | .assign htargets halike, h, h', hcomplete, hcomplete', hmeets => by
    cases h with
    | untouched => cases hcomplete
    | assign _ hvalue =>
      cases h' with
      | untouched => cases hcomplete'
      | assign _ hvalue' =>
        exact (halike.expands_joins hacross hvalue hvalue' hmeets).imp
          fun ⟨hhoisted, hrest⟩ => ⟨hhoisted, .assign htargets hrest⟩
  | .empty hvars, h, h', hcomplete, hcomplete', _ => by
    cases h with
    | untouched => cases hcomplete
    | empty =>
      cases h' with
      | untouched => cases hcomplete'
      | empty => exact .nil ⟨.nil, .empty hvars⟩
  | .declare hvars halike, h, h', hcomplete, hcomplete', hmeets => by
    cases h with
    | untouched => cases hcomplete
    | declare _ hvalue =>
      cases h' with
      | untouched => cases hcomplete'
      | declare _ hvalue' =>
        exact (halike.expands_joins hacross hvalue hvalue' hmeets).imp
          fun ⟨hhoisted, hrest⟩ => ⟨hhoisted, .declare hvars hrest⟩
  | .define _ _, h, _, hcomplete, _, _ => by
    cases h with
    | untouched => cases hcomplete
  | .branch halike halikeBody, h, h', hcomplete, hcomplete', hmeets => by
    cases h with
    | untouched => cases hcomplete
    | branch hcondition hbody =>
      cases h' with
      | untouched => cases hcomplete'
      | branch hcondition' hbody' =>
        rw [Trace.complete_append] at hcomplete hcomplete'
        refine (halike.expands_joins hacross hcondition hcondition'
          hmeets.left).bind fun ⟨hhoisted, hrest⟩ => ?_
        refine (halikeBody.expands_joins hacross hbody hbody' hcomplete.2 hcomplete'.2
          hmeets.right).imp fun hbodies => ?_
        exact ⟨hhoisted, .branch hrest hbodies⟩
  | .switch halike halikeCases, h, h', hcomplete, hcomplete', hmeets => by
    cases h with
    | untouched => cases hcomplete
    | switch hscrutinee hcases =>
      cases h' with
      | untouched => cases hcomplete'
      | switch hscrutinee' hcases' =>
        rw [Trace.complete_append] at hcomplete hcomplete'
        refine (halike.expands_joins hacross hscrutinee hscrutinee'
          hmeets.left).bind fun ⟨hhoisted, hrest⟩ => ?_
        refine (halikeCases.expands_joins hacross hcases hcases' hcomplete.2 hcomplete'.2
          hmeets.right).imp fun hrests => ?_
        exact ⟨hhoisted, .switch hrest hrests⟩
  | .loop halikeInit hcondition halikeStep halikeBody, h, h', hcomplete, hcomplete', hmeets => by
    cases h with
    | untouched => cases hcomplete
    | loop _ hinit hstep hbody =>
      cases h' with
      | untouched => cases hcomplete'
      | loop _ hinit' hstep' hbody' =>
        simp only [Trace.complete_append] at hcomplete hcomplete'
        simp only [Trace.names_append, List.append_assoc]
        obtain ⟨⟨hcomplete₁, hcomplete₂⟩, hcomplete₃⟩ := hcomplete
        obtain ⟨⟨hcomplete₁', hcomplete₂'⟩, hcomplete₃'⟩ := hcomplete'
        refine (halikeInit.expands_joins hacross hinit hinit' hcomplete₁ hcomplete₁'
          hmeets.left.left).bind fun hinits => ?_
        refine (halikeStep.expands_joins hacross hstep hstep' hcomplete₂ hcomplete₂'
          hmeets.left.right).bind fun hsteps => ?_
        refine (halikeBody.expands_joins hacross hbody hbody' hcomplete₃ hcomplete₃'
          hmeets.right).imp fun hbodies => ?_
        exact ⟨.nil, .loop hinits hcondition hsteps hbodies⟩
  | .block halike, h, h', hcomplete, hcomplete', hmeets => by
    cases h with
    | untouched => cases hcomplete
    | block hbody =>
      cases h' with
      | untouched => cases hcomplete'
      | block hbody' =>
        exact (halike.expands_joins hacross hbody hbody' hcomplete hcomplete' hmeets).imp
          fun hbodies => ⟨.nil, .block hbodies⟩

theorem Case.Alike.expands_joins (hacross : twins.Across module module')
    {cases cases' rest rest' : List Case} {t t' : Trace} :
    Case.Alike twins cases cases' → Case.Expands module caller cases rest t →
      Case.Expands module' caller cases' rest' t' → t.complete = true → t'.complete = true →
      t.Meets twins t' → twins.Joins t.names t'.names (Case.Alike twins rest rest')
  | .nil, h, h', _, _, _ => by
    cases h
    cases h'
    exact .nil .nil
  | .cons value halikeBody halike, h, h', hcomplete, hcomplete', hmeets => by
    cases h with
    | cons _ hbody hcases =>
      cases h' with
      | cons _ hbody' hcases' =>
        rw [Trace.complete_append] at hcomplete hcomplete'
        refine (halikeBody.expands_joins hacross hbody hbody' hcomplete.1 hcomplete'.1
          hmeets.left).bind fun hbodies => ?_
        refine (halike.expands_joins hacross hcases hcases' hcomplete.2 hcomplete'.2
          hmeets.right).imp fun hrests => ?_
        exact .cons value hbodies hrests

theorem Block.Alike.expands_joins (hacross : twins.Across module module')
    {block block' rest rest' : Block} {t t' : Trace} :
    Block.Alike twins block block' → Block.Expands module caller block rest t →
      Block.Expands module' caller block' rest' t' → t.complete = true → t'.complete = true →
      t.Meets twins t' → twins.Joins t.names t'.names (Block.Alike twins rest rest')
  | .nil, h, h', _, _, _ => by
    cases h
    cases h'
    exact .nil .nil
  | .cons halikeStmt halike, h, h', hcomplete, hcomplete', hmeets => by
    cases h with
    | hold _ _ => simp [Trace.onHold] at hcomplete
    | cons hstmt hstmts =>
      cases h' with
      | hold _ _ => simp [Trace.onHold] at hcomplete'
      | cons hstmt' hstmts' =>
        rw [Trace.complete_append] at hcomplete hcomplete'
        refine (halikeStmt.expands_joins hacross hstmt hstmt' hcomplete.1 hcomplete'.1
          hmeets.left).bind fun ⟨hhoisted, hrest⟩ => ?_
        refine (halike.expands_joins hacross hstmts hstmts' hcomplete.2 hcomplete'.2
          hmeets.right).imp fun hrests => ?_
        exact hhoisted.append (.cons hrest hrests)

end

/-- So do functions and top-level blocks that are alike. -/
theorem Stmt.Alike.rootExpands_joins (hacross : twins.Across module module')
    {stmt stmt' rest rest' : Stmt} {t t' : Trace} (halike : Stmt.Alike twins stmt stmt')
    (h : stmt.RootExpands module rest t) (h' : stmt'.RootExpands module' rest' t')
    (hcomplete : t.complete = true) (hcomplete' : t'.complete = true)
    (hmeets : t.Meets twins t') :
    twins.Joins t.names t'.names (Stmt.Alike twins rest rest') := by
  cases h with
  | block hbody =>
    cases halike with
    | block halikeBody =>
      cases h' with
      | block hbody' =>
        exact (halikeBody.expands_joins hacross hbody hbody' hcomplete hcomplete' hmeets).imp .block
      | other hnone => cases hnone
  | @define function body _ hbody =>
    cases halike with
    | define hown halikeBody =>
      cases h' with
      | define hbody' =>
        have hown' : FunctionDef.OwnTwins twins { function with body } := hown
        exact (halikeBody.expands_joins hacross hbody hbody' hcomplete hcomplete' hmeets).imp
          fun hbodies => .define hown' hbodies
      | other hnone => cases hnone
  | other hnone =>
    cases h' with
    | other _ => exact .nil halike
    | block _ =>
      cases halike
      cases hnone
    | define _ =>
      cases halike
      cases hnone

end YulInline
