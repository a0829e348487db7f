import YulInline.Proofs.DirectRuns
import YulInline.Proofs.PrivateVariables

/-!
# In every run copies have their variables to themselves

The traversal of a module notes nothing but instantiations that are private. What carries this is
the expansion of the arguments of a call (`Expr.achieves_expandArgs`): if they are moved to the
front, they become variables that the call owns. The variable of an argument is not in the module
when the argument has been expanded, and the arguments to its right cannot put it there, since they
draw on the names in them only. An argument that is a call itself leaves the variable for its
result, which its own call owns (`Expr.achieves_expand`), and the outer call takes over.

Everything around expressions draws on the names of the body that is being expanded, which is put in
place on the way: the context of a statement adds to the names of the statement only such as were
there (`PlugDraws`).
-/

namespace YulInline

open ObserveM

/-! ## A call -/

section Calls

variable {observed : Observed} {start : Inliner} {aside : Aside} {sources known : List String}
variable {hoisted : List Stmt}

/-- An argument is bound to a variable of the call's own if it is moved to the front. -/
theorem achieves_bindArgument (h : observed.Private) {arg : Expr} (hready : start.Ready known)
    (hsources : sources ⊆ known)
    (hdraws : start.Draws sources observed.toInliner (Block.names hoisted ++ arg.names))
    (howns : ∀ var, arg = .ident var → hoisted ≠ [] →
      start.Owns observed.toInliner hoisted [var])
    (hint type : String) (toFront : Bool) :
    (InlineM.bindArgument hint type toFront hoisted arg).observed.Achieves observed fun r after =>
      after.Private ∧
      start.Draws sources after.toInliner (Block.names r.1 ++ r.2.names) ∧
      (toFront = true → ∃ var, r.2 = .ident var ∧ start.Owns after.toInliner r.1 [var]) := by
  rw [InlineM.bindArgument]
  split
  next hstays =>
    refine ⟨h, hdraws, fun htoFront => ?_⟩
    have hident : hoisted ≠ [] ∧ arg.ident?.isSome = true := by
      simpa [htoFront] using hstays
    cases arg with
    | ident var => exact ⟨var, rfl, howns var rfl hident.1⟩
    | _ => exact absurd hident.2 (by simp [Expr.ident?])
  next =>
    have hready' := hready.kept hdraws hsources
    refine ⟨⟨h.noted, h.all⟩, ?_, fun _ => ⟨_, rfl, ?_⟩⟩
    · refine hdraws.trans ((Inliner.Draws.fresh observed.toInliner _ hint).mono
        (List.Subset.refl _) ?_)
      simp only [Block.names_append, Block.names_cons, Block.names_nil, Stmt.names, Expr.namesOfValue,
        Expr.names, List.map_cons, List.map_nil, NameSupply.fresh]
      grind
    · refine .earlier hdraws (.fresh observed.toInliner hint hready'.of_mem_module ?_)
      simp [Stmt.declares, NameSupply.fresh]

/-- What is noted of a call whose arguments are variables of its own is private. -/
theorem Inliner.Owns.instantiation_private {arguments : List String} {now : Inliner}
    {callee : FunctionDef} {caller : String} {result : TypedName} {holder : String}
    {yield : List String}
    (howns : start.Owns now hoisted (arguments ++ [holder])) (hready : start.Ready known)
    (haside : aside.names ⊆ known) (hdraws : start.Draws sources now yield)
    (hinterface : callee.interface.Nodup) (hreturns : callee.returns = [result])
    (hlength : arguments.length = callee.params.length) :
    Instantiation.Private ⟨start, now, aside, hoisted, callee.copyRule arguments result.name holder,
      ⟨caller, callee, arguments, holder⟩⟩ := by
  obtain ⟨given, hgiven, -⟩ := hdraws.names
  refine ⟨FunctionDef.lookup_copyRule hinterface hreturns hlength, howns.nodup,
    ⟨given, hgiven, fun var hvar => ?_⟩, howns.declared, howns.absent,
    howns.not_mem fun name hname => hready.of_mem name (haside hname)⟩
  refine ((hgiven.used var).mp (howns.used var hvar)).resolve_right fun hused => ?_
  have hfree := howns.free var hvar
  rw [hused] at hfree
  cases hfree

/-- A body is copied to a call that has been noted, and the expansion is logged. -/
theorem achieves_instantiation (h : observed.Private) {i : Instantiation} (hi : i.Private)
    {block : Block} {β : Type} {next : Block → ObserveM β} {post : β → Observed → Prop}
    (hnext : ∀ copy after, after.Private → after.module = observed.module →
      (∀ sources, Block.names block ⊆ Block.names observed.module ++ sources →
        i.rule.substitution.map Prod.snd ⊆ sources →
        observed.toInliner.Draws sources after.toInliner (Block.names copy)) →
      (next copy).Achieves after post) :
    (do
      let copy ← (InlineM.copyBlock i.rule block).observed
      InlineM.observed <| modify fun inliner =>
        { inliner with expansions := i.expansion :: inliner.expansions }
      next copy : ObserveM β).Achieves
      { observed with instantiations := i :: observed.instantiations } post := by
  have hall : ∀ j ∈ i :: observed.instantiations, j.Private := List.forall_mem_cons.mpr ⟨hi, h.all⟩
  refine (achieves_copyBlock ⟨h.noted.cons _, hall⟩ _ _).bind ?_
  rintro copy _ ⟨⟨names, rfl⟩, hcopy⟩
  refine Achieves.step rfl (hnext copy _ ⟨h.noted.cons_cons _, hall⟩ rfl fun sources hblock hrule => ?_)
  refine (hcopy sources hblock hrule).trans (.of_eq rfl rfl ?_)
  exact List.subset_append_right _ _

/-- A call whose arguments are variables of its own is expanded: what is noted is private, and so is
the variable for the result. -/
theorem achieves_expandCall (h : observed.Private) (site : Site) {callee : FunctionDef}
    {result : TypedName} {arguments : List String} (hready : start.Ready known)
    (haside : aside.names ⊆ known) (hsources : sources ⊆ known)
    (hdraws : start.Draws sources observed.toInliner (Block.names hoisted ++ arguments))
    (hcallee : ∀ callee', observed.toInliner.function? callee.name = some callee' →
      callee' = { callee with body := callee'.body })
    (hreturns : callee.returns = [result]) (hlength : arguments.length = callee.params.length)
    (howns : start.Owns observed.toInliner hoisted arguments) :
    (InlineM.expandCallObserved site start aside hoisted callee result
      (arguments.map .ident)).Achieves observed fun r after =>
        after.Private ∧
        start.Draws sources after.toInliner (Block.names (hoisted ++ r.1) ++ [r.2]) ∧
        start.Owns after.toInliner (hoisted ++ r.1) [r.2] := by
  rw [InlineM.expandCallObserved, Visit.argumentNames_idents]
  refine Achieves.step rfl ?_
  refine (achieves_freshName (hready.kept hdraws hsources) _).bind ?_
  rintro holder _ ⟨⟨names, rfl⟩, hfresh, hholder⟩
  set now : Inliner := { observed.toInliner with names }
  set declaration : Stmt := .declare [⟨holder, result.type⟩] none with hdeclaration
  have hdrawn : start.Draws sources now (Block.names hoisted ++ arguments ++ [holder]) := by
    refine hdraws.trans ((hfresh _).mono (List.Subset.refl _) ?_)
    rw [List.append_assoc]
    grind
  have howns' : start.Owns now (hoisted ++ [declaration]) (arguments ++ [holder]) := by
    refine howns.append (hholder [declaration] ?_) hdraws (hfresh []) (by simp) ?_
    · simp [hdeclaration, Stmt.declares]
    · rw [Block.declares_append]
      exact List.Subset.refl _
  have hpresent : Observed.Private { observed with names } := ⟨h.noted, h.all⟩
  -- The function that is copied may have another body by now than when the call was checked.
  refine (achieves_function hpresent callee.name).bind ?_
  rintro callee' _ ⟨rfl, hfound⟩
  have hsame := hcallee callee' hfound
  have hmem : callee' ∈ Block.functions now.module := List.mem_of_find?_eq_some hfound
  have hi : Instantiation.Private ⟨start, now, aside, hoisted ++ [declaration],
      callee'.copyRule arguments result.name holder, ⟨site.caller, callee', arguments, holder⟩⟩ := by
    refine howns'.instantiation_private hready haside hdrawn
      ((hready.kept hdrawn hsources).distinct callee' hmem) ?_ ?_
    · rw [hsame]
      exact hreturns
    · rw [hsame]
      exact hlength
  refine Achieves.note (achieves_instantiation hpresent hi fun copy after hafter hmodule hcopy => ?_)
  have hcopied := hcopy (sources ++ (Block.names hoisted ++ arguments ++ [holder]))
    (List.subset_append_of_subset_left _ (Block.names_body_subset hmem)) (by
      have hvalues := callee'.values_copyRule_subset arguments result.name holder
      grind)
  refine ⟨hafter, hdrawn.trans (hcopied.mono (List.Subset.refl _) ?_), ?_⟩
  · simp only [hdeclaration, Block.names_append, Block.names_cons, Block.names_nil, Stmt.names,
      Expr.namesOfValue, List.map_cons, List.map_nil]
    grind
  -- The copy draws on the variables, so that `Owns.later` does not apply; but it leaves the module alone.
  · have hown := (hholder (hoisted ++ [declaration, .block copy]) ?_).earlier hdraws
    · exact ⟨hown.nodup, hown.free, fun var hvar => hcopied.isUsed (hown.used var hvar),
        hown.declared, hmodule ▸ hown.absent⟩
    · simp [hdeclaration, Stmt.declares]

end Calls

/-! ## Expressions -/

theorem Aside.names_add_subset (aside : Aside) (hoisted : List Stmt) (rests : List Expr) :
    (aside.add hoisted rests).names ⊆
      aside.names ++ (Block.names hoisted ++ Expr.namesOfArgs rests) := by
  rw [names, names, add, Block.names_append, Expr.namesOfArgs_append]
  grind

section Expressions

variable {site : ObservedSite}

mutual

/-- What is noted while an expression is expanded is private, and the variable that remains of a
call is one of its own. -/
theorem Expr.achieves_expand (hsite : site.Steady) : ∀ (e : Expr) (aside : Aside) {observed : Observed},
    observed.Private → observed.toInliner.Ready (aside.names ++ e.names) →
    (e.expandObserved site aside).Achieves observed fun r after =>
      after.Private ∧
      observed.toInliner.Draws e.names after.toInliner (Block.names r.1 ++ r.2.names) ∧
      ∀ var, r.2 = .ident var → r.1 ≠ [] →
        observed.toInliner.Owns after.toInliner r.1 [var]
  | .literal value, aside, observed, h, hready => by
    rw [Expr.expandObserved]
    exact ⟨h, .refl _ (by simp [Expr.names]), fun _ hvar => by cases hvar⟩
  | .ident name, aside, observed, h, hready => by
    rw [Expr.expandObserved]
    exact ⟨h, .refl _ (by simp), fun _ _ hhoisted => absurd rfl hhoisted⟩
  | .instr op args, aside, observed, h, hready => by
    rw [Expr.names] at hready
    rw [Expr.expandObserved]
    refine (Expr.achieves_expandArgs hsite args aside [] [] false h hready).bind ?_
    rintro ⟨hoisted, args'⟩ after ⟨hafter, hdraws, -⟩
    exact ⟨hafter, hdraws, fun _ hvar => by cases hvar⟩
  | .call name args, aside, observed, h, hready => by
    rw [Expr.names] at hready
    rw [Expr.expandObserved]
    refine Achieves.look ?_
    refine (hsite aside name observed h (hready.mono (by simp))).bind ?_
    rintro _ demanded ⟨hdemanded, hdemand⟩
    refine (achieves_function hdemanded name).bind ?_
    rintro callee _ ⟨rfl, hfound⟩
    refine (achieves_checkArity hdemanded callee args.length).bind ?_
    rintro - _ ⟨rfl, hcount⟩
    refine (Expr.achieves_expandArgs hsite args aside _ _ _ hdemanded
      (hready.drawn hdemand (List.nil_subset _) ?_)).bind ?_
    · grind
    rintro ⟨hoisted, args'⟩ after ⟨hafter, hargs, hfront⟩
    have hdrawn : observed.toInliner.Draws (Expr.namesOfArgs args) after.toInliner
        (Block.names hoisted ++ Expr.namesOfArgs args') :=
      (hdemand.mono (List.nil_subset _) (List.nil_subset _)).trans
        (hargs.mono (List.subset_append_left _ _) (List.subset_append_right _ _))
    cases hresult : callee.result? site.caller with
    | none =>
      refine ⟨hafter, hdrawn.mono ?_ ?_, fun _ hvar => by cases hvar⟩
      · rw [Expr.names]
        exact List.subset_cons_self _ _
      · rw [Expr.names, Expr.names]
        grind
    | some result =>
      obtain ⟨hreturns, -⟩ := FunctionDef.result?_eq_some.mp hresult
      rw [hresult] at hfront
      obtain ⟨vars, rfl, hlength, howns⟩ := hfront rfl
      rw [Expr.namesOfArgs_idents] at hdrawn
      have hname : callee.name = name := by simpa using List.find?_some hfound
      refine (achieves_expandCall hafter site.toSite hready (List.subset_append_left _ _) ?_ hdrawn ?_
        hreturns (hlength.trans hcount) (howns.earlier hdemand)).bind ?_
      · grind
      · exact fun callee' hfound' => hargs.function? (hname ▸ hfound) hfound'
      · rintro ⟨expansion, holder⟩ last ⟨hlast, hcall, hholder⟩
        refine ⟨hlast, hcall.mono ?_ ?_, ?_⟩
        · rw [Expr.names]
          exact List.subset_cons_self _ _
        · rw [Expr.names]
          exact List.subset_append_right _ _
        · rintro _ hvar -
          cases hvar
          exact hholder

/-- What is noted while arguments are expanded is private, and if they are moved to the front they
become variables of the call's own. -/
theorem Expr.achieves_expandArgs (hsite : site.Steady) : ∀ (args : List Expr) (aside : Aside)
    (hints types : List String) (toFront : Bool) {observed : Observed}, observed.Private →
    observed.toInliner.Ready (aside.names ++ Expr.namesOfArgs args) →
    (Expr.expandArgsObserved site aside hints types toFront args).Achieves observed fun r after =>
      after.Private ∧
      observed.toInliner.Draws (Expr.namesOfArgs args) after.toInliner
        (Block.names r.1 ++ Expr.namesOfArgs r.2) ∧
      (toFront = true → ∃ vars : List String, r.2 = vars.map .ident ∧ vars.length = args.length ∧
        observed.toInliner.Owns after.toInliner r.1 vars)
  | [], aside, hints, types, toFront, observed, h, hready => by
    rw [Expr.expandArgsObserved]
    exact ⟨h, .refl _ (by simp [Expr.namesOfArgs]), fun _ => ⟨[], rfl, rfl, .nil _ _ _⟩⟩
  | arg :: args, aside, hints, types, toFront, observed, h, hready => by
    rw [Expr.namesOfArgs] at hready ⊢
    rw [Expr.expandArgsObserved]
    refine (Expr.achieves_expand hsite arg aside h (hready.mono (by grind))).bind ?_
    rintro ⟨hoisted, arg'⟩ expanded ⟨hexpanded, hdraws, howns⟩
    refine (achieves_bindArgument hexpanded hready (by grind) hdraws howns _ _ toFront).bind ?_
    rintro ⟨bound, arg''⟩ moved ⟨hmoved, hdrawn, hident⟩
    refine (Expr.achieves_expandArgs hsite args _ _ _ _ hmoved (hready.drawn hdrawn ?_ ?_)).bind ?_
    · grind
    · have hadd := aside.names_add_subset bound [arg'']
      rw [Expr.namesOfArgs, Expr.namesOfArgs, List.append_nil] at hadd
      grind
    rintro ⟨later, args'⟩ after ⟨hafter, hargs, hfront⟩
    refine ⟨hafter, ?_, fun htoFront => ?_⟩
    · refine (hdrawn.mono (List.subset_append_left _ _) (List.subset_append_right _ _)).trans
        (hargs.mono ?_ ?_)
      · grind
      · rw [Block.names_append, Expr.namesOfArgs]
        grind
    -- The arguments to the right draw on the names in them, which were in use before this one's variable.
    · obtain ⟨var, rfl, hvar⟩ := hident htoFront
      obtain ⟨vars, rfl, hlength, hvars⟩ := hfront (by rw [htoFront, Bool.true_or])
      refine ⟨var :: vars, rfl, congrArg _ hlength, hvar.append hvars hdrawn hargs ?_ ?_⟩
      · exact fun other hother => hready.of_mem other (by grind)
      · rw [Block.declares_append]
        grind

end

/-- The expansion of an expression draws on the names in it. -/
theorem Expr.steady_expand (hsite : site.Steady) {sources : List String} (e : Expr) (aside : Aside)
    (he : e.names ⊆ sources) :
    (e.expandObserved site aside).Steady aside.names sources fun r => Block.names r.1 ++ r.2.names := by
  intro observed hprivate hready
  refine (e.achieves_expand hsite aside hprivate (hready.mono ?_)).mono ?_
  · exact List.append_subset.mpr
      ⟨List.subset_append_left _ _, List.subset_append_of_subset_right _ he⟩
  · exact fun r after ⟨hafter, hdraws, _⟩ =>
      ⟨hafter, hdraws.mono he (List.subset_append_right _ _)⟩

end Expressions

/-! ## Statements -/

section Statements

variable {site : ObservedSite} {sources : List String}

/-- Statements that were drawn can be set aside. -/
theorem ObserveM.Steady.aside {α : Type} {action : ObserveM α} {aside : Aside} {hoisted : List Stmt}
    {yield : α → List String} (h : action.Steady (aside.add hoisted []).names sources yield)
    (hhoisted : Block.names hoisted ⊆ sources) : action.Steady aside.names sources yield := by
  refine h.mono (List.Subset.trans (aside.names_add_subset hoisted []) ?_) (List.Subset.refl _)
    fun a => List.subset_append_right _ _
  rw [Expr.namesOfArgs, List.append_nil]
  grind

/-- The context `plug` adds nothing but `sources` to the names of what is put into it. -/
def PlugDraws {α : Type} (sources : List String) (names : α → List String) (plug : α → Block) : Prop :=
  ∀ a, Block.names (plug a) ⊆ sources ++ names a

namespace PlugDraws

variable {α β : Type} {sources' : List String} {names : α → List String} {plug : α → Block}

/-- A context inside a context. -/
theorem inside {names' : β → List String} (h : PlugDraws sources names plug) (inner : β → α)
    (hsources : sources ⊆ sources') (hinner : ∀ b, names (inner b) ⊆ sources' ++ names' b) :
    PlugDraws sources' names' fun b => plug (inner b) := by
  intro b
  have hbody := h (inner b)
  have hpart := hinner b
  grind

theorem publish (h : PlugDraws sources names plug) (site : Site) {known : List String} {a : α}
    (hsources : sources ⊆ sources') (ha : names a ⊆ sources') :
    (site.publish (plug a)).observed.Steady known sources' fun _ => [] :=
  steady_publish site <| List.Subset.trans (h a) (List.append_subset.mpr ⟨hsources, ha⟩)

end PlugDraws

/-- The expansion of a statement in which nothing but an expression is expanded. -/
theorem Stmt.steady_value (hsite : site.Steady) {value : Expr} (aside : Aside) {plug : Stmt → Block}
    (make : Expr → Stmt) (hvalue : value.names ⊆ sources)
    (hmake : ∀ value, (make value).names ⊆ sources ++ value.names)
    (hplug : PlugDraws sources Stmt.names plug) :
    ObserveM.Steady (do
        let (hoisted, value) ← value.expandObserved site aside
        (site.publish (plug (make value))).observed
        return (hoisted, make value))
      aside.names sources fun r => Block.names r.1 ++ r.2.names := by
  refine (value.steady_expand hsite aside hvalue).bind fun ⟨hoisted, value'⟩ => ?_
  have hstmt := hmake value'
  refine (hplug.publish site.toSite (List.subset_append_left _ _) ?_).bind fun _ => .pure ?_
  · grind
  · grind

mutual

/-- The expansion of a statement draws on the names of the body that it stands in. -/
theorem Stmt.steady_expand (hsite : site.Steady) {sources : List String} : ∀ (stmt : Stmt)
    (aside : Aside) (plug : Stmt → Block), stmt.names ⊆ sources → PlugDraws sources Stmt.names plug →
    (stmt.expandObserved site aside plug).Steady aside.names sources
      fun r => Block.names r.1 ++ r.2.names
  | .expr value, aside, plug, hstmt, hplug => by
    rw [Stmt.names] at hstmt
    rw [Stmt.expandObserved]
    refine Stmt.steady_value hsite aside .expr hstmt (fun value => ?_) hplug
    rw [Stmt.names]
    exact List.subset_append_right _ _
  | .assign targets value, aside, plug, hstmt, hplug => by
    rw [Stmt.names, List.append_subset] at hstmt
    rw [Stmt.expandObserved]
    refine Stmt.steady_value hsite aside (.assign targets) hstmt.2 (fun value => ?_) hplug
    rw [Stmt.names]
    grind
  | .declare vars none, aside, plug, hstmt, hplug => by
    rw [Stmt.expandObserved]
    exact .pure (by simpa using hstmt)
  | .declare vars (some value), aside, plug, hstmt, hplug => by
    rw [Stmt.names, List.append_subset] at hstmt
    rw [Stmt.expandObserved]
    refine Stmt.steady_value hsite aside (fun value => .declare vars (some value)) hstmt.2
      (fun value => ?_) hplug
    rw [Stmt.names, Expr.namesOfValue]
    grind
  | .define function, aside, plug, hstmt, hplug => by
    rw [Stmt.expandObserved]
    exact .throw _
  | .branch condition body, aside, plug, hstmt, hplug => by
    rw [Stmt.names, List.append_subset] at hstmt
    rw [Stmt.expandObserved]
    refine (condition.steady_expand hsite aside hstmt.1).bind fun ⟨hoisted, condition'⟩ => ?_
    refine (hplug.publish site.toSite (List.subset_append_left _ _) ?_).bind fun _ => ?_
    · rw [Stmt.names]
      grind
    refine Steady.bind ((Block.steady_expand hsite body _ _ ?_
      (hplug.inside (fun body => .branch condition' body) ?_ fun body' => ?_)).aside ?_)
      fun body' => .pure ?_
    · grind
    · grind
    · rw [Stmt.names]
      grind
    · grind
    · rw [Stmt.names]
      grind
  | .switch scrutinee cases, aside, plug, hstmt, hplug => by
    rw [Stmt.names, List.append_subset] at hstmt
    rw [Stmt.expandObserved]
    refine (scrutinee.steady_expand hsite aside hstmt.1).bind fun ⟨hoisted, scrutinee'⟩ => ?_
    refine (hplug.publish site.toSite (List.subset_append_left _ _) ?_).bind fun _ => ?_
    · rw [Stmt.names]
      grind
    refine Steady.bind ((Case.steady_expand hsite cases _ _ ?_
      (hplug.inside (fun cases => .switch scrutinee' cases) ?_ fun cases' => ?_)).aside ?_)
      fun cases' => .pure ?_
    · grind
    · grind
    · rw [Stmt.names]
      grind
    · grind
    · rw [Stmt.names]
      grind
  | .loop init condition step body, aside, plug, hstmt, hplug => by
    simp only [Stmt.names, List.append_subset] at hstmt
    obtain ⟨⟨⟨hinit, hcondition⟩, hstep⟩, hbody⟩ := hstmt
    rw [Stmt.expandObserved]
    refine (Block.steady_expand hsite init aside _ hinit
      (hplug.inside (fun init => .loop init condition step body) (List.Subset.refl _)
        fun init' => ?_)).bind fun init' => ?_
    · rw [Stmt.names]
      grind
    refine (Block.steady_expand hsite step aside _ ?_
      (hplug.inside (fun step => .loop init' condition step body) (List.subset_append_left _ _)
        fun step' => ?_)).bind fun step' => ?_
    · grind
    · rw [Stmt.names]
      grind
    refine (Block.steady_expand hsite body aside _ ?_
      (hplug.inside (fun body => .loop init' condition step' body) ?_ fun body' => ?_)).bind
      fun body' => .pure ?_
    · grind
    · grind
    · rw [Stmt.names]
      grind
    · rw [Stmt.names, Block.names_nil]
      grind
  | .block body, aside, plug, hstmt, hplug => by
    rw [Stmt.names] at hstmt
    rw [Stmt.expandObserved]
    refine (Block.steady_expand hsite body aside _ hstmt
      (hplug.inside .block (List.Subset.refl _) fun body' => ?_)).bind fun body' => .pure ?_
    · rw [Stmt.names]
      exact List.subset_append_right _ _
    · rw [Stmt.names]
      exact List.subset_append_right _ _

theorem Case.steady_expand (hsite : site.Steady) {sources : List String} : ∀ (cases : List Case)
    (aside : Aside) (plug : List Case → Block), Case.namesOfCases cases ⊆ sources →
    PlugDraws sources Case.namesOfCases plug →
    (Case.expandCasesObserved site aside plug cases).Steady aside.names sources Case.namesOfCases
  | [], aside, plug, hcases, hplug => by
    rw [Case.expandCasesObserved]
    exact .pure hcases
  | ⟨value, body⟩ :: cases, aside, plug, hcases, hplug => by
    rw [Case.namesOfCases, List.append_subset] at hcases
    rw [Case.expandCasesObserved]
    refine (Block.steady_expand hsite body aside _ hcases.1
      (hplug.inside (fun body => ⟨value, body⟩ :: cases) (List.Subset.refl _) fun body' => ?_)).bind
      fun body' => ?_
    · rw [Case.namesOfCases]
      grind
    refine (Case.steady_expand hsite cases aside _ ?_
      (hplug.inside (fun cases => ⟨value, body'⟩ :: cases) (List.subset_append_left _ _)
        fun cases' => ?_)).bind fun cases' => .pure ?_
    · grind
    · rw [Case.namesOfCases]
      grind
    · rw [Case.namesOfCases]
      grind

theorem Block.steady_expand (hsite : site.Steady) {sources : List String} : ∀ (block : Block)
    (aside : Aside) (plug : Block → Block), Block.names block ⊆ sources →
    PlugDraws sources Block.names plug →
    (Block.expandObserved site aside plug block).Steady aside.names sources Block.names
  | [], aside, plug, hblock, hplug => by
    rw [Block.expandObserved]
    exact .pure hblock
  | stmt :: stmts, aside, plug, hblock, hplug => by
    rw [Block.names_cons, List.append_subset] at hblock
    rw [Block.expandObserved]
    refine (Stmt.steady_expand hsite stmt aside _ hblock.1
      (hplug.inside (fun stmt => stmt :: stmts) (List.Subset.refl _) fun stmt' => ?_)).bind
      fun ⟨hoisted, stmt'⟩ => ?_
    · rw [Block.names_cons]
      grind
    refine (hplug.publish site.toSite (List.subset_append_left _ _) ?_).bind fun _ => ?_
    · rw [Block.names_append, Block.names_cons]
      grind
    refine (Block.steady_expand hsite stmts aside _ ?_
      (hplug.inside (fun stmts => hoisted ++ stmt' :: stmts) ?_ fun stmts' => ?_)).bind
      fun stmts' => .pure ?_
    · grind
    · grind
    · rw [Block.names_append, Block.names_cons]
      grind
    · rw [Block.names_append, Block.names_cons]
      grind

end

end Statements

/-! ## Modules -/

namespace InlineM

/-- The expansion of a body draws on the names in it. -/
theorem expandBodyObserved_steady (site : ObservedSite) (hsite : site.Steady) (aside : Aside)
    (body : Block) :
    (expandBodyObserved site aside body).Steady aside.names (Block.names body) fun _ => [] := by
  rw [expandBodyObserved]
  exact (Block.steady_expand hsite body aside id (List.Subset.refl _) fun body' =>
    List.subset_append_right _ _).bind fun _ => .pure (List.nil_subset _)

/-- A function draws on the module only, where its body is found. -/
theorem function_steady (name : String) (known : List String) :
    (function name).observed.Steady known [] fun function => Block.names function.body := by
  intro observed hprivate _
  refine (achieves_function hprivate name).mono ?_
  rintro function _ ⟨rfl, hfound⟩
  refine ⟨hprivate, rfl, [], Dispensed.refl _, ?_⟩
  have hbody := Block.names_body_subset (List.mem_of_find?_eq_some hfound)
  grind

/-- A demand draws on the module only: the body that it has expanded is part of it. -/
theorem demandObservedWith_steady (fuel : Nat) : ∀ (aside : Aside) (name : String),
    (demandObservedWith fuel aside name).Steady aside.names [] fun _ => [] := by
  induction fuel with
  | zero =>
    intro aside name
    rw [demandObservedWith]
    exact (function_steady name aside.names).bind fun _ => .pure (List.nil_subset _)
  | succ fuel ih =>
    intro aside name
    rw [demandObservedWith]
    refine (function_steady name aside.names).bind fun function observed hprivate hready => ?_
    refine Achieves.look ?_
    dsimp only
    split
    · set visited : Inliner := { observed.toInliner with pending := _ }
      have hvisited : observed.toInliner.Draws (Block.names function.body) visited
          (Block.names function.body) := .of_eq rfl rfl (List.Subset.refl _)
      refine Achieves.step rfl ?_
      have hbody := expandBodyObserved_steady
        ⟨⟨observed.position name, name, demandDirectlyWith fuel⟩, demandObservedWith fuel⟩ ih aside
        function.body { observed with toInliner := visited } ⟨hprivate.noted, hprivate.all⟩
        (hready.drawn hvisited (by simp) (by simp))
      refine hbody.mono ?_
      rintro _ after ⟨hafter, hdraws⟩
      refine ⟨hafter, hvisited.trans (hdraws.mono ?_ ?_)⟩
      · exact List.subset_append_right _ _
      · exact List.nil_subset _
    · exact ⟨hprivate, .refl _ (List.nil_subset _)⟩

theorem demandObserved_steady (aside : Aside) (name : String) :
    (demandObserved aside name).Steady aside.names [] fun _ => [] :=
  fun observed => demandObservedWith_steady observed.pending.length aside name observed

theorem visitTopLevelObserved_steady (stmt : Stmt) (position : Nat) :
    (visitTopLevelObserved stmt position).Steady [] stmt.names fun _ => [] := by
  cases stmt with
  | block body =>
    rw [Stmt.names]
    exact expandBodyObserved_steady ⟨⟨_, _, demandDirectly⟩, demandObserved⟩ demandObserved_steady {}
      body
  | define function => exact .pure (List.nil_subset _)
  | _ => exact .throw _

/-- Whatever becomes of a module, all that is noted is private. -/
theorem expandModuleObserved_achieves {observed : Observed} (h : observed.Private)
    (hready : observed.toInliner.Ready []) :
    expandModuleObserved.Achieves observed fun _ after => after.Private := by
  rw [expandModuleObserved]
  refine Achieves.look ?_
  have hvisits : ∀ entry ∈ observed.module.zipIdx, (visitTopLevelObserved entry.1 entry.2).Steady []
      (Block.names observed.module) fun _ => [] := by
    intro entry hentry
    refine (visitTopLevelObserved_steady entry.1 entry.2).mono (List.nil_subset _) ?_
      fun _ => List.nil_subset _
    exact Block.names_subset_of_mem (List.fst_mem_of_mem_zipIdx hentry)
  have hmodule : observed.toInliner.Draws [] observed.toInliner (Block.names observed.module) := by
    refine ⟨rfl, [], Dispensed.refl _, ?_⟩
    simp
  refine (Steady.forM hvisits observed h (hready.drawn hmodule (List.nil_subset _) (by simp))).bind ?_
  rintro _ visited ⟨hvisited, hdraws⟩
  refine Achieves.look ?_
  have hdemands : ObserveM.Steady (visited.pending.forM (demandObserved {})) [] [] fun _ => [] :=
    .forM fun name _ => demandObserved_steady {} name
  have hready' := hready.kept (hmodule.trans hdraws) (List.nil_subset _)
  exact (hdemands visited hvisited hready').mono fun _ _ hlast => hlast.1

/-- However an inliner is run on a module in which parameters and return variables have different
names, with a supply that knows the names of the module: whenever the body of a function is copied
to a call, the parameters and the return variable become variables that the call has to itself, so
that assigning to them changes no variable of others. Every expansion has been noted. -/
theorem expandModule_holders_private {module : Block} {names : NameSupply} {start : Inliner}
    (hstart : Inliner.ofModule? module names = .ok start)
    (hknown : ∀ name ∈ Block.names module, names.isUsed name = true)
    (hdistinct : ∀ function ∈ Block.functions module, function.interface.Nodup) :
    expandModuleObserved.forget start.observed = expandModule start ∧
      (expandModuleObserved.final start.observed).expansions.Sublist
        ((expandModuleObserved.final start.observed).instantiations.map (·.expansion)) ∧
      ∀ i ∈ (expandModuleObserved.final start.observed).instantiations,
        i.Private ∧ i.SparesOthers := by
  have hspec := ofModule?_spec module names
  rw [hstart] at hspec
  obtain ⟨hnodup, rfl⟩ := hspec
  set start : Inliner := { module, pending := module.functionNames, names }
  have hforget : expandModuleObserved.forget start.observed = expandModule start :=
    (expandModuleObserved_mirrors start.observed).trans (expandModule_eq_directly hnodup).symm
  have hready : start.Ready [] := ⟨by simpa using hknown, hdistinct⟩
  have hinitial : start.observed.Private := ⟨List.nil_sublist _, fun _ hi => absurd hi List.not_mem_nil⟩
  have hfinal : (expandModuleObserved.final start.observed).Private :=
    (expandModuleObserved_achieves hinitial hready).final_private fun _ _ hlast => hlast
  exact ⟨hforget, hfinal.noted, fun i hi =>
    ⟨hfinal.all i hi, (hfinal.all i hi).sparesOthers⟩⟩

/-- A module in which an argument is a call itself, of a function that assigns to its parameter. -/
def callInArgument : Block :=
  [.define ⟨"f", [⟨"x", ""⟩], [⟨"r", ""⟩],
      [.assign ["x"] (.instr "add" [.ident "x", .ident "x"]), .assign ["r"] (.ident "x")]⟩,
    .block [.declare [⟨"x", ""⟩] (some (.call "f" [.call "f" [.literal ⟨.number, "1", ""⟩]])),
      .expr (.instr "pop" [.call "f" [.ident "x"]])]]

/-- An inliner at work on it. -/
def callInArgumentStart : Inliner where
  module := callInArgument
  pending := ["f"]
  names := .ofBlock callInArgument

/-- The inner call has a variable for its argument; the variable for its result is the one for the
argument of the outer call. -/
theorem expandModule_holders_private_callInArgument :
    Inliner.ofModule? callInArgument (.ofBlock callInArgument) = .ok callInArgumentStart ∧
      (∀ name ∈ Block.names callInArgument,
        (NameSupply.ofBlock callInArgument).isUsed name = true) ∧
      (∀ function ∈ Block.functions callInArgument, function.interface.Nodup) ∧
      (expandModuleObserved.final callInArgumentStart.observed).instantiations.map
        Instantiation.holders = [["f_x_1", "f_r_2"], ["f_r", "f_r_1"], ["f_x", "f_r"]] ∧
      expandModuleObserved.forget callInArgumentStart.observed = expandModule callInArgumentStart ∧
      (expandModuleObserved.final callInArgumentStart.observed).expansions.Sublist
        ((expandModuleObserved.final callInArgumentStart.observed).instantiations.map
          (·.expansion)) ∧
      ∀ i ∈ (expandModuleObserved.final callInArgumentStart.observed).instantiations,
        i.Private ∧ i.SparesOthers := by
  have hstart : Inliner.ofModule? callInArgument (.ofBlock callInArgument) =
      .ok callInArgumentStart := by rfl
  have hknown : ∀ name ∈ Block.names callInArgument,
      (NameSupply.ofBlock callInArgument).isUsed name = true := fun _ hname =>
    NameSupply.isUsed_ofBlock.mpr hname
  have hdistinct : ∀ function ∈ Block.functions callInArgument, function.interface.Nodup := by
    decide
  exact ⟨hstart, hknown, hdistinct, by decide +kernel,
    expandModule_holders_private hstart hknown hdistinct⟩

end InlineM

end YulInline
