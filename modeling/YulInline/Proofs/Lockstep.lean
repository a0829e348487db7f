import YulInline.Proofs.DirectExpansion
import YulInline.Proofs.AlikeCopies
import YulInline.Proofs.Expansion

/-!
# Two inliners in lockstep

Two inliners at work on modules that are alike do the same, step by step, whatever names their
supplies give out: they take the same decisions and fail with the same errors, and their modules
stay alike, under more and more corresponding names. `InlineM.InStep` says this of two computations
from any states on that are alike under the names so far and more; by `InlineM.InStep.bind` it holds
of a program if it holds of its parts. Then it is shown for one function of the expansion after the
other, along the likeness of the trees.
-/

namespace YulInline

variable {twins later : Twins}

/-! ## Modules that are alike -/

theorem FunctionDef.Alike.mono (h : twins ⊆ later) {function function' : FunctionDef}
    (hfunction : function.Alike twins function') : function.Alike later function' :=
  Stmt.Alike.mono h hfunction

/-- Functions that are alike have the same head. -/
theorem FunctionDef.Alike.eq {function function' : FunctionDef}
    (h : function.Alike twins function') :
    function' = { function with body := function'.body } := by
  cases h
  rfl

theorem FunctionDef.Alike.name {function function' : FunctionDef}
    (h : function.Alike twins function') : function'.name = function.name := by
  rw [h.eq]

theorem FunctionDef.Alike.body {function function' : FunctionDef}
    (h : function.Alike twins function') : Block.Alike twins function.body function'.body := by
  cases h with
  | define hown hbody => exact hbody

theorem FunctionDef.Alike.own {function function' : FunctionDef}
    (h : function.Alike twins function') : function.OwnTwins twins := by
  cases h with
  | define hown hbody => exact hown

theorem Stmt.Alike.function? {stmt stmt' : Stmt} (h : Stmt.Alike twins stmt stmt') :
    Option.Rel (FunctionDef.Alike twins) stmt.function? stmt'.function? := by
  cases h with
  | define hown hbody => exact .some (.define hown hbody)
  | _ => exact .none

theorem Block.Alike.functions {module module' : Block} (h : Block.Alike twins module module') :
    List.Forall₂ (FunctionDef.Alike twins) (Block.functions module) (Block.functions module') := by
  induction module generalizing module' with
  | nil =>
    cases h
    exact .nil
  | cons stmt stmts ih =>
    cases h with
    | @cons _ stmt' _ stmts' hstmt hstmts =>
      have hfunction := hstmt.function?
      rw [Block.functions, Block.functions, List.filterMap_cons, List.filterMap_cons]
      generalize stmt.function? = function? at hfunction
      generalize stmt'.function? = function?' at hfunction
      cases hfunction with
      | none => exact ih hstmts
      | some hfunction => exact .cons hfunction (ih hstmts)

theorem Block.Alike.functionNames {module module' : Block} (h : Block.Alike twins module module') :
    (Block.functions module').map (·.name) = (Block.functions module).map (·.name) := by
  have hfunctions := h.functions
  generalize Block.functions module = functions at hfunctions
  generalize Block.functions module' = functions' at hfunctions
  induction hfunctions with
  | nil => rfl
  | cons hfunction _ ih => rw [List.map_cons, List.map_cons, hfunction.name, ih]

/-- A function is found in both modules or in none. -/
theorem Block.Alike.find? {module module' : Block} (h : Block.Alike twins module module')
    (name : String) : Option.Rel (FunctionDef.Alike twins)
      ((Block.functions module).find? fun function => function.name = name)
      ((Block.functions module').find? fun function => function.name = name) := by
  have hfunctions := h.functions
  generalize Block.functions module = functions at hfunctions
  generalize Block.functions module' = functions' at hfunctions
  induction hfunctions with
  | nil => exact .none
  | @cons function function' _ _ hfunction _ ih =>
    rw [List.find?_cons, List.find?_cons, hfunction.name]
    cases decide (function.name = name) with
    | true => exact .some hfunction
    | false => exact ih

/-- Functions are defined at the same positions. -/
theorem Block.Alike.findIdx {module module' : Block} (h : Block.Alike twins module module')
    (name : String) :
    (module'.findIdx fun stmt => stmt.function?.any fun function => function.name = name) =
      module.findIdx fun stmt => stmt.function?.any fun function => function.name = name := by
  induction module generalizing module' with
  | nil =>
    cases h
    rfl
  | cons stmt stmts ih =>
    cases h with
    | @cons _ stmt' _ stmts' hstmt hstmts =>
      have hfunction := hstmt.function?
      rw [List.findIdx_cons, List.findIdx_cons, ih hstmts]
      generalize stmt.function? = function? at hfunction
      generalize stmt'.function? = function?' at hfunction
      cases hfunction with
      | none => rfl
      | some hfunction => rw [Option.any_some, Option.any_some, hfunction.name]

theorem Stmt.Alike.withBody {stmt stmt' : Stmt} (h : Stmt.Alike twins stmt stmt')
    {body body' : Block} (hbody : Block.Alike twins body body') :
    Stmt.Alike twins (stmt.withBody body) (stmt'.withBody body') := by
  cases h with
  | @define function _ hown _ =>
    have hown' : FunctionDef.OwnTwins twins { function with body } := hown
    exact .define hown' hbody
  | block _ => exact .block hbody
  | expr hvalue => exact .expr hvalue
  | assign htargets hvalue => exact .assign htargets hvalue
  | empty hvars => exact .empty hvars
  | declare hvars hvalue => exact .declare hvars hvalue
  | branch hcondition hbody => exact .branch hcondition hbody
  | switch hscrutinee hcases => exact .switch hscrutinee hcases
  | loop hinit hcondition hstep hbody => exact .loop hinit hcondition hstep hbody

theorem Block.Alike.modify {module module' : Block} (h : Block.Alike twins module module')
    {body body' : Block} (hbody : Block.Alike twins body body') (position : Nat) :
    Block.Alike twins (module.modify position (·.withBody body))
      (module'.modify position (·.withBody body')) := by
  induction module generalizing module' position with
  | nil =>
    cases h
    rw [List.modify_nil, List.modify_nil]
    exact .nil
  | cons stmt stmts ih =>
    cases h with
    | cons hstmt hstmts =>
      cases position with
      | zero =>
        rw [List.modify_zero_cons, List.modify_zero_cons]
        exact .cons (hstmt.withBody hbody) hstmts
      | succ position =>
        rw [List.modify_succ_cons, List.modify_succ_cons]
        exact .cons hstmt (ih hstmts position)

/-! ## Computations in step -/

/-- The states of two inliners at work on modules that are alike. -/
structure Inliner.Alike (twins : Twins) (inliner inliner' : Inliner) : Prop where
  fit : twins.Fit inliner.names inliner'.names
  module : Block.Alike twins inliner.module inliner'.module
  pending : inliner'.pending = inliner.pending

/-- Two computations end in the same way: either both with a value, in states that are alike under
more names than before, or both with the same error. -/
inductive InlineM.EndAlike {α β : Type} (now : Twins) (rel : Twins → α → β → Prop) :
    EStateM.Result InlineError Inliner α → EStateM.Result InlineError Inliner β → Prop where
  | ok {later : Twins} {a : α} {b : β} {after after' : Inliner} (hlater : now ⊆ later)
    (hafter : after.Alike later after') (hrel : rel later a b) :
    InlineM.EndAlike now rel (.ok a after) (.ok b after')
  | error (error : InlineError) (after after' : Inliner) :
    InlineM.EndAlike now rel (.error error after) (.error error after')

/-- From states that are alike, two computations end in the same way, with values in the relation
`rel` if they succeed. -/
def InlineM.InStep {α β : Type} (twins : Twins) (rel : Twins → α → β → Prop) (action : InlineM α)
    (action' : InlineM β) : Prop :=
  ∀ (now : Twins) (inliner inliner' : Inliner), twins ⊆ now → inliner.Alike now inliner' →
    InlineM.EndAlike now rel (action inliner) (action' inliner')

namespace InlineM

variable {α β γ δ : Type} {rel : Twins → α → β → Prop} {rel' : Twins → γ → δ → Prop}

/-- Of some values nothing matters. -/
abbrev Done (_ : Twins) (_ _ : Unit) : Prop :=
  True

theorem InStep.mono {action : InlineM α} {action' : InlineM β} (h : InStep twins rel action action')
    (hlater : twins ⊆ later) : InStep later rel action action' :=
  fun now inliner inliner' hnow => h now inliner inliner' (List.Subset.trans hlater hnow)

theorem InStep.bind {action : InlineM α} {action' : InlineM β} {next : α → InlineM γ}
    {next' : β → InlineM δ} (h : InStep twins rel action action')
    (hnext : ∀ later a b, twins ⊆ later → rel later a b →
      InStep later rel' (next a) (next' b)) :
    InStep twins rel' (action >>= next) (action' >>= next') := by
  intro now inliner inliner' hnow halike
  have hfirst := h now inliner inliner' hnow halike
  show EndAlike now rel' (EStateM.bind action next inliner) (EStateM.bind action' next' inliner')
  rw [EStateM.bind, EStateM.bind]
  generalize action inliner = result at hfirst
  generalize action' inliner' = result' at hfirst
  cases hfirst with
  | error error after after' => exact .error error after after'
  | @ok between a b before before' hbetween hbefore hrel =>
    have hsecond := hnext between a b (List.Subset.trans hnow hbetween) hrel between before before'
      (List.Subset.refl _) hbefore
    show EndAlike now rel' (next a before) (next' b before')
    generalize next a before = result at hsecond
    generalize next' b before' = result' at hsecond
    cases hsecond with
    | error error after after' => exact .error error after after'
    | ok hlater hafter hrel => exact .ok (List.Subset.trans hbetween hlater) hafter hrel

/-- Values that are in the relation whatever names are added. -/
theorem inStep_pure {a : α} {b : β} (h : ∀ later, twins ⊆ later → rel later a b) :
    InStep twins rel (pure a) (pure b) :=
  fun _ _ _ hnow halike => .ok (List.Subset.refl _) halike (h _ hnow)

theorem inStep_throw (error : InlineError) :
    InStep twins rel (throw error : InlineM α) (throw error : InlineM β) :=
  fun _ _ _ _ _ => .error error _ _

/-- A function is found in both modules or in none. -/
theorem inStep_function (name : String) :
    InStep twins (fun later => FunctionDef.Alike later) (function name) (function name) := by
  intro now inliner inliner' hnow halike
  have hboth : Option.Rel (FunctionDef.Alike now) (inliner.function? name)
      (inliner'.function? name) := halike.module.find? name
  generalize hfound : inliner.function? name = found at hboth
  generalize hfound' : inliner'.function? name = found' at hboth
  cases hboth with
  | some hfunction =>
    rw [function_eq_ok hfound, function_eq_ok hfound']
    exact .ok (List.Subset.refl _) halike hfunction
  | none =>
    rw [function_eq_error hfound, function_eq_error hfound']
    exact .error _ _ _

/-- Fresh names correspond to each other, whatever they are derived from. -/
theorem inStep_freshName (stem stem' : String) :
    InStep twins (fun later name name' => (name, name') ∈ later) (freshName stem)
      (freshName stem') := by
  intro now inliner inliner' hnow halike
  have hsubset := List.subset_cons_self
    ((inliner.names.fresh stem).1, (inliner'.names.fresh stem').1) now
  exact .ok hsubset ⟨halike.fit.fresh stem stem', halike.module.mono hsubset, halike.pending⟩
    (List.mem_cons_self ..)

theorem inStep_copyBlock {rule rule' : CopyRule} (hrule : rule.Alike twins rule')
    {block block' : Block} (hblock : Block.Alike twins block block') :
    InStep twins Block.Alike (copyBlock rule block) (copyBlock rule' block') := by
  intro now inliner inliner' hnow halike
  cases hdefinitions : Block.gather Stmt.ownDefinition block with
  | cons name later =>
    obtain ⟨names, hcopy⟩ := copyBlock_eq_error hdefinitions
    obtain ⟨names', hcopy'⟩ := copyBlock_eq_error (hblock.definitions.trans hdefinitions)
    rw [hcopy, hcopy']
    exact .error _ _ _
  | nil =>
    rw [copyBlock_eq_ok hdefinitions, copyBlock_eq_ok (hblock.definitions.trans hdefinitions)]
    have hcopier : Copier.Alike now { names := inliner.names } { names := inliner'.names } :=
      ⟨halike.fit, .nil⟩
    obtain ⟨later, hlater, hcopy, hended⟩ :=
      (hblock.mono hnow).copy (hrule.mono hnow) hdefinitions hcopier
    exact .ok hlater ⟨hended.fit, halike.module.mono hlater, halike.pending⟩ hcopy

theorem inStep_checkArity {function function' : FunctionDef}
    (hfunction : function.Alike twins function') (count : Nat) :
    InStep twins Done (checkArity function count) (checkArity function' count) := by
  rw [hfunction.eq, checkArity, checkArity]
  split
  · exact inStep_pure fun _ _ => trivial
  · exact inStep_throw _

/-- Changes of the state that keep states alike. -/
theorem inStep_modify {f f' : Inliner → Inliner}
    (h : ∀ {now : Twins} {inliner inliner' : Inliner}, twins ⊆ now → inliner.Alike now inliner' →
      (f inliner).Alike now (f' inliner')) :
    InStep twins Done (modify f) (modify f') :=
  fun _ _ _ hnow halike => .ok (List.Subset.refl _) (h hnow halike) trivial

end InlineM

/-! ## Expressions -/

/-- Bodies at the same place in two modules that are alike, which demand functions in step. -/
structure Site.Alike (twins : Twins) (site site' : Site) : Prop where
  position : site'.position = site.position
  caller : site'.caller = site.caller
  demand : ∀ name, InlineM.InStep twins InlineM.Done (site.demand name) (site'.demand name)

variable {site site' : Site}

theorem Site.Alike.mono (h : site.Alike twins site') (hlater : twins ⊆ later) :
    site.Alike later site' :=
  ⟨h.position, h.caller, fun name => (h.demand name).mono hlater⟩

theorem Site.Alike.publish (h : site.Alike twins site') {body body' : Block}
    (hbody : Block.Alike twins body body') :
    InlineM.InStep twins InlineM.Done (site.publish body) (site'.publish body') := by
  refine InlineM.inStep_modify fun hnow halike => ?_
  rw [h.position]
  exact ⟨halike.fit, halike.module.modify (hbody.mono hnow) _, halike.pending⟩

/-- What is hoisted out of two trees is alike, and what remains of them is in the relation `rel`. -/
def HoistAlike {α : Type} (rel : Twins → α → α → Prop) (twins : Twins)
    (expanded expanded' : List Stmt × α) : Prop :=
  Block.Alike twins expanded.1 expanded'.1 ∧ rel twins expanded.2 expanded'.2

namespace InlineM

theorem inStep_bindArgument (hint hint' type : String) (toFront : Bool)
    {hoisted hoisted' : List Stmt} (hhoisted : Block.Alike twins hoisted hoisted') {arg arg' : Expr}
    (harg : Expr.Alike twins arg arg') :
    InStep twins (HoistAlike Expr.Alike) (bindArgument hint type toFront hoisted arg)
      (bindArgument hint' type toFront hoisted' arg') := by
  rw [bindArgument, bindArgument, hhoisted.isEmpty, harg.ident?_isSome]
  split
  · exact inStep_pure fun _ hlater => ⟨hhoisted.mono hlater, harg.mono hlater⟩
  · refine (inStep_freshName hint hint').bind fun later name name' hlater hname => ?_
    refine inStep_pure fun last hlast => ?_
    have hmore := List.Subset.trans hlater hlast
    have hbound : Stmt.Alike last (.declare [⟨name, type⟩] (some arg))
        (.declare [⟨name', type⟩] (some arg')) :=
      .declare (.cons ⟨hlast hname, rfl⟩ .nil) (harg.mono hmore)
    exact ⟨(hhoisted.mono hmore).append (.cons hbound .nil), .ident (hlast hname)⟩

theorem inStep_argumentNames (callee : String) {args args' : List Expr}
    (hargs : Expr.AlikeArgs twins args args') :
    InStep twins Twins.Names (argumentNames callee args) (argumentNames callee args') := by
  rw [argumentNames, argumentNames]
  induction args generalizing args' with
  | nil =>
    cases hargs
    exact inStep_pure fun _ _ => .nil
  | cons arg args ih =>
    cases hargs with
    | cons harg hargs =>
      rw [List.mapM_cons, List.mapM_cons]
      refine InStep.bind
        (?_ : InStep twins (fun later name name' => (name, name') ∈ later) _ _) ?_
      · cases harg with
        | ident hname => exact inStep_pure fun _ hlater => hlater hname
        | _ => exact inStep_throw _
      · intro later name name' hlater hname
        refine ((ih hargs).mono hlater).bind fun last names names' hlast hnames => ?_
        exact inStep_pure fun _ hmore => .cons (hmore (hlast hname)) (hnames.mono hmore)

end InlineM

/-- Parameters are substituted by arguments that correspond to each other. -/
theorem Twins.Names.zip_params {params : List TypedName}
    (hparams : ∀ var ∈ params, (var.name, var.name) ∈ twins) {arguments arguments' : List String}
    (h : twins.Names arguments arguments') :
    twins.Entries ((params.map (·.name)).zip arguments) ((params.map (·.name)).zip arguments') := by
  induction params generalizing arguments arguments' with
  | nil => exact .nil
  | cons param params ih =>
    rw [List.forall_mem_cons] at hparams
    cases h with
    | nil => exact .nil
    | cons hname hnames => exact .cons ⟨hparams.1, hname⟩ (ih hparams.2 hnames)

theorem FunctionDef.Alike.copyRule {function function' : FunctionDef}
    (h : function.Alike twins function') {arguments arguments' : List String}
    (harguments : twins.Names arguments arguments') {result holder holder' : String}
    (hresult : (result, result) ∈ twins) (hholder : (holder, holder') ∈ twins) :
    (function.copyRule arguments result holder).Alike twins
      (function'.copyRule arguments' result holder') := by
  obtain ⟨-, hvars⟩ := h.own
  rw [List.forall_mem_append] at hvars
  rw [h.eq]
  exact .cons ⟨hresult, hholder⟩ (List.rel_reverse (harguments.zip_params hvars.1))

namespace InlineM

theorem inStep_expandCall (site site' : Site) {callee callee' : FunctionDef}
    (hcallee : callee.Alike twins callee') {result : TypedName}
    (hresult : (result.name, result.name) ∈ twins) {args args' : List Expr}
    (hargs : Expr.AlikeArgs twins args args') :
    InStep twins (HoistAlike fun later holder holder' => (holder, holder') ∈ later)
      (expandCall site callee result args) (expandCall site' callee' result args') := by
  rw [expandCall, expandCall, hcallee.name]
  refine (inStep_argumentNames callee.name hargs).bind ?_
  intro now₁ arguments arguments' h₁ harguments
  refine (inStep_freshName _ _).bind fun now₂ holder holder' h₂ hholder => ?_
  refine (inStep_function callee.name).bind fun now₃ found found' h₃ hfound => ?_
  have hrule := hfound.copyRule (harguments.mono (List.Subset.trans h₂ h₃))
    (h₃ (h₂ (h₁ hresult))) (h₃ hholder)
  refine (inStep_copyBlock hrule hfound.body).bind fun now₄ copy copy' h₄ hcopy => ?_
  have hlogged : InStep now₄ Done
      (modify fun inliner => { inliner with
        expansions := ⟨site.caller, found, arguments, holder⟩ :: inliner.expansions })
      (modify fun inliner => { inliner with
        expansions := ⟨site'.caller, found', arguments', holder'⟩ :: inliner.expansions }) :=
    inStep_modify fun _ halike => ⟨halike.fit, halike.module, halike.pending⟩
  refine hlogged.bind fun now₅ _ _ h₅ _ => inStep_pure fun now₆ h₆ => ?_
  have hlast := List.Subset.trans h₅ h₆
  have hheld := hlast (h₄ (h₃ hholder))
  exact ⟨.cons (.empty (.cons ⟨hheld, rfl⟩ .nil)) (.cons (.block (hcopy.mono hlast)) .nil), hheld⟩

end InlineM

mutual

/-- Expressions that are alike are expanded alike. What has been expanded so far has added names:
the parts are alike under the names at the start, `twins`, and are expanded under those by `now`. -/
theorem Expr.Alike.expand {e e' : Expr} : Expr.Alike twins e e' →
    ∀ {now : Twins}, twins ⊆ now → site.Alike now site' →
      InlineM.InStep now (HoistAlike Expr.Alike) (e.expand site) (e'.expand site')
  | .literal value, _, _, _ => by
    rw [Expr.expand, Expr.expand]
    exact InlineM.inStep_pure fun _ _ => ⟨.nil, .literal value⟩
  | .ident hname, _, hnow, _ => by
    rw [Expr.expand, Expr.expand]
    exact InlineM.inStep_pure fun _ hlater => ⟨.nil, .ident (hlater (hnow hname))⟩
  | .instr op hargs, _, hnow, hsite => by
    rw [Expr.expand, Expr.expand]
    refine (hargs.expand [] [] [] false hnow hsite).bind ?_
    rintro later ⟨hoisted, args⟩ ⟨hoisted', args'⟩ hlater ⟨hhoisted, hargs'⟩
    exact InlineM.inStep_pure fun _ hlast => ⟨hhoisted.mono hlast, .instr op (hargs'.mono hlast)⟩
  | @Expr.Alike.call _ name _ _ hname hargs, now, hnow, hsite => by
    rw [Expr.expand, Expr.expand, hargs.length]
    refine (hsite.demand name).bind fun now₁ _ _ h₁ _ => ?_
    refine (InlineM.inStep_function name).bind fun now₂ callee callee' h₂ hcallee => ?_
    refine (InlineM.inStep_checkArity hcallee _).bind fun now₃ _ _ h₃ _ => ?_
    have hnow₃ := List.Subset.trans h₁ (List.Subset.trans h₂ h₃)
    have hname₃ := hnow₃ (hnow hname)
    have hcallee₃ := hcallee.mono h₃
    generalize hhints : callee.params.map (fun param => name ++ "_" ++ param.name) = hints
    have hresult : callee'.result? site'.caller = callee.result? site.caller := by
      rw [hcallee.eq, hsite.caller]
      rfl
    have htypes : callee'.params.map (·.type) = callee.params.map (·.type) := by
      rw [hcallee.eq]
    simp only [hresult, htypes]
    refine (hargs.expand hints _ (callee.params.map (·.type)) _ (List.Subset.trans hnow hnow₃)
      (hsite.mono hnow₃)).bind ?_
    rintro now₄ ⟨hoisted, args⟩ ⟨hoisted', args'⟩ h₄ ⟨hhoisted, hargs'⟩
    cases hreturns : callee.result? site.caller with
    | none =>
      exact InlineM.inStep_pure fun _ hlast =>
        ⟨hhoisted.mono hlast, .call (hlast (h₄ hname₃)) (hargs'.mono hlast)⟩
    | some result =>
      obtain ⟨hsingle, -⟩ := FunctionDef.result?_eq_some.mp hreturns
      have hresult₃ : (result.name, result.name) ∈ now₃ := by
        refine hcallee₃.own.2 result (List.mem_append_right _ ?_)
        rw [hsingle]
        exact List.mem_singleton_self result
      refine (InlineM.inStep_expandCall site site' (hcallee₃.mono h₄) (h₄ hresult₃) hargs').bind ?_
      rintro now₅ ⟨expansion, holder⟩ ⟨expansion', holder'⟩ h₅ ⟨hexpansion, hholder⟩
      refine InlineM.inStep_pure fun last hlast => ⟨?_, .ident (hlast hholder)⟩
      exact (hhoisted.mono (List.Subset.trans h₅ hlast)).append (hexpansion.mono hlast)

theorem Expr.AlikeArgs.expand {args args' : List Expr} : Expr.AlikeArgs twins args args' →
    ∀ (hints hints' types : List String) (toFront : Bool) {now : Twins}, twins ⊆ now →
      site.Alike now site' → InlineM.InStep now (HoistAlike Expr.AlikeArgs)
        (Expr.expandArgs site hints types toFront args)
        (Expr.expandArgs site' hints' types toFront args')
  | .nil, _, _, _, _, _, _, _ => by
    rw [Expr.expandArgs, Expr.expandArgs]
    exact InlineM.inStep_pure fun _ _ => ⟨.nil, .nil⟩
  | .cons harg hargs, hints, hints', types, toFront, now, hnow, hsite => by
    rw [Expr.expandArgs, Expr.expandArgs]
    refine (harg.expand hnow hsite).bind ?_
    rintro now₁ ⟨hoisted, arg⟩ ⟨hoisted', arg'⟩ h₁ ⟨hhoisted, harg'⟩
    refine (InlineM.inStep_bindArgument _ _ _ toFront hhoisted harg').bind ?_
    rintro now₂ ⟨bound, arg⟩ ⟨bound', arg'⟩ h₂ ⟨hbound, harg'⟩
    have hnow₂ := List.Subset.trans h₁ h₂
    rw [hhoisted.isEmpty]
    refine (hargs.expand hints.tail hints'.tail types.tail _ (List.Subset.trans hnow hnow₂)
      (hsite.mono hnow₂)).bind ?_
    rintro now₃ ⟨later, args⟩ ⟨later', args'⟩ h₃ ⟨hlater, hargs'⟩
    refine InlineM.inStep_pure fun last hlast => ?_
    have hmore := List.Subset.trans h₃ hlast
    exact ⟨(hlater.mono hlast).append (hbound.mono hmore),
      .cons (harg'.mono hmore) (hargs'.mono hlast)⟩

end

/-! ## Statements -/

/-- What is alike gives bodies that are alike when it is put in its place. -/
def PlugAlike {α : Type} (rel : Twins → α → α → Prop) (twins : Twins) (plug plug' : α → Block) :
    Prop :=
  ∀ later, twins ⊆ later → ∀ a a', rel later a a' → Block.Alike later (plug a) (plug' a')

theorem PlugAlike.mono {α : Type} {rel : Twins → α → α → Prop} {plug plug' : α → Block}
    (h : PlugAlike rel twins plug plug') (hlater : twins ⊆ later) : PlugAlike rel later plug plug' :=
  fun last hlast => h last (List.Subset.trans hlater hlast)

/-- What remains of a statement is published, and that is all. -/
theorem Site.Alike.publish_return (hsite : site.Alike twins site') {plug plug' : Stmt → Block}
    (hplug : PlugAlike Stmt.Alike twins plug plug') {hoisted hoisted' : List Stmt}
    (hhoisted : Block.Alike twins hoisted hoisted') {stmt stmt' : Stmt}
    (hstmt : Stmt.Alike twins stmt stmt') :
    InlineM.InStep twins (HoistAlike Stmt.Alike)
      (site.publish (plug stmt) >>= fun _ => pure (hoisted, stmt))
      (site'.publish (plug' stmt') >>= fun _ => pure (hoisted', stmt')) := by
  refine (hsite.publish (hplug twins (List.Subset.refl _) _ _ hstmt)).bind ?_
  refine fun later _ _ hlater _ => InlineM.inStep_pure fun last hlast => ?_
  have hmore := List.Subset.trans hlater hlast
  exact ⟨hhoisted.mono hmore, hstmt.mono hmore⟩

mutual

/-- Statements that are alike are expanded alike. -/
theorem Stmt.Alike.expand {stmt stmt' : Stmt} : Stmt.Alike twins stmt stmt' →
    ∀ {now : Twins} {plug plug' : Stmt → Block}, twins ⊆ now → site.Alike now site' →
      PlugAlike Stmt.Alike now plug plug' → InlineM.InStep now (HoistAlike Stmt.Alike)
        (stmt.expand site plug) (stmt'.expand site' plug')
  | .expr hvalue, _, _, _, hnow, hsite, hplug => by
    rw [Stmt.expand, Stmt.expand]
    refine (hvalue.expand hnow hsite).bind ?_
    rintro later ⟨hoisted, value⟩ ⟨hoisted', value'⟩ hlater ⟨hhoisted, hrest⟩
    exact (hsite.mono hlater).publish_return (hplug.mono hlater) hhoisted (.expr hrest)
  | .assign htargets hvalue, _, _, _, hnow, hsite, hplug => by
    rw [Stmt.expand, Stmt.expand]
    refine (hvalue.expand hnow hsite).bind ?_
    rintro later ⟨hoisted, value⟩ ⟨hoisted', value'⟩ hlater ⟨hhoisted, hrest⟩
    exact (hsite.mono hlater).publish_return (hplug.mono hlater) hhoisted
      (.assign (htargets.mono (List.Subset.trans hnow hlater)) hrest)
  | .empty hvars, _, _, _, hnow, _, _ => by
    rw [Stmt.expand, Stmt.expand]
    exact InlineM.inStep_pure fun _ hlast =>
      ⟨.nil, .empty (TypedName.Alike.mono_all (List.Subset.trans hnow hlast) hvars)⟩
  | .declare hvars hvalue, _, _, _, hnow, hsite, hplug => by
    rw [Stmt.expand, Stmt.expand]
    refine (hvalue.expand hnow hsite).bind ?_
    rintro later ⟨hoisted, value⟩ ⟨hoisted', value'⟩ hlater ⟨hhoisted, hrest⟩
    exact (hsite.mono hlater).publish_return (hplug.mono hlater) hhoisted
      (.declare (TypedName.Alike.mono_all (List.Subset.trans hnow hlater) hvars) hrest)
  | @Stmt.Alike.define _ function _ _ _, _, _, _, _, _, _ => by
    rw [Stmt.expand, Stmt.expand]
    exact InlineM.inStep_throw (.nestedDefinition function.name)
  | .branch hcondition hbody, _, _, _, hnow, hsite, hplug => by
    rw [Stmt.expand, Stmt.expand]
    refine (hcondition.expand hnow hsite).bind ?_
    rintro now₁ ⟨hoisted, condition⟩ ⟨hoisted', condition'⟩ h₁ ⟨hhoisted, hrest⟩
    refine ((hsite.mono h₁).publish (hplug now₁ h₁ _ _
      (.branch hrest (hbody.mono (List.Subset.trans hnow h₁))))).bind fun now₂ _ _ h₂ _ => ?_
    have hnow₂ := List.Subset.trans h₁ h₂
    refine (hbody.expand (List.Subset.trans hnow hnow₂) (hsite.mono hnow₂) fun later hlater _ _ h =>
      hplug later (List.Subset.trans hnow₂ hlater) _ _
        (.branch (hrest.mono (List.Subset.trans h₂ hlater)) h)).bind fun now₃ _ _ h₃ hbody' => ?_
    refine InlineM.inStep_pure fun last hlast => ?_
    have hmore := List.Subset.trans h₂ (List.Subset.trans h₃ hlast)
    exact ⟨hhoisted.mono hmore, .branch (hrest.mono hmore) (hbody'.mono hlast)⟩
  | .switch hscrutinee hcases, _, _, _, hnow, hsite, hplug => by
    rw [Stmt.expand, Stmt.expand]
    refine (hscrutinee.expand hnow hsite).bind ?_
    rintro now₁ ⟨hoisted, scrutinee⟩ ⟨hoisted', scrutinee'⟩ h₁ ⟨hhoisted, hrest⟩
    refine ((hsite.mono h₁).publish (hplug now₁ h₁ _ _
      (.switch hrest (hcases.mono (List.Subset.trans hnow h₁))))).bind fun now₂ _ _ h₂ _ => ?_
    have hnow₂ := List.Subset.trans h₁ h₂
    refine (hcases.expand (List.Subset.trans hnow hnow₂) (hsite.mono hnow₂) fun later hlater _ _ h =>
      hplug later (List.Subset.trans hnow₂ hlater) _ _
        (.switch (hrest.mono (List.Subset.trans h₂ hlater)) h)).bind fun now₃ _ _ h₃ hcases' => ?_
    refine InlineM.inStep_pure fun last hlast => ?_
    have hmore := List.Subset.trans h₂ (List.Subset.trans h₃ hlast)
    exact ⟨hhoisted.mono hmore, .switch (hrest.mono hmore) (hcases'.mono hlast)⟩
  | .loop hinit hcondition hstep hbody, now, _, _, hnow, hsite, hplug => by
    rw [Stmt.expand, Stmt.expand]
    have hparts : ∀ later, now ⊆ later → ∀ {init init' step step' body body' : Block},
        Block.Alike later init init' → Block.Alike later step step' →
        Block.Alike later body body' →
        Stmt.Alike later (.loop init _ step body) (.loop init' _ step' body') :=
      fun _ hlater _ _ _ _ _ _ hinit hstep hbody =>
        .loop hinit (hcondition.mono (List.Subset.trans hnow hlater)) hstep hbody
    refine (hinit.expand hnow hsite fun later hlater _ _ hinit' => hplug later hlater _ _
      (hparts later hlater hinit' (hstep.mono (List.Subset.trans hnow hlater))
        (hbody.mono (List.Subset.trans hnow hlater)))).bind fun now₁ init init' h₁ hinit' => ?_
    refine (hstep.expand (List.Subset.trans hnow h₁) (hsite.mono h₁) fun later hlater _ _ hstep' =>
      hplug later (List.Subset.trans h₁ hlater) _ _ (hparts later (List.Subset.trans h₁ hlater)
        (hinit'.mono hlater) hstep'
        (hbody.mono (List.Subset.trans hnow (List.Subset.trans h₁ hlater))))).bind
          fun now₂ step step' h₂ hstep' => ?_
    have hnow₂ := List.Subset.trans h₁ h₂
    refine (hbody.expand (List.Subset.trans hnow hnow₂) (hsite.mono hnow₂)
      fun later hlater _ _ hbody' => hplug later (List.Subset.trans hnow₂ hlater) _ _
        (hparts later (List.Subset.trans hnow₂ hlater) (hinit'.mono (List.Subset.trans h₂ hlater))
          (hstep'.mono hlater) hbody')).bind fun now₃ body body' h₃ hbody' => ?_
    refine InlineM.inStep_pure fun last hlast => ⟨.nil, ?_⟩
    have hmore := List.Subset.trans h₃ hlast
    exact hparts last (List.Subset.trans hnow₂ hmore) (hinit'.mono (List.Subset.trans h₂ hmore))
      (hstep'.mono hmore) (hbody'.mono hlast)
  | .block hbody, _, _, _, hnow, hsite, hplug => by
    rw [Stmt.expand, Stmt.expand]
    refine (hbody.expand hnow hsite fun later hlater _ _ hblock =>
      hplug later hlater _ _ (.block hblock)).bind ?_
    exact fun _ _ _ _ hblock => InlineM.inStep_pure fun _ hlast => ⟨.nil, .block (hblock.mono hlast)⟩

theorem Case.Alike.expand {cases cases' : List Case} : Case.Alike twins cases cases' →
    ∀ {now : Twins} {plug plug' : List Case → Block}, twins ⊆ now → site.Alike now site' →
      PlugAlike Case.Alike now plug plug' → InlineM.InStep now Case.Alike
        (Case.expandCases site plug cases) (Case.expandCases site' plug' cases')
  | .nil, _, _, _, _, _, _ => by
    rw [Case.expandCases, Case.expandCases]
    exact InlineM.inStep_pure fun _ _ => .nil
  | .cons value hbody hcases, _, _, _, hnow, hsite, hplug => by
    rw [Case.expandCases, Case.expandCases]
    refine (hbody.expand hnow hsite fun later hlater _ _ hblock => hplug later hlater _ _
      (.cons value hblock (hcases.mono (List.Subset.trans hnow hlater)))).bind
        fun now₁ body body' h₁ hblock => ?_
    refine (hcases.expand (List.Subset.trans hnow h₁) (hsite.mono h₁) fun later hlater _ _ hall =>
      hplug later (List.Subset.trans h₁ hlater) _ _ (.cons value (hblock.mono hlater) hall)).bind ?_
    exact fun now₂ _ _ h₂ hall => InlineM.inStep_pure fun _ hlast =>
      .cons value (hblock.mono (List.Subset.trans h₂ hlast)) (hall.mono hlast)

theorem Block.Alike.expand {block block' : Block} : Block.Alike twins block block' →
    ∀ {now : Twins} {plug plug' : Block → Block}, twins ⊆ now → site.Alike now site' →
      PlugAlike Block.Alike now plug plug' → InlineM.InStep now Block.Alike
        (Block.expand site plug block) (Block.expand site' plug' block')
  | .nil, _, _, _, _, _, _ => by
    rw [Block.expand, Block.expand]
    exact InlineM.inStep_pure fun _ _ => .nil
  | .cons hstmt hstmts, _, _, _, hnow, hsite, hplug => by
    rw [Block.expand, Block.expand]
    refine (hstmt.expand hnow hsite fun later hlater _ _ hrest => hplug later hlater _ _
      (.cons hrest (hstmts.mono (List.Subset.trans hnow hlater)))).bind ?_
    rintro now₁ ⟨hoisted, stmt⟩ ⟨hoisted', stmt'⟩ h₁ ⟨hhoisted, hrest⟩
    have hplaced : ∀ later, now₁ ⊆ later → ∀ stmts stmts', Block.Alike later stmts stmts' →
        Block.Alike later (hoisted ++ stmt :: stmts) (hoisted' ++ stmt' :: stmts') :=
      fun _ hlater _ _ hafter => (hhoisted.mono hlater).append (.cons (hrest.mono hlater) hafter)
    refine ((hsite.mono h₁).publish (hplug now₁ h₁ _ _ (hplaced now₁ (List.Subset.refl _) _ _
      (hstmts.mono (List.Subset.trans hnow h₁))))).bind fun now₂ _ _ h₂ _ => ?_
    have hnow₂ := List.Subset.trans h₁ h₂
    refine (hstmts.expand (List.Subset.trans hnow hnow₂) (hsite.mono hnow₂)
      fun later hlater _ _ hafter => hplug later (List.Subset.trans hnow₂ hlater) _ _
        (hplaced later (List.Subset.trans h₂ hlater) _ _ hafter)).bind ?_
    exact fun now₃ _ _ h₃ hafter => InlineM.inStep_pure fun last hlast =>
      hplaced last (List.Subset.trans h₂ (List.Subset.trans h₃ hlast)) _ _ (hafter.mono hlast)

end

end YulInline
