import YulInline.Proofs.DirectExpansion
import YulInline.Proofs.Visits

/-!
# The expansion does what it is said to do

Every function of the expansion, run as part of a visit, ends with what `Expr.Expands`,
`Stmt.Expands` and `Block.Expands` relate to the tree that it is given. The proof follows the
recursion of the functions; what a demand does in between to other bodies is in `Visit.Runs`.

What is put in place on the way is the body with a partly expanded statement in it. That this is a
form of the body is the business of `Visit.Plugs`: the context of a statement turns every form of
the statement into a form of the body.
-/

namespace YulInline

namespace Visit

variable {module : Block} {names : NameSupply} {visit : Visit module names}

/-! ## Expressions -/

mutual

theorem runs_expr : ∀ (e : Expr) {own : Nat → Trace} {present : Block} {inliner : Inliner},
    visit.At own present inliner → (∀ call ∈ e.calls, call ∈ Block.calls visit.body) →
    visit.Runs (e.expand visit.site) own inliner (fun _ => present) fun r t _ =>
      Expr.Expands module visit.site.caller e r.1 r.2 t
  | .literal value, own, present, inliner, h, hcalls => by
    rw [Expr.expand]
    exact Runs.pure h rfl (.literal value)
  | .ident name, own, present, inliner, h, hcalls => by
    rw [Expr.expand]
    exact Runs.pure h rfl (.ident name)
  | .instr op args, own, present, inliner, h, hcalls => by
    rw [Expr.expand]
    rw [Expr.calls] at hcalls
    refine (runs_args args [] [] false h hcalls).bind ?_
    rintro ⟨hoisted, args'⟩ t own₁ inliner₁ h₁ - - hargs
    refine Runs.pure h₁ rfl ?_
    rw [Trace.append_empty]
    exact .instr op hargs
  | .call name args, own, present, inliner, h, hcalls => by
    rw [Expr.expand]
    rw [Expr.calls, List.forall_mem_cons] at hcalls
    obtain ⟨hcall, hcalls⟩ := hcalls
    refine (runs_demand h hcall).bind ?_
    rintro - t own₁ inliner₁ h₁ - - ⟨rfl, hpending⟩
    refine (runs_function h₁ hcall).bind ?_
    rintro callee t own₂ inliner₂ h₂ - - ⟨rfl, rfl, hfound⟩
    have hform := h₁.sound.formIn_of_function? hfound
    obtain ⟨rfl, -⟩ := h₁.sound.of_function?_eq_some hfound
    refine (runs_checkArity h₂ hform hcall).bind ?_
    rintro - t own₃ inliner₃ h₃ - - ⟨rfl, rfl, hcount⟩
    refine (runs_args args _ _ _ h₃ hcalls).bind ?_
    rintro ⟨hoisted, args'⟩ t own₄ inliner₄ h₄ - hkept hargs
    cases hresult : callee.result? visit.site.caller with
    | none =>
      rw [hresult] at hargs
      refine Runs.pure h₄ rfl ?_
      simp only [Trace.empty_append, Trace.append_empty]
      exact .kept hform hresult hcount hargs
    | some result =>
      rw [hresult] at hargs
      obtain ⟨arguments, rfl⟩ := hargs.idents
      have hpending' : callee.name ∉ inliner₄.pending := fun hmem =>
        hpending (hkept.pending.subset hmem)
      refine (runs_expandCall h₄ hform hcall hpending' result arguments).bind ?_
      rintro - t' own₅ inliner₅ h₅ - - ⟨body, copy, holder, hform', hcopied, rfl, rfl⟩
      refine Runs.pure h₅ rfl ?_
      simp only [Trace.empty_append, Trace.append_empty]
      exact @Expr.Expands.expanded _ _ { callee with body } _ _ _ _ _ _ _ hform' hresult hcount hargs
        hcopied

theorem runs_args : ∀ (args : List Expr) (hints types : List String) (toFront : Bool)
    {own : Nat → Trace} {present : Block} {inliner : Inliner}, visit.At own present inliner →
    (∀ call ∈ Expr.callsOfArgs args, call ∈ Block.calls visit.body) →
    visit.Runs (Expr.expandArgs visit.site hints types toFront args) own inliner
      (fun _ => present) fun r t _ =>
        Expr.ExpandsArgs module visit.site.caller types toFront args r.1 r.2 t
  | [], hints, types, toFront, own, present, inliner, h, hcalls => by
    rw [Expr.expandArgs]
    exact Runs.pure h rfl (.nil types toFront)
  | arg :: args, hints, types, toFront, own, present, inliner, h, hcalls => by
    rw [Expr.expandArgs]
    rw [Expr.callsOfArgs, List.forall_mem_append] at hcalls
    refine (runs_expr arg h hcalls.1).bind ?_
    rintro ⟨hoisted, arg'⟩ t own₁ inliner₁ h₁ - - harg
    refine (runs_bindArgument h₁ _ _ toFront hoisted arg').bind ?_
    rintro ⟨bound, arg''⟩ t₂ own₂ inliner₂ h₂ - - hbound
    refine (runs_args args hints.tail types.tail (toFront || !hoisted.isEmpty) h₂ hcalls.2).bind ?_
    rintro ⟨later, args'⟩ t₃ own₃ inliner₃ h₃ - - hargs
    refine Runs.pure h₃ rfl ?_
    rcases hbound with ⟨rfl, rfl, heq, rfl⟩ | ⟨hhoisted, ⟨name, rfl⟩, heq, rfl⟩ |
      ⟨hmoved, name, heq, rfl⟩
    · obtain ⟨rfl, rfl⟩ := Prod.mk.inj heq
      simp only [Trace.empty_append, Trace.append_empty, List.append_nil]
      exact .stays harg hargs
    · obtain ⟨rfl, rfl⟩ := Prod.mk.inj heq
      have hfront : (toFront || !bound.isEmpty) = true := by simp [hhoisted]
      rw [hfront] at hargs
      simp only [Trace.empty_append, Trace.append_empty]
      exact .holder harg hhoisted hargs
    · obtain ⟨rfl, rfl⟩ := Prod.mk.inj heq
      have hfront : (toFront || !hoisted.isEmpty) = true := by
        rcases hmoved with ⟨-, rfl⟩ | ⟨hhoisted, -⟩ <;> simp [*]
      rw [hfront] at hargs
      simp only [Trace.append_empty, ← Trace.append_assoc]
      exact .bound harg hmoved hargs

end

/-! ## Contexts -/

variable (visit) in
/-- The context `plug` turns what is a form of a part of the body, with a trace, into a form of the
body; `base` is what was recorded for the body before that part was visited. -/
def Plugs {α : Type} (base : Trace) (form : α → Trace → Prop) (plug : α → Block) : Prop :=
  ∀ a t, form a t → ∃ s, Block.Expands module visit.site.caller visit.body (plug a) s ∧
    s.Within (base ++ t)

/-- A context inside a context, of a part that is visited when `t` has been recorded. -/
theorem Plugs.inside {α β : Type} {base : Trace} {form : α → Trace → Prop}
    {form' : β → Trace → Prop} {plug : α → Block} (h : visit.Plugs base form plug) (t : Trace)
    (inner : β → α)
    (hinner : ∀ b t', form' b t' → ∃ s, form (inner b) s ∧ s.Within (t ++ t')) :
    visit.Plugs (base ++ t) form' fun b => plug (inner b) := by
  intro b t' hb
  obtain ⟨s, hform, hwithin⟩ := hinner b t' hb
  obtain ⟨s', hbody, hwithin'⟩ := h (inner b) s hform
  refine ⟨s', hbody, hwithin'.trans ?_⟩
  rw [Trace.append_assoc]
  exact (Trace.Within.refl base).append hwithin

/-- A form of a part of the body may be put in place when its trace has been recorded. -/
theorem Plugs.publish {α : Type} {own own' : Nat → Trace} {present : Block} {inliner : Inliner}
    {t : Trace} {form : α → Trace → Prop} {plug : α → Block} {a : α}
    (h : visit.Plugs (own visit.site.position) form plug) (hat : visit.At own' present inliner)
    (hown : own' visit.site.position = own visit.site.position ++ t)
    (hform : ∃ s, form a s ∧ s.Within t) :
    visit.Runs (visit.site.publish (plug a)) own' inliner (fun _ => plug a) fun _ t _ => t = {} := by
  obtain ⟨s, hform, hwithin⟩ := hform
  obtain ⟨s', hbody, hwithin'⟩ := h a s hform
  refine runs_publish hat hbody (hwithin'.trans ?_)
  rw [hown]
  exact (Trace.Within.refl _).append hwithin

/-! ## Statements -/

variable (visit) in
/-- The forms of a statement. -/
def StmtForm (stmt stmt' : Stmt) (t : Trace) : Prop :=
  ∃ hoisted, Stmt.Expands module visit.site.caller stmt hoisted stmt' t

/-- A statement with an expression, of which what remains is put in place. -/
theorem runs_value {own : Nat → Trace} {inliner : Inliner} {stmt : Stmt} {value : Expr}
    {plug : Stmt → Block} (make : Expr → Stmt) (h : visit.At own (plug stmt) inliner)
    (hcalls : ∀ call ∈ value.calls, call ∈ Block.calls visit.body)
    (hmake : ∀ {hoisted value' t}, Expr.Expands module visit.site.caller value hoisted value' t →
      Stmt.Expands module visit.site.caller stmt hoisted (make value') t)
    (hplug : visit.Plugs (own visit.site.position) (visit.StmtForm stmt) plug) :
    visit.Runs (do
        let (hoisted, value) ← value.expand visit.site
        visit.site.publish (plug (make value))
        return (hoisted, make value))
      own inliner (fun r => plug r.2) fun r t _ =>
        Stmt.Expands module visit.site.caller stmt r.1 r.2 t ∧ t.complete = true := by
  refine (runs_expr value h hcalls).bind ?_
  rintro ⟨hoisted, value'⟩ t own₁ inliner₁ h₁ hown - hvalue
  refine (hplug.publish h₁ hown ⟨t, ⟨hoisted, hmake hvalue⟩, Trace.Within.refl t⟩).bind ?_
  rintro - - own₂ inliner₂ h₂ - - rfl
  refine Runs.pure h₂ rfl ?_
  rw [Trace.append_empty, Trace.append_empty]
  exact ⟨hmake hvalue, hvalue.trace.2⟩

mutual

theorem runs_stmt : ∀ (stmt : Stmt) {plug : Stmt → Block} {own : Nat → Trace} {inliner : Inliner},
    visit.At own (plug stmt) inliner →
    (∀ call ∈ stmt.gather Stmt.ownCalls, call ∈ Block.calls visit.body) →
    (∀ name ∈ stmt.gather Stmt.ownDefinition, name ∈ Block.definitions visit.body) →
    visit.Plugs (own visit.site.position) (visit.StmtForm stmt) plug →
    visit.Runs (stmt.expand visit.site plug) own inliner (fun r => plug r.2) fun r t _ =>
      Stmt.Expands module visit.site.caller stmt r.1 r.2 t ∧ t.complete = true
  | .expr value, plug, own, inliner, h, hcalls, hdefs, hplug => by
    rw [Stmt.expand]
    rw [Stmt.gather_expr] at hcalls
    exact runs_value .expr h hcalls .expr hplug
  | .assign targets value, plug, own, inliner, h, hcalls, hdefs, hplug => by
    rw [Stmt.expand]
    rw [Stmt.gather_assign] at hcalls
    exact runs_value (.assign targets) h hcalls (.assign targets) hplug
  | .declare vars none, plug, own, inliner, h, hcalls, hdefs, hplug => by
    rw [Stmt.expand]
    exact Runs.pure h rfl ⟨.empty vars, rfl⟩
  | .declare vars (some value), plug, own, inliner, h, hcalls, hdefs, hplug => by
    rw [Stmt.expand]
    rw [Stmt.gather_declare] at hcalls
    exact runs_value (fun value => .declare vars (some value)) h hcalls (.declare vars) hplug
  | .define function, plug, own, inliner, h, hcalls, hdefs, hplug => by
    rw [Stmt.expand]
    refine Runs.throw ⟨visit.body, body_mem, hdefs function.name ?_⟩
    rw [Stmt.gather_define]
    exact List.mem_append_left _ (List.mem_singleton_self _)
  | .branch condition body, plug, own, inliner, h, hcalls, hdefs, hplug => by
    rw [Stmt.expand]
    rw [Stmt.gather_branch, List.forall_mem_append] at hcalls hdefs
    refine (runs_expr condition h hcalls.1).bind ?_
    rintro ⟨hoisted, condition'⟩ t own₁ inliner₁ h₁ hown₁ - hcondition
    obtain ⟨t₀, huntouched, hempty⟩ :=
      Block.Expands.untouched module visit.site.caller body
    refine (hplug.publish (a := .branch condition' body) h₁ hown₁
      ⟨_, ⟨hoisted, .branch hcondition huntouched⟩,
        (Trace.Within.refl t).append_empty hempty⟩).bind ?_
    rintro - - own₂ inliner₂ h₂ hown₂ - rfl
    have hinner := hplug.inside t (fun body' => .branch condition' body')
      fun body' t' (hbody : Block.Expands module visit.site.caller body body' t') =>
        ⟨_, ⟨hoisted, .branch hcondition hbody⟩, Trace.Within.refl _⟩
    rw [← hown₁, ← Trace.append_empty (own₁ _), ← hown₂] at hinner
    refine (runs_block body h₂ hcalls.2 hdefs.2 hinner).bind ?_
    rintro body' t' own₃ inliner₃ h₃ - - ⟨hbody, hcomplete⟩
    refine Runs.pure h₃ rfl ?_
    simp only [Trace.append_empty, Trace.empty_append, Trace.complete_append]
    exact ⟨.branch hcondition hbody, hcondition.trace.2, hcomplete⟩
  | .switch scrutinee cases, plug, own, inliner, h, hcalls, hdefs, hplug => by
    rw [Stmt.expand]
    rw [Stmt.gather_switch, List.forall_mem_append] at hcalls hdefs
    refine (runs_expr scrutinee h hcalls.1).bind ?_
    rintro ⟨hoisted, scrutinee'⟩ t own₁ inliner₁ h₁ hown₁ - hscrutinee
    obtain ⟨t₀, huntouched, hempty⟩ :=
      Case.Expands.untouched module visit.site.caller cases
    refine (hplug.publish (a := .switch scrutinee' cases) h₁ hown₁
      ⟨_, ⟨hoisted, .switch hscrutinee huntouched⟩,
        (Trace.Within.refl t).append_empty hempty⟩).bind ?_
    rintro - - own₂ inliner₂ h₂ hown₂ - rfl
    have hinner := hplug.inside t (fun cases' => .switch scrutinee' cases')
      fun cases' t' (hcases : Case.Expands module visit.site.caller cases cases' t') =>
        ⟨_, ⟨hoisted, .switch hscrutinee hcases⟩, Trace.Within.refl _⟩
    rw [← hown₁, ← Trace.append_empty (own₁ _), ← hown₂] at hinner
    refine (runs_cases cases h₂ hcalls.2 hdefs.2 hinner).bind ?_
    rintro cases' t' own₃ inliner₃ h₃ - - ⟨hcases, hcomplete⟩
    refine Runs.pure h₃ rfl ?_
    simp only [Trace.append_empty, Trace.empty_append, Trace.complete_append]
    exact ⟨.switch hscrutinee hcases, hscrutinee.trace.2, hcomplete⟩
  | .loop init condition step body, plug, own, inliner, h, hcalls, hdefs, hplug => by
    rw [Stmt.expand]
    rw [Stmt.gather_loop] at hcalls hdefs
    simp only [List.forall_mem_append] at hcalls hdefs
    obtain ⟨-, ⟨hcalls₁, hcalls₂⟩, hcalls₃⟩ := hcalls
    obtain ⟨-, ⟨hdefs₁, hdefs₂⟩, hdefs₃⟩ := hdefs
    obtain ⟨t₁, huntouched₁, hempty₁⟩ :=
      Block.Expands.untouched module visit.site.caller step
    obtain ⟨t₂, huntouched₂, hempty₂⟩ :=
      Block.Expands.untouched module visit.site.caller body
    have hinner := hplug.inside {} (fun init' => .loop init' condition step body)
      fun init' t (hinit : Block.Expands module visit.site.caller init init' t) =>
        ⟨_, ⟨[], .loop condition hinit huntouched₁ huntouched₂⟩,
          ((Trace.Within.refl _).append_empty hempty₁).append_empty hempty₂⟩
    rw [Trace.append_empty] at hinner
    refine (runs_block init h hcalls₁ hdefs₁ hinner).bind ?_
    rintro init' t own₁ inliner₁ h₁ hown₁ - ⟨hinit, hcomplete₁⟩
    have hinner₁ := hplug.inside t (fun step' => .loop init' condition step' body)
      fun step' t' (hstep : Block.Expands module visit.site.caller step step' t') =>
        ⟨_, ⟨[], .loop condition hinit hstep huntouched₂⟩,
          (Trace.Within.refl _).append_empty hempty₂⟩
    rw [← hown₁] at hinner₁
    refine (runs_block step h₁ hcalls₂ hdefs₂ hinner₁).bind ?_
    rintro step' t' own₂ inliner₂ h₂ hown₂ - ⟨hstep, hcomplete₂⟩
    have hinner₂ := hplug.inside (t ++ t')
      (fun body' => .loop init' condition step' body')
      fun body' t'' (hbody : Block.Expands module visit.site.caller body body' t'') =>
        ⟨_, ⟨[], .loop condition hinit hstep hbody⟩, Trace.Within.refl _⟩
    rw [← Trace.append_assoc, ← hown₁, ← hown₂] at hinner₂
    refine (runs_block body h₂ hcalls₃ hdefs₃ hinner₂).bind ?_
    rintro body' t'' own₃ inliner₃ h₃ - - ⟨hbody, hcomplete₃⟩
    refine Runs.pure h₃ rfl ?_
    rw [Trace.append_empty, ← Trace.append_assoc]
    simp only [Trace.complete_append]
    exact ⟨.loop condition hinit hstep hbody, ⟨hcomplete₁, hcomplete₂⟩, hcomplete₃⟩
  | .block body, plug, own, inliner, h, hcalls, hdefs, hplug => by
    rw [Stmt.expand]
    rw [Stmt.gather_block, List.forall_mem_append] at hcalls hdefs
    have hinner := hplug.inside {} (fun body' => .block body')
      fun body' t (hbody : Block.Expands module visit.site.caller body body' t) =>
        ⟨_, ⟨[], .block hbody⟩, Trace.Within.refl _⟩
    rw [Trace.append_empty] at hinner
    refine (runs_block body h hcalls.2 hdefs.2 hinner).bind ?_
    rintro body' t own₁ inliner₁ h₁ - - ⟨hbody, hcomplete⟩
    refine Runs.pure h₁ rfl ?_
    rw [Trace.append_empty]
    exact ⟨.block hbody, hcomplete⟩

theorem runs_cases : ∀ (cases : List Case) {plug : List Case → Block} {own : Nat → Trace}
    {inliner : Inliner}, visit.At own (plug cases) inliner →
    (∀ call ∈ Case.gather Stmt.ownCalls cases, call ∈ Block.calls visit.body) →
    (∀ name ∈ Case.gather Stmt.ownDefinition cases, name ∈ Block.definitions visit.body) →
    visit.Plugs (own visit.site.position) (Case.Expands module visit.site.caller cases) plug →
    visit.Runs (Case.expandCases visit.site plug cases) own inliner plug fun cases' t _ =>
      Case.Expands module visit.site.caller cases cases' t ∧ t.complete = true
  | [], plug, own, inliner, h, hcalls, hdefs, hplug => by
    rw [Case.expandCases]
    exact Runs.pure h rfl ⟨.nil, rfl⟩
  | ⟨value, body⟩ :: cases, plug, own, inliner, h, hcalls, hdefs, hplug => by
    rw [Case.expandCases]
    rw [Case.gather_cons, List.forall_mem_append] at hcalls hdefs
    obtain ⟨t₀, huntouched, hempty⟩ :=
      Case.Expands.untouched module visit.site.caller cases
    have hinner := hplug.inside {} (fun body' => ⟨value, body'⟩ :: cases)
      fun body' t (hbody : Block.Expands module visit.site.caller body body' t) =>
        ⟨_, .cons value hbody huntouched, (Trace.Within.refl _).append_empty hempty⟩
    rw [Trace.append_empty] at hinner
    refine (runs_block body h hcalls.1 hdefs.1 hinner).bind ?_
    rintro body' t own₁ inliner₁ h₁ hown₁ - ⟨hbody, hcomplete⟩
    have hinner₁ := hplug.inside t (fun cases' => ⟨value, body'⟩ :: cases')
      fun cases' t' (hcases : Case.Expands module visit.site.caller cases cases' t') =>
        ⟨_, .cons value hbody hcases, Trace.Within.refl _⟩
    rw [← hown₁] at hinner₁
    refine (runs_cases cases h₁ hcalls.2 hdefs.2 hinner₁).bind ?_
    rintro cases' t' own₂ inliner₂ h₂ - - ⟨hcases, hcomplete'⟩
    refine Runs.pure h₂ rfl ?_
    rw [Trace.append_empty, Trace.complete_append]
    exact ⟨.cons value hbody hcases, hcomplete, hcomplete'⟩

theorem runs_block : ∀ (block : Block) {plug : Block → Block} {own : Nat → Trace}
    {inliner : Inliner}, visit.At own (plug block) inliner →
    (∀ call ∈ Block.gather Stmt.ownCalls block, call ∈ Block.calls visit.body) →
    (∀ name ∈ Block.gather Stmt.ownDefinition block, name ∈ Block.definitions visit.body) →
    visit.Plugs (own visit.site.position) (Block.Expands module visit.site.caller block) plug →
    visit.Runs (Block.expand visit.site plug block) own inliner plug fun block' t _ =>
      Block.Expands module visit.site.caller block block' t ∧ t.complete = true
  | [], plug, own, inliner, h, hcalls, hdefs, hplug => by
    rw [Block.expand]
    exact Runs.pure h rfl ⟨.nil, rfl⟩
  | stmt :: stmts, plug, own, inliner, h, hcalls, hdefs, hplug => by
    rw [Block.expand]
    rw [Block.gather_cons, List.forall_mem_append] at hcalls hdefs
    obtain ⟨t₀, huntouched, hempty⟩ :=
      Block.Expands.untouched module visit.site.caller stmts
    have hheld : ∀ held, (Trace.onHold held).Within {} := fun held =>
      ⟨List.Sublist.refl _, List.Sublist.refl _⟩
    have hinner := hplug.inside {} (fun stmt' => stmt' :: stmts)
      fun stmt' t (hstmt : visit.StmtForm stmt stmt' t) => by
        obtain ⟨hoisted, hstmt⟩ := hstmt
        exact ⟨_, .hold hstmt huntouched,
          ((Trace.Within.refl _).append_empty (hheld hoisted)).append_empty hempty⟩
    rw [Trace.append_empty] at hinner
    refine (runs_stmt stmt h hcalls.1 hdefs.1 hinner).bind ?_
    rintro ⟨hoisted, stmt'⟩ t own₁ inliner₁ h₁ hown₁ - ⟨hstmt, hcomplete⟩
    refine (hplug.publish h₁ hown₁ (a := hoisted ++ stmt' :: stmts)
      ⟨_, .cons hstmt huntouched, (Trace.Within.refl t).append_empty hempty⟩).bind ?_
    rintro - - own₂ inliner₂ h₂ hown₂ - rfl
    have hinner₂ := hplug.inside t (fun stmts' => hoisted ++ stmt' :: stmts')
      fun stmts' t' (hstmts : Block.Expands module visit.site.caller stmts stmts' t') =>
        ⟨_, .cons hstmt hstmts, Trace.Within.refl _⟩
    rw [← hown₁, ← Trace.append_empty (own₁ _), ← hown₂] at hinner₂
    refine (runs_block stmts h₂ hcalls.2 hdefs.2 hinner₂).bind ?_
    rintro stmts' t' own₃ inliner₃ h₃ - - ⟨hstmts, hcomplete'⟩
    refine Runs.pure h₃ rfl ?_
    simp only [Trace.append_empty, Trace.empty_append, Trace.complete_append]
    exact ⟨.cons hstmt hstmts, hcomplete, hcomplete'⟩

end

end Visit

end YulInline
