import YulInline.Proofs.BodyCopies

/-!
# What variables refer to

A variable that occurs in a block refers to a declaration in that block, or to something outside.
`Block.referents` resolves all occurrences in order: a name refers to the latest declaration of it
that is in scope, and declarations are told apart by their number in the order in which
`Block.declared` lists them, since a name may be declared several times.

With names taken out of it (`Block.blank`) a tree is left with its shape, its literals, the names of
instructions and functions, the values of cases and the type tags. Two trees of which this is the
same correspond to each other declaration by declaration and occurrence by occurrence, and they are
the same up to the choice of names if corresponding occurrences refer to corresponding declarations.
This is what a copy of a body is to that body, and it holds although the copier keeps a single list
of renames for all scopes (`Block.copy_keeps_references`).
-/

namespace YulInline

/-! ## Trees without the names of variables -/

mutual

theorem Expr.rename_rename (f g : String → String) :
    ∀ e : Expr, (e.rename f).rename g = e.rename (g ∘ f)
  | .literal value => by simp only [Expr.rename]
  | .ident name => by simp only [Expr.rename, Function.comp_apply]
  | .instr op args => by
    rw [Expr.rename, Expr.rename, Expr.rename, Expr.renameAll_renameAll f g args]
  | .call callee args => by
    rw [Expr.rename, Expr.rename, Expr.rename, Expr.renameAll_renameAll f g args]

theorem Expr.renameAll_renameAll (f g : String → String) :
    ∀ args : List Expr, Expr.renameAll g (Expr.renameAll f args) = Expr.renameAll (g ∘ f) args
  | [] => rfl
  | arg :: args => by
    rw [Expr.renameAll, Expr.renameAll, Expr.renameAll, Expr.rename_rename f g arg,
      Expr.renameAll_renameAll f g args]

end

/-- The expression with every variable made nameless. -/
def Expr.blank (e : Expr) : Expr :=
  e.rename fun _ => ""

theorem Expr.blank_rename (f : String → String) (e : Expr) : (e.rename f).blank = e.blank :=
  e.rename_rename f _

/-- The declared variable without its name. -/
def TypedName.blank (var : TypedName) : TypedName :=
  { var with name := "" }

mutual

/-- The statement with every variable made nameless. -/
def Stmt.blank : Stmt → Stmt
  | .expr value => .expr value.blank
  | .assign targets value => .assign (targets.map fun _ => "") value.blank
  | .declare vars value => .declare (vars.map (·.blank)) (value.map (·.blank))
  | .define ⟨name, params, returns, body⟩ =>
    .define ⟨name, params.map (·.blank), returns.map (·.blank), Block.blank body⟩
  | .branch condition body => .branch condition.blank (Block.blank body)
  | .switch scrutinee cases => .switch scrutinee.blank (Case.blankCases cases)
  | .loop init condition step body =>
    .loop (Block.blank init) condition.blank (Block.blank step) (Block.blank body)
  | .block body => .block (Block.blank body)

/-- The cases with every variable made nameless. -/
def Case.blankCases : List Case → List Case
  | [] => []
  | ⟨value, body⟩ :: cases => ⟨value, Block.blank body⟩ :: Case.blankCases cases

/-- The block with every variable made nameless. -/
def Block.blank : List Stmt → List Stmt
  | [] => []
  | stmt :: stmts => stmt.blank :: Block.blank stmts

end

theorem TypedName.map_blank {vars vars' : List TypedName}
    (htypes : vars'.map (·.type) = vars.map (·.type)) :
    vars'.map (·.blank) = vars.map (·.blank) := by
  have hblank : ∀ vars : List TypedName, vars.map (·.blank) = (vars.map (·.type)).map (⟨"", ·⟩) :=
    fun vars => by rw [List.map_map]; rfl
  rw [hblank, hblank, htypes]

mutual

/-- Renaming does not matter to what is nameless. -/
theorem Stmt.Renamed.blank_eq {f g : String → String} {stmt stmt' : Stmt} :
    Stmt.Renamed f stmt stmt' g → stmt'.blank = stmt.blank
  | .expr f value => by rw [Stmt.blank, Stmt.blank, Expr.blank_rename]
  | .assign f targets value => by
    rw [Stmt.blank, Stmt.blank, Expr.blank_rename, List.map_map]
    rfl
  | .declare f value htypes => by
    rw [Stmt.blank, Stmt.blank, TypedName.map_blank htypes, Option.map_map]
    exact congrArg _ (Option.map_congr fun e _ => e.blank_rename f)
  | .branch condition hbody => by
    rw [Stmt.blank, Stmt.blank, Expr.blank_rename, hbody.blank_eq]
  | .switch scrutinee hcases => by
    rw [Stmt.blank, Stmt.blank, Expr.blank_rename, hcases.blank_eq]
  | .loop condition hinit hstep hbody => by
    rw [Stmt.blank, Stmt.blank, Expr.blank_rename, hinit.blank_eq, hstep.blank_eq, hbody.blank_eq]
  | .block hbody => by
    rw [Stmt.blank, Stmt.blank, hbody.blank_eq]

theorem Case.Renamed.blank_eq {f : String → String} {cases cases' : List Case} :
    Case.Renamed f cases cases' → Case.blankCases cases' = Case.blankCases cases
  | .nil f => rfl
  | .cons value hbody hcases => by
    rw [Case.blankCases, Case.blankCases, hbody.blank_eq, hcases.blank_eq]

theorem Block.Renamed.blank_eq {f g : String → String} {block block' : Block} :
    Block.Renamed f block block' g → Block.blank block' = Block.blank block
  | .nil f => rfl
  | .cons hstmt hstmts => by
    rw [Block.blank, Block.blank, hstmt.blank_eq, hstmts.blank_eq]

end

/-! ## Resolving names -/

/-- What a name refers to. -/
inductive Referent where
  /-- Something outside the tree, which has that name. -/
  | outer (name : String)
  /-- The declaration with that number. -/
  | own (index : Nat)
deriving DecidableEq, Repr

namespace Referent

/-- The referent where what is outside the tree has other names. -/
def rename (f : String → String) : Referent → Referent
  | outer name => outer (f name)
  | own index => own index

/-- What names refer to once `names` have been declared, the first of which is declaration number
`k`. -/
def bind (resolve : String → Referent) (k : Nat) : List String → String → Referent
  | [] => resolve
  | name :: names => bind (Function.update resolve name (.own k)) (k + 1) names

end Referent

/-- What names refer to behind a block whose declarations are numbered from `k` on. -/
def Block.resolveAfter (resolve : String → Referent) (k : Nat) : List Stmt → String → Referent
  | [] => resolve
  | stmt :: stmts =>
    Block.resolveAfter (Referent.bind resolve k stmt.declares)
      (k + (stmt.gather Stmt.introduced).length) stmts

mutual

/-- What the occurrences of variables in a statement refer to. In front of it names refer to what
`resolve` says, and its declarations are numbered from `k` on. -/
def Stmt.referents (resolve : String → Referent) (k : Nat) : Stmt → List Referent
  | .expr value => value.vars.map resolve
  | .assign targets value => (targets ++ value.vars).map resolve
  | .declare _ value => (Expr.varsOfValue value).map resolve
  | .define ⟨_, params, returns, body⟩ =>
    let names := params.map (·.name) ++ returns.map (·.name)
    Block.referents (Referent.bind .outer (k + 1) names) (k + 1 + names.length) body
  | .branch condition body => condition.vars.map resolve ++ Block.referents resolve k body
  | .switch scrutinee cases => scrutinee.vars.map resolve ++ Case.referents resolve k cases
  | .loop init condition step body =>
    let inside := Block.resolveAfter resolve k init
    let behindInit := k + (Block.declared init).length
    condition.vars.map inside ++
      (Block.referents resolve k init ++ Block.referents inside behindInit step ++
        Block.referents inside (behindInit + (Block.declared step).length) body)
  | .block body => Block.referents resolve k body

/-- The same for the blocks of a list of cases. -/
def Case.referents (resolve : String → Referent) (k : Nat) : List Case → List Referent
  | [] => []
  | ⟨_, body⟩ :: cases =>
    Block.referents resolve k body ++
      Case.referents resolve (k + (Block.declared body).length) cases

/-- The same for a block, in which the declarations of a statement are in scope for what follows. -/
def Block.referents (resolve : String → Referent) (k : Nat) : List Stmt → List Referent
  | [] => []
  | stmt :: stmts =>
    stmt.referents resolve k ++
      Block.referents (Referent.bind resolve k stmt.declares)
        (k + (stmt.gather Stmt.introduced).length) stmts

end

/-! ## Names and their referents -/

/-- What is referred to goes by a name: it is outside and has that name, or the declaration with its
number is one of that name. -/
def Referent.GoesBy (declared : List String) (name : String) : Referent → Prop
  | .outer other => other = name
  | .own index => declared[index]? = some name

/-- In a list of declared names, those from number `k` on begin with `names`. -/
def Numbered (declared : List String) (k : Nat) (names : List String) : Prop :=
  ∃ rest, declared.drop k = names ++ rest

namespace Numbered

variable {declared names later : List String} {k : Nat}

theorem left (h : Numbered declared k (names ++ later)) : Numbered declared k names := by
  obtain ⟨rest, hrest⟩ := h
  exact ⟨later ++ rest, by rw [hrest, List.append_assoc]⟩

theorem right (h : Numbered declared k (names ++ later)) :
    Numbered declared (k + names.length) later := by
  obtain ⟨rest, hrest⟩ := h
  exact ⟨rest, by rw [← List.drop_drop, hrest, List.append_assoc, List.drop_left]⟩

theorem getElem? {name : String} (h : Numbered declared k (name :: names)) :
    declared[k]? = some name := by
  obtain ⟨rest, hrest⟩ := h
  have hhead := congrArg List.head? hrest
  rwa [List.head?_drop] at hhead

/-- Names go by their declarations, also behind further ones. -/
theorem goesBy {resolve : String → Referent} (h : Numbered declared k names)
    (hresolve : ∀ name, (resolve name).GoesBy declared name) (name : String) :
    (Referent.bind resolve k names name).GoesBy declared name := by
  induction names generalizing resolve k with
  | nil => exact hresolve name
  | cons head names ih =>
    rw [Referent.bind]
    refine ih (@right declared [head] names k h) fun other => ?_
    by_cases heq : other = head
    · rw [heq, Function.update_self]
      exact h.getElem?
    · rw [Function.update_of_ne heq]
      exact hresolve other

end Numbered

section GoesBy

variable {declared : List String}

theorem Stmt.declares_numbered {stmt : Stmt} {k : Nat}
    (h : Numbered declared k (stmt.gather Stmt.introduced)) : Numbered declared k stmt.declares := by
  cases stmt with
  | declare vars value => simpa [Stmt.introduced, Stmt.declares] using h
  | _ => exact ⟨declared.drop k, rfl⟩

theorem Block.resolveAfter_goesBy (block : Block) {resolve : String → Referent} {k : Nat}
    (h : Numbered declared k (Block.gather Stmt.introduced block))
    (hresolve : ∀ name, (resolve name).GoesBy declared name) (name : String) :
    (Block.resolveAfter resolve k block name).GoesBy declared name := by
  induction block generalizing resolve k with
  | nil => exact hresolve name
  | cons stmt stmts ih =>
    rw [Block.gather_cons] at h
    exact ih h.right (Stmt.declares_numbered h.left |>.goesBy hresolve)

theorem forall₂_goesBy {resolve : String → Referent}
    (hresolve : ∀ name, (resolve name).GoesBy declared name) (names : List String) :
    List.Forall₂ (fun name referent => referent.GoesBy declared name) names (names.map resolve) :=
  List.forall₂_map_right_iff.mpr (List.forall₂_same.mpr fun name _ => hresolve name)

mutual

/-- The referents of a statement are those of the names that occur in it, in order. -/
theorem Stmt.referents_goBy : ∀ (stmt : Stmt) {resolve : String → Referent} {k : Nat},
    Numbered declared k (stmt.gather Stmt.introduced) →
    (∀ name, (resolve name).GoesBy declared name) →
    List.Forall₂ (fun name referent => referent.GoesBy declared name)
      (stmt.gather Stmt.ownMentions) (stmt.referents resolve k)
  | .expr value, resolve, k, _, hresolve => by
    rw [Stmt.gather_expr, Stmt.referents]
    exact forall₂_goesBy hresolve _
  | .assign targets value, resolve, k, _, hresolve => by
    rw [Stmt.gather_assign, Stmt.referents]
    exact forall₂_goesBy hresolve _
  | .declare vars value, resolve, k, _, hresolve => by
    rw [Stmt.gather_declare, Stmt.referents]
    exact forall₂_goesBy hresolve _
  | .define ⟨name, params, returns, body⟩, resolve, k, h, hresolve => by
    rw [Stmt.gather_define] at h ⊢
    rw [Stmt.referents]
    have hinterface := @Numbered.right declared [name] _ k h.left
    have hbody := h.right
    rw [Stmt.introduced, List.length_cons, Nat.add_comm _ 1, ← Nat.add_assoc] at hbody
    exact Block.referents_goBy body hbody (hinterface.goesBy fun _ => rfl)
  | .branch condition body, resolve, k, h, hresolve => by
    rw [Stmt.gather_branch] at h ⊢
    rw [Stmt.referents]
    exact List.rel_append (forall₂_goesBy hresolve _) (Block.referents_goBy body h hresolve)
  | .switch scrutinee cases, resolve, k, h, hresolve => by
    rw [Stmt.gather_switch] at h ⊢
    rw [Stmt.referents]
    exact List.rel_append (forall₂_goesBy hresolve _) (Case.referents_goBy cases h hresolve)
  | .loop init condition step body, resolve, k, h, hresolve => by
    rw [Stmt.gather_loop] at h ⊢
    rw [Stmt.referents]
    simp only [Stmt.introduced, List.nil_append] at h
    have hinside := Block.resolveAfter_goesBy init h.left.left hresolve
    have hbody := h.right
    rw [List.length_append, ← Nat.add_assoc] at hbody
    exact List.rel_append (forall₂_goesBy hinside _) (List.rel_append
      (List.rel_append (Block.referents_goBy init h.left.left hresolve)
        (Block.referents_goBy step h.left.right hinside)) (Block.referents_goBy body hbody hinside))
  | .block body, resolve, k, h, hresolve => by
    rw [Stmt.gather_block] at h ⊢
    rw [Stmt.referents]
    exact Block.referents_goBy body h hresolve

theorem Case.referents_goBy : ∀ (cases : List Case) {resolve : String → Referent} {k : Nat},
    Numbered declared k (Case.gather Stmt.introduced cases) →
    (∀ name, (resolve name).GoesBy declared name) →
    List.Forall₂ (fun name referent => referent.GoesBy declared name)
      (Case.gather Stmt.ownMentions cases) (Case.referents resolve k cases)
  | [], resolve, k, _, _ => by
    rw [Case.gather_nil, Case.referents]
    exact .nil
  | ⟨value, body⟩ :: cases, resolve, k, h, hresolve => by
    rw [Case.gather_cons] at h ⊢
    rw [Case.referents]
    exact List.rel_append (Block.referents_goBy body h.left hresolve)
      (Case.referents_goBy cases h.right hresolve)

theorem Block.referents_goBy : ∀ (block : Block) {resolve : String → Referent} {k : Nat},
    Numbered declared k (Block.gather Stmt.introduced block) →
    (∀ name, (resolve name).GoesBy declared name) →
    List.Forall₂ (fun name referent => referent.GoesBy declared name)
      (Block.gather Stmt.ownMentions block) (Block.referents resolve k block)
  | [], resolve, k, _, _ => by
    rw [Block.gather_nil, Block.referents]
    exact .nil
  | stmt :: stmts, resolve, k, h, hresolve => by
    rw [Block.gather_cons] at h ⊢
    rw [Block.referents]
    exact List.rel_append (Stmt.referents_goBy stmt h.left hresolve)
      (Block.referents_goBy stmts h.right ((Stmt.declares_numbered h.left).goesBy hresolve))

end

end GoesBy

/-! ## References of renamed blocks -/

mutual

/-- Renaming keeps the number of declarations. -/
theorem Stmt.Renamed.length_declared {f g : String → String} {stmt stmt' : Stmt} :
    Stmt.Renamed f stmt stmt' g →
      (stmt'.gather Stmt.introduced).length = (stmt.gather Stmt.introduced).length
  | .expr f value => by simp [Stmt.introduced]
  | .assign f targets value => by simp [Stmt.introduced]
  | .declare f value htypes => by
    have hlength := congrArg List.length htypes
    simpa [Stmt.introduced] using hlength
  | .branch condition hbody => by simp [Stmt.introduced, hbody.length_declared]
  | .switch scrutinee hcases => by simp [Stmt.introduced, hcases.length_declared]
  | .loop condition hinit hstep hbody => by
    simp [Stmt.introduced, hinit.length_declared, hstep.length_declared, hbody.length_declared]
  | .block hbody => by simp [Stmt.introduced, hbody.length_declared]

theorem Case.Renamed.length_declared {f : String → String} {cases cases' : List Case} :
    Case.Renamed f cases cases' →
      (Case.gather Stmt.introduced cases').length = (Case.gather Stmt.introduced cases).length
  | .nil f => rfl
  | .cons value hbody hcases => by simp [hbody.length_declared, hcases.length_declared]

theorem Block.Renamed.length_declared {f g : String → String} {block block' : Block} :
    Block.Renamed f block block' g →
      (Block.gather Stmt.introduced block').length = (Block.gather Stmt.introduced block).length
  | .nil f => rfl
  | .cons hstmt hstmts => by simp [hstmt.length_declared, hstmts.length_declared]

end

/-- Where `resolve` says what the variables `vars` refer to, and `resolve'` what `vars'` do, a
variable that `f` gives another name refers to the same under that name, but for the names that `σ`
gives to what is outside. -/
structure Tracks (σ f : String → String) (vars vars' : List String)
    (resolve resolve' : String → Referent) : Prop where
  mem : ∀ name ∈ vars, f name ∈ vars'
  refers : ∀ name ∈ vars, resolve' (f name) = (resolve name).rename σ

namespace Tracks

variable {σ f : String → String} {vars vars' : List String} {resolve resolve' : String → Referent}

theorem mono {fewer more : List String} (h : Tracks σ f vars vars' resolve resolve')
    (hfewer : fewer ⊆ vars) (hmore : vars' ⊆ more) : Tracks σ f fewer more resolve resolve' :=
  ⟨fun name hname => hmore (h.mem name (hfewer hname)), fun name hname => h.refers name (hfewer hname)⟩

/-- Occurrences in scope refer to what corresponds. -/
theorem map_eq (h : Tracks σ f vars vars' resolve resolve') {names : List String}
    (hnames : names ⊆ vars) :
    (names.map f).map resolve' = (names.map resolve).map (·.rename σ) := by
  rw [List.map_map, List.map_map]
  exact List.map_congr_left fun name hname => h.refers name (hnames hname)

theorem bind_one (h : Tracks σ f vars vars' resolve resolve') (name : String) {new : String}
    (hnew : new ∉ vars') (k : Nat) :
    Tracks σ (Function.update f name new) (name :: vars) (new :: vars')
      (Function.update resolve name (.own k)) (Function.update resolve' new (.own k)) := by
  have hold : ∀ other ∈ name :: vars, other ≠ name → other ∈ vars := fun other hother hne =>
    (List.mem_cons.mp hother).resolve_left hne
  refine ⟨fun other hother => ?_, fun other hother => ?_⟩
  · by_cases heq : other = name
    · rw [heq, Function.update_self]
      exact List.mem_cons_self ..
    · rw [Function.update_of_ne heq]
      exact List.mem_cons_of_mem _ (h.mem other (hold other hother heq))
  · by_cases heq : other = name
    · rw [heq, Function.update_self, Function.update_self, Function.update_self]
      rfl
    · have hmem := h.mem other (hold other hother heq)
      have hne : f other ≠ new := fun hsame => hnew (hsame ▸ hmem)
      rw [Function.update_of_ne heq, Function.update_of_ne heq, Function.update_of_ne hne]
      exact h.refers other (hold other hother heq)

/-- Declarations with the same numbers correspond to each other. -/
theorem bind {names news : List String} (h : Tracks σ f vars vars' resolve resolve')
    (hlength : names.length = news.length) (hnews : Declarable taken vars' news) (k : Nat) :
    Tracks σ (rebind f names news) (names ++ vars) (news ++ vars')
      (Referent.bind resolve k names) (Referent.bind resolve' k news) := by
  induction names generalizing f vars vars' resolve resolve' news k with
  | nil =>
    obtain rfl := List.eq_nil_of_length_eq_zero hlength.symm
    exact h
  | cons name names ih =>
    cases news with
    | nil => cases hlength
    | cons new news =>
      obtain ⟨hnodup, hfresh⟩ := hnews
      obtain ⟨hnew, hnodup⟩ := List.nodup_cons.mp hnodup
      rw [List.forall_mem_cons] at hfresh
      have hlater : Declarable taken (new :: vars') news := by
        refine ⟨hnodup, fun other hother => ⟨fun hmem => ?_, (hfresh.2 other hother).2⟩⟩
        rcases List.mem_cons.mp hmem with rfl | hmem
        · exact hnew hother
        · exact (hfresh.2 other hother).1 hmem
      have hone := h.bind_one name hfresh.1.1 k
      refine (ih hone (Nat.succ.inj hlength) hlater (k + 1)).mono ?_ ?_
      · intro other hother
        simp only [List.cons_append, List.mem_cons, List.mem_append] at hother ⊢
        tauto
      · intro other hother
        simp only [List.cons_append, List.mem_cons, List.mem_append] at hother ⊢
        tauto

end Tracks

section Renamed

variable {taken taken' : List String} {σ : String → String}

/-- Behind a statement, too, variables refer to what corresponds. -/
theorem Stmt.Renamed.tracks {f g : String → String} {stmt stmt' : Stmt} {vars vars' : List String}
    {resolve resolve' : String → Referent} (h : Stmt.Renamed f stmt stmt' g)
    (hf : Tracks σ f vars vars' resolve resolve') (hnew : Declarable taken' vars' stmt'.declares)
    (k : Nat) :
    Tracks σ g (stmt.declares ++ vars) (stmt'.declares ++ vars')
      (Referent.bind resolve k stmt.declares) (Referent.bind resolve' k stmt'.declares) := by
  cases h with
  | declare _ value htypes =>
    have hlength := congrArg List.length htypes
    exact hf.bind (by simpa [Stmt.declares] using hlength.symm) hnew k
  | _ => exact hf

mutual

/-- If the names that a renamed statement declares are new, what occurs in it refers to what
corresponds. -/
theorem Stmt.Renamed.referents_eq {f g : String → String} {stmt stmt' : Stmt}
    {vars vars' : List String} {resolve resolve' : String → Referent} :
    Stmt.Renamed f stmt stmt' g → stmt.Scoped taken vars → Tracks σ f vars vars' resolve resolve' →
      Declarable taken' vars' (stmt'.gather Stmt.introduced) → ∀ k,
      stmt'.referents resolve' k = (stmt.referents resolve k).map (·.rename σ)
  | .expr f value, hscoped, hf, hnew, k => by
    rw [Stmt.Scoped] at hscoped
    rw [Stmt.referents, Stmt.referents, Expr.vars_rename]
    exact hf.map_eq hscoped
  | .assign f targets value, hscoped, hf, hnew, k => by
    rw [Stmt.Scoped] at hscoped
    rw [Stmt.referents, Stmt.referents, Expr.vars_rename, ← List.map_append]
    exact hf.map_eq (List.append_subset.mpr hscoped)
  | .declare f value htypes, hscoped, hf, hnew, k => by
    rw [Stmt.Scoped] at hscoped
    rw [Stmt.referents, Stmt.referents, Expr.varsOfValue_rename]
    exact hf.map_eq hscoped.2
  | .branch condition hbody, hscoped, hf, hnew, k => by
    rw [Stmt.Scoped] at hscoped
    rw [Stmt.gather_branch] at hnew
    rw [Stmt.referents, Stmt.referents, Expr.vars_rename, List.map_append, hf.map_eq hscoped.1,
      (hbody.referents_eq hscoped.2 hf hnew.right k).1]
  | .switch scrutinee hcases, hscoped, hf, hnew, k => by
    rw [Stmt.Scoped] at hscoped
    rw [Stmt.gather_switch] at hnew
    rw [Stmt.referents, Stmt.referents, Expr.vars_rename, List.map_append, hf.map_eq hscoped.1,
      hcases.referents_eq hscoped.2 hf hnew.right k]
  | .loop condition hinit hstep hbody, hscoped, hf, hnew, k => by
    rw [Stmt.Scoped] at hscoped
    rw [Stmt.gather_loop] at hnew
    have hnew' := hnew.right
    obtain ⟨hinit', hg⟩ := hinit.referents_eq hscoped.1 hf hnew'.left.left k
    have hsub := Block.declares_subset_declared
    have hstep' := fun k =>
      (hstep.referents_eq hscoped.2.2.1 hg (hnew'.left.later (hsub _)) k).1
    have hbody' := fun k => (hbody.referents_eq hscoped.2.2.2 hg
      (hnew'.later (List.Subset.trans (hsub _) (List.subset_append_left _ _))) k).1
    rw [Stmt.referents, Stmt.referents, Expr.vars_rename]
    simp only [Block.declared, hinit.length_declared, hstep.length_declared, hinit', hstep', hbody',
      hg.map_eq hscoped.2.1, List.map_append]
  | .block hbody, hscoped, hf, hnew, k => by
    rw [Stmt.Scoped] at hscoped
    rw [Stmt.gather_block] at hnew
    rw [Stmt.referents, Stmt.referents, (hbody.referents_eq hscoped hf hnew.right k).1]

theorem Case.Renamed.referents_eq {f : String → String} {cases cases' : List Case}
    {vars vars' : List String} {resolve resolve' : String → Referent} :
    Case.Renamed f cases cases' → Case.Scoped taken vars cases →
      Tracks σ f vars vars' resolve resolve' →
      Declarable taken' vars' (Case.gather Stmt.introduced cases') → ∀ k,
      Case.referents resolve' k cases' = (Case.referents resolve k cases).map (·.rename σ)
  | .nil f, hscoped, hf, hnew, k => rfl
  | .cons value hbody hcases, hscoped, hf, hnew, k => by
    rw [Case.Scoped] at hscoped
    rw [Case.gather_cons] at hnew
    rw [Case.referents, Case.referents, List.map_append, Block.declared, hbody.length_declared,
      (hbody.referents_eq hscoped.1 hf hnew.left k).1, hcases.referents_eq hscoped.2 hf hnew.right]
    rfl

/-- The same for a block, at whose end variables still refer to what corresponds. -/
theorem Block.Renamed.referents_eq {f g : String → String} {block block' : Block}
    {vars vars' : List String} {resolve resolve' : String → Referent} :
    Block.Renamed f block block' g → Block.Scoped taken vars block →
      Tracks σ f vars vars' resolve resolve' →
      Declarable taken' vars' (Block.gather Stmt.introduced block') → ∀ k,
      Block.referents resolve' k block' = (Block.referents resolve k block).map (·.rename σ) ∧
        Tracks σ g (Block.declares block ++ vars) (Block.declares block' ++ vars')
          (Block.resolveAfter resolve k block) (Block.resolveAfter resolve' k block')
  | .nil f, hscoped, hf, hnew, k => ⟨rfl, hf⟩
  | @Block.Renamed.cons _ _ _ stmt stmt' _ _ hstmt hstmts, hscoped, hf, hnew, k => by
    rw [Block.scoped_cons] at hscoped
    rw [Block.gather_cons] at hnew
    have hsub := stmt'.declares_sublist_gather.subset
    have hdeclares : Declarable taken' vars' stmt'.declares :=
      ⟨hnew.left.1.sublist stmt'.declares_sublist_gather,
        fun name hname => hnew.left.2 name (hsub hname)⟩
    have hg := hstmt.tracks hf hdeclares k
    obtain ⟨hlater, hh⟩ := hstmts.referents_eq hscoped.2 hg (hnew.later hsub)
      (k + (stmt.gather Stmt.introduced).length)
    rw [Block.referents, Block.referents, Block.resolveAfter, Block.resolveAfter,
      hstmt.length_declared, List.map_append, hstmt.referents_eq hscoped.1 hf hnew.left k, hlater]
    refine ⟨rfl, hh.mono ?_ ?_⟩
    · intro name hname
      simp only [Block.declares_cons, List.mem_append] at hname ⊢
      tauto
    · intro name hname
      simp only [Block.declares_cons, List.mem_append] at hname ⊢
      tauto

end

end Renamed

/-! ## References of copies -/

/-- The variables that a block refers or assigns to without declaring them. -/
def Block.outer (block : Block) : List String :=
  (Block.mentions block).filter fun name => name ∉ Block.declared block

/-- There is no copy of a block exactly if a function is defined somewhere in it. -/
theorem Block.copy?_eq_error_iff {rule : CopyRule} {block : Block} {copier : Copier} :
    (∃ error reached, Block.copy? rule block copier = .error error reached) ↔
      Block.definitions block ≠ [] := by
  have hcopy := @Block.copy?_gives rule block copier
  rw [Block.definitions]
  cases hrun : Block.copy? rule block copier with
  | ok copy after =>
    rw [hrun] at hcopy
    simp [hcopy.1]
  | error error reached =>
    rw [hrun] at hcopy
    refine iff_of_true ⟨error, reached, rfl⟩ fun hnone => ?_
    rw [hnone] at hcopy
    cases hcopy

/-- If there is a copy, it is the flat one. -/
theorem Block.copy?_eq_ok {rule : CopyRule} {block copy : Block} {copier after : Copier}
    (h : Block.copy? rule block copier = .ok copy after) :
    Block.definitions block = [] ∧ Block.copy rule block copier = (copy, after) := by
  have hcopy := @Block.copy?_gives rule block copier
  rwa [h] at hcopy

/-- At the start of a copy only the substitution counts. -/
theorem Copier.nameFor_start (rule : CopyRule) (supply : NameSupply) (name : String) :
    ({ names := supply } : Copier).nameFor rule name = (rule.substitution.lookup name).getD name := by
  rw [Copier.nameFor, List.lookup_nil, Option.or_none]

/-- A copy of a scoped block is that block up to the choice of names, if all names of the block and
all that the substitution puts in are in use, and the substitution leaves alone what the block
declares. There is a copy unless a function is defined in the block. It differs in names of
variables only; a variable of the block refers in the copy to the corresponding declaration, and any
other one is what the substitution says, if it says anything. The names that the copy declares are
those that were given out for it, which are none of the block and none that the substitution puts
in. -/
theorem Block.copy_keeps_references {rule : CopyRule} {block : Block} {supply : NameSupply}
    (hnames : ∀ name ∈ Block.names block, supply.isUsed name = true)
    (hrange : ∀ key value, rule.substitution.lookup key = some value → supply.isUsed value = true)
    (hkeys : ∀ name ∈ Block.declared block, rule.substitution.lookup name = none)
    (hscoped : Block.Scoped [] (Block.outer block) block) :
    ((∃ error reached, Block.copy? rule block { names := supply } = .error error reached) ↔
      Block.definitions block ≠ []) ∧
    ∀ copy copier, Block.copy? rule block { names := supply } = .ok copy copier →
      Block.blank copy = Block.blank block ∧
      Block.referents .outer 0 copy = (Block.referents .outer 0 block).map
        (·.rename fun name => (rule.substitution.lookup name).getD name) ∧
      Dispensed supply (Block.declared copy) copier.names ∧
      ∀ name ∈ Block.declared copy, name ∉ Block.names block ∧
        ∀ key value, rule.substitution.lookup key = some value → name ≠ value := by
  refine ⟨Block.copy?_eq_error_iff, fun copy copier hcopy => ?_⟩
  obtain ⟨hdefinitions, hresult⟩ := Block.copy?_eq_ok hcopy
  obtain ⟨rfl, rfl⟩ := Prod.mk.inj hresult
  set σ := fun name => (rule.substitution.lookup name).getD name with hσ
  have hgiven := @Block.dispensed_copy rule block { names := supply } hdefinitions
  obtain ⟨g, hrenamed, -⟩ := @Block.copy_renamed rule [] block { names := supply } _ σ hscoped
    hdefinitions hkeys fun name _ => Copier.nameFor_start rule supply name
  have hunused : ∀ name ∈ Block.declared (Block.copy rule block { names := supply }).1,
      supply.isUsed name ≠ true := by
    intro name hname hused
    have hfree := (NameSupply.isFree_iff.mp (hgiven.free name hname)).2
    rw [hused] at hfree
    cases hfree
  have hold : ∀ name ∈ Block.outer block, supply.isUsed (σ name) = true := by
    intro name hname
    show supply.isUsed ((rule.substitution.lookup name).getD name) = true
    cases hlookup : rule.substitution.lookup name with
    | none => exact hnames name (Block.mentions_subset_names block (List.mem_filter.mp hname).1)
    | some value => exact hrange name value hlookup
  have hnew : Declarable [] ((Block.outer block).map σ)
      (Block.declared (Block.copy rule block { names := supply }).1) := by
    refine ⟨hgiven.nodup, fun name hname => ⟨fun hmem => ?_, List.not_mem_nil⟩⟩
    obtain ⟨other, hother, rfl⟩ := List.mem_map.mp hmem
    exact hunused _ hname (hold other hother)
  have hstart : Tracks σ σ (Block.outer block) ((Block.outer block).map σ) .outer .outer :=
    ⟨fun name => List.mem_map_of_mem, fun _ _ => rfl⟩
  refine ⟨hrenamed.blank_eq, (hrenamed.referents_eq hscoped hstart hnew 0).1, hgiven, ?_⟩
  intro name hname
  refine ⟨fun hmem => hunused name hname (hnames name hmem), fun key value hlookup heq => ?_⟩
  exact hunused name hname (heq ▸ hrange key value hlookup)

/-- A body in which variables of the same name are declared in blocks beside each other and in the
cases of a `switch`, one of them in the first part of a loop. -/
def siblings : Block :=
  [.block
      [.declare [⟨"t", ""⟩] (some (.ident "x")),
        .assign ["y"] (.instr "add" [.ident "t", .ident "z"])],
    .loop [.declare [⟨"t", "u8"⟩] none] (.instr "lt" [.ident "t", .ident "x"])
      [.assign ["t"] (.call "g" [.ident "t"])]
      [.switch (.ident "t")
        [⟨some ⟨.number, "0", ""⟩,
            [.declare [⟨"u", ""⟩, ⟨"v", ""⟩] (some (.call "h" [.ident "x"])),
              .assign ["y"] (.ident "v")]⟩,
          ⟨none, [.declare [⟨"v", ""⟩] none, .assign ["y", "v"] (.call "h" [.ident "v"])]⟩]]]

theorem Block.copy_keeps_references_siblings :
    let rule : CopyRule := ⟨"f_", [("y", "f_y"), ("x", "a")]⟩
    let supply := NameSupply.ofList ("a" :: "f_y" :: Block.names siblings)
    ∃ copy copier, Block.copy? rule siblings { names := supply } = .ok copy copier ∧
      Block.blank copy = Block.blank siblings ∧
      Block.referents .outer 0 copy = (Block.referents .outer 0 siblings).map
        (·.rename fun name => (rule.substitution.lookup name).getD name) ∧
      Dispensed supply (Block.declared copy) copier.names ∧
      ∀ name ∈ Block.declared copy, name ∉ Block.names siblings ∧
        ∀ key value, rule.substitution.lookup key = some value → name ≠ value := by
  intro rule supply
  have hnames : ∀ name ∈ Block.names siblings, supply.isUsed name = true := by
    intro name hname
    rw [NameSupply.isUsed_ofList, List.contains_iff_mem]
    exact List.mem_cons_of_mem _ (List.mem_cons_of_mem _ hname)
  have hrange : ∀ key value, rule.substitution.lookup key = some value →
      supply.isUsed value = true := by
    intro key value hlookup
    have hvalue : value = "f_y" ∨ value = "a" := by
      simp only [rule, List.lookup_cons, List.lookup_nil] at hlookup
      split at hlookup
      · exact Or.inl (Option.some.inj hlookup).symm
      · split at hlookup
        · exact Or.inr (Option.some.inj hlookup).symm
        · cases hlookup
    rcases hvalue with rfl | rfl <;> simp [supply]
  have hkeys : ∀ name ∈ Block.declared siblings, rule.substitution.lookup name = none := by
    decide +kernel
  have hscoped : Block.Scoped [] (Block.outer siblings) siblings := by
    decide +kernel
  have hfails := (Block.copy_keeps_references hnames hrange hkeys hscoped).1
  cases hcopy : Block.copy? rule siblings { names := supply } with
  | ok copy copier =>
    exact ⟨copy, copier, rfl,
      (Block.copy_keeps_references hnames hrange hkeys hscoped).2 copy copier hcopy⟩
  | error error reached => exact absurd (by decide +kernel) (hfails.mp ⟨error, reached, hcopy⟩)

end YulInline
