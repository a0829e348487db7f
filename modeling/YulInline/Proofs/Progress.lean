import YulInline.Inliner.Run
import YulInline.Proofs.Accounts
import Mathlib.Data.List.Duplicate
import Mathlib.Logic.Relation

/-!
# States that an inliner can be in

`Inliner.Sound` is what holds of an inliner throughout its work on a module: each statement of the
root block is an expansion of what it was at the start, complete or not; the names and the log of
expansions are accounted for position by position (`own`); a function that is pending is as it was,
and one that is neither pending nor `active`, that is, under way, is complete. What was copied is
remembered together with how far its function had come by then (`Chronicle`).

`Kept` is what an inliner leaves alone: it changes the body that it is at work on and the bodies of
functions that are pending, and no other.
-/

namespace YulInline

/-! ## The calls of a module -/

/-- A function of a module calls a function of a given name, outside the conditions of loops. -/
def Block.Calls (module : Block) (caller callee : String) : Prop :=
  ∃ function ∈ Block.functions module,
    function.name = caller ∧ callee ∈ (Block.calls function.body).map Prod.fst

/-- A function of a module calls another in some number of steps. -/
abbrev Block.Reaches (module : Block) : String → String → Prop :=
  Relation.ReflTransGen module.Calls

/-- A function leads, by calls, to the function that stands at a position of a module. -/
def Block.LeadsTo (module : Block) (name : String) (position : Nat) : Prop :=
  ∃ function, module[position]? = some (.define function) ∧ module.Reaches name function.name

/-- The bodies of a module: those of its functions, and its top-level blocks. -/
def Block.bodies (module : Block) : List Block :=
  module.filterMap Stmt.body?

/-- The names of the functions that are defined directly in a block. -/
def Block.functionNames (module : Block) : List String :=
  (Block.functions module).map (·.name)

/-- What an error says is the case in a module. -/
def InlineError.Justified (module : Block) : InlineError → Prop
  | .nestedDefinition name => ∃ body ∈ module.bodies, name ∈ Block.definitions body
  | .invalidTopLevel kind => ∃ stmt ∈ module, stmt.body? = none ∧ stmt.kind = kind
  | .unknownFunction name =>
    name ∉ module.functionNames ∧ ∃ body ∈ module.bodies, ∃ count, (name, count) ∈ Block.calls body
  | .arityMismatch name expected found =>
    expected ≠ found ∧ (∃ body ∈ module.bodies, (name, found) ∈ Block.calls body) ∧
      ∃ function ∈ Block.functions module, function.name = name ∧ function.params.length = expected
  | .unhoistedArgument _ => False
  | .duplicateFunction name => List.Duplicate name module.functionNames
  | .invalidBlockPath _ => False

/-! ## Accounts -/

/-- What is added in one place is added to the whole. -/
theorem flatMap_range_perm {α : Type} {f g : Nat → List α} {more : List α} {n p : Nat} (hp : p < n)
    (hat : g p = f p ++ more) (hother : ∀ i, i ≠ p → g i = f i) :
    ((List.range n).flatMap g).Perm ((List.range n).flatMap f ++ more) := by
  induction n with
  | zero => omega
  | succ n ih =>
    rw [List.range_succ, List.flatMap_append, List.flatMap_append, List.flatMap_singleton,
      List.flatMap_singleton]
    by_cases hpn : p = n
    · have hsame : (List.range n).flatMap g = (List.range n).flatMap f := by
        refine List.flatMap_congr fun i hi => hother i ?_
        have := List.mem_range.mp hi
        omega
      rw [← hpn, hat, hpn, hsame, List.append_assoc]
    · rw [hother n (Ne.symm hpn), List.append_assoc]
      refine ((ih (by omega)).append_right (f n)).trans ?_
      rw [List.append_assoc]
      exact List.perm_append_comm.append_left _

/-- The functions whose bodies were copied, the latest first, have each come as far as the names
that were given out for them and the expansions before the copy allow. -/
def Chronicle (module : Block) (own : Nat → Trace) : List Expansion → Prop
  | [] => True
  | expansion :: earlier =>
    Chronicle module own earlier ∧
      ∃ position function t, module[position]? = some (.define function) ∧
        (Stmt.define function).RootExpands module (.define expansion.callee) t ∧
        t.names.Sublist (own position).names ∧ t.expansions ⊆ earlier

theorem Chronicle.mono {module : Block} {own own' : Nat → Trace} {log : List Expansion}
    (h : Chronicle module own log) (hown : ∀ i, (own i).names.Sublist (own' i).names) :
    Chronicle module own' log := by
  induction log with
  | nil => trivial
  | cons expansion earlier ih =>
    obtain ⟨hearlier, position, function, t, hposition, hroot, hnames, hexpansions⟩ := h
    exact ⟨ih hearlier, position, function, t, hposition, hroot,
      hnames.trans (hown position), hexpansions⟩

/-! ## Sound states -/

/-- The root block holds a pending function at a position. -/
def Inliner.Waits (inliner : Inliner) (module : Block) (position : Nat) : Prop :=
  ∃ function, module[position]? = some (.define function) ∧ function.name ∈ inliner.pending

/-- A function that is pending later was pending before. -/
theorem Inliner.Waits.of_sublist {before after : Inliner} {module : Block} {position : Nat}
    (h : after.Waits module position) (hpending : after.pending.Sublist before.pending) :
    before.Waits module position := by
  obtain ⟨function, hfunction, hmem⟩ := h
  exact ⟨function, hfunction, hpending.subset hmem⟩

theorem Stmt.not_waits_of_block {inliner : Inliner} {module : Block} {position : Nat} {body : Block}
    (h : module[position]? = some (.block body)) : ¬ inliner.Waits module position := by
  rintro ⟨function, hfunction, -⟩
  rw [h] at hfunction
  cases hfunction

/-- What holds of an inliner at work on `module` with the names `names` in use at the start, while
the functions `active` are under way and `own` is recorded for each position. -/
structure Inliner.Sound (inliner : Inliner) (module : Block) (names : NameSupply)
    (active : List String) (own : Nat → Trace) : Prop where
  /-- The root block has kept its length. -/
  length : inliner.module.length = module.length
  /-- No function is pending twice. -/
  pending : inliner.pending.Nodup
  /-- A function that is under way is not pending. -/
  underway : ∀ name ∈ active, name ∉ inliner.pending
  /-- The names that were given out are those recorded. -/
  names : Dispensed names ((List.range module.length).flatMap fun i => (own i).names) inliner.names
  /-- The expansions are those recorded. -/
  log : inliner.expansions.Perm ((List.range module.length).flatMap fun i => (own i).expansions)
  /-- Every statement is an expansion of what it was. -/
  root : ∀ i stmt, module[i]? = some stmt → ∃ (stmt' : Stmt) (t : Trace),
    inliner.module[i]? = some stmt' ∧ Stmt.RootExpands module stmt stmt' t ∧ t.Within (own i)
  /-- A function that is pending is as it was. -/
  waiting : ∀ i function, module[i]? = some (.define function) →
    function.name ∈ inliner.pending →
    inliner.module[i]? = some (.define function) ∧ own i = {}
  /-- A function that is neither pending nor under way is complete. -/
  done : ∀ i function, module[i]? = some (.define function) → function.name ∉ inliner.pending →
    function.name ∉ active → ∃ stmt', inliner.module[i]? = some stmt' ∧
    (Stmt.define function).RootExpands module stmt' (own i) ∧ (own i).complete = true
  /-- A body that was copied has not changed since, unless its function leads back to where the
  copy was put. -/
  final : ∀ i, ∀ expansion ∈ (own i).expansions,
    module.LeadsTo expansion.callee.name i ∨
    .define expansion.callee ∈ inliner.module ∧ expansion.callee.name ∉ inliner.pending ∧
    expansion.callee.name ∉ active
  /-- What had become of the functions when their bodies were copied. -/
  chronicle : Chronicle module own inliner.expansions

/-- The body at a position is being expanded: if it is that of a function, the function is under
way. -/
def Underway (module : Block) (active : List String) (position : Nat) : Prop :=
  ∃ stmt, module[position]? = some stmt ∧ ∀ function, stmt = .define function →
    function.name ∈ active

theorem Block.mem_functions {module : Block} {function : FunctionDef} :
    function ∈ Block.functions module ↔ .define function ∈ module := by
  rw [Block.functions, List.mem_filterMap]
  refine ⟨fun ⟨stmt, hmem, heq⟩ => ?_, fun hmem => ⟨_, hmem, rfl⟩⟩
  cases stmt with
  | define other =>
    obtain rfl : other = function := Option.some.inj heq
    exact hmem
  | _ => cases heq

/-- Where no two functions have the same name, a function stands at one position only. -/
theorem Block.position_unique {module : Block} (hnodup : module.functionNames.Nodup) {i j : Nat}
    {f g : FunctionDef} (hi : module[i]? = some (.define f)) (hj : module[j]? = some (.define g))
    (hname : f.name = g.name) : i = j := by
  induction module generalizing i j with
  | nil => simp at hi
  | cons stmt stmts ih =>
    have hmem : ∀ {k : Nat} {h : FunctionDef}, stmts[k]? = some (.define h) →
        h.name ∈ Block.functionNames stmts := fun hk =>
      List.mem_map_of_mem (Block.mem_functions.mpr (List.mem_of_getElem? hk))
    cases i with
    | zero =>
      cases j with
      | zero => rfl
      | succ j =>
        obtain rfl : stmt = .define f := Option.some.inj hi
        have hf : f.name ∉ Block.functionNames stmts := (List.nodup_cons.mp hnodup).1
        exact absurd (hmem hj) (by rwa [hname] at hf)
    | succ i =>
      cases j with
      | zero =>
        obtain rfl : stmt = .define g := Option.some.inj hj
        have hg : g.name ∉ Block.functionNames stmts := (List.nodup_cons.mp hnodup).1
        exact absurd (hmem hi) (by rwa [← hname] at hg)
      | succ j =>
        refine congrArg Nat.succ (ih ?_ hi hj)
        refine hnodup.sublist ?_
        exact ((List.sublist_cons_self stmt stmts).filterMap _).map _

/-- Two forms of the functions of a module differ in their bodies only if they have the same name.
-/
theorem FunctionDef.FormIn.eq_of_name {module : Block} (hnodup : module.functionNames.Nodup)
    {f g : FunctionDef} (hf : f.FormIn module) (hg : g.FormIn module) (hname : f.name = g.name) :
    g = { f with body := g.body } := by
  obtain ⟨original, hmem, heq⟩ := hf
  obtain ⟨original', hmem', heq'⟩ := hg
  have hsame : original = original' := by
    refine List.inj_on_of_nodup_map hnodup hmem hmem' ?_
    rwa [heq, heq'] at hname
  rw [heq, heq', hsame]

/-- A function of a given name stands at the position of that name. -/
theorem Inliner.getElem?_position {inliner : Inliner} {function : FunctionDef}
    (hmem : .define function ∈ inliner.module) :
    ∃ found, inliner.module[inliner.position function.name]? = some (.define found) ∧
      found.name = function.name := by
  have hlt : inliner.position function.name < inliner.module.length := by
    refine List.findIdx_lt_length_of_exists ⟨_, hmem, ?_⟩
    simp [Stmt.function?]
  have hat : (inliner.module[inliner.position function.name].function?.any
      fun other => other.name = function.name) = true :=
    List.findIdx_of_getElem?_eq_some
      (p := fun stmt : Stmt => stmt.function?.any fun other => other.name = function.name)
      (List.getElem?_eq_getElem hlt)
  obtain ⟨found, hfound, hname⟩ := (Option.any_eq_true _ _).mp hat
  refine ⟨found, ?_, by simpa using hname⟩
  rw [List.getElem?_eq_getElem hlt]
  cases hstmt : inliner.module[inliner.position function.name] with
  | define other =>
    rw [hstmt] at hfound
    rw [← Option.some.inj hfound]
  | _ => simp [hstmt, Stmt.function?] at hfound

/-- The function that is found is the one at its position. -/
theorem Inliner.getElem?_position_of_found {inliner : Inliner} {name : String}
    {function : FunctionDef} (hfound : inliner.function? name = some function) :
    inliner.module[inliner.position name]? = some (.define function) := by
  rw [Inliner.function?, Block.functions, List.find?_filterMap, Option.bind_eq_some_iff] at hfound
  obtain ⟨stmt, hstmt, hfunction⟩ := hfound
  obtain ⟨hname, i, hi, rfl, hearlier⟩ := List.find?_eq_some_iff_getElem.mp hstmt
  obtain rfl : inliner.position name = i :=
    (List.findIdx_eq hi).mpr ⟨hname, fun j hj => by simpa using hearlier j hj⟩
  rw [List.getElem?_eq_getElem hi]
  cases hroot : inliner.module[inliner.position name] with
  | define other =>
    rw [hroot] at hfunction
    rw [← Option.some.inj hfunction]
  | _ => simp [hroot, Stmt.function?] at hfunction

/-! ## What can be read off a sound state -/

namespace Inliner.Sound

variable {inliner : Inliner} {module : Block} {names : NameSupply} {active : List String}
  {own : Nat → Trace}

/-- The statement that stands at a position was there at the start, in its original form. -/
theorem root_of_getElem? (h : inliner.Sound module names active own) {i : Nat} {stmt' : Stmt}
    (hi : inliner.module[i]? = some stmt') :
    ∃ stmt t, module[i]? = some stmt ∧ stmt.RootExpands module stmt' t ∧ t.Within (own i) := by
  obtain ⟨hlt, -⟩ := List.getElem?_eq_some_iff.mp hi
  have hlt' : i < module.length := h.length ▸ hlt
  obtain ⟨stmt'', t, hi', hroot, hwithin⟩ :=
    h.root i module[i] (List.getElem?_eq_getElem hlt')
  rw [hi] at hi'
  obtain rfl := Option.some.inj hi'
  exact ⟨module[i], t, List.getElem?_eq_getElem hlt', hroot, hwithin⟩

/-- The function found under a name is an expansion of the one that had it at the start. -/
theorem of_function?_eq_some (h : inliner.Sound module names active own) {name : String}
    {function : FunctionDef} (hfound : inliner.function? name = some function) :
    function.name = name ∧ ∃ i original t, module[i]? = some (.define original) ∧
      inliner.module[i]? = some (.define function) ∧
      (Stmt.define original).RootExpands module (.define function) t ∧
      t.Within (own i) := by
  have hname : function.name = name := by
    simpa using List.find?_some hfound
  have hmem := Block.mem_functions.mp (List.mem_of_find?_eq_some hfound)
  obtain ⟨i, hi⟩ := List.mem_iff_getElem?.mp hmem
  obtain ⟨stmt, t, hi', hroot, hwithin⟩ := h.root_of_getElem? hi
  refine ⟨hname, i, ?_⟩
  cases hroot with
  | define hbody => exact ⟨_, t, hi', hi, .define hbody, hwithin⟩
  | other hbody => simp [Stmt.body?] at hbody

theorem formIn_of_function? (h : inliner.Sound module names active own) {name : String}
    {function : FunctionDef} (hfound : inliner.function? name = some function) :
    function.FormIn module := by
  obtain ⟨-, i, original, t, hi, -, hroot, -⟩ := h.of_function?_eq_some hfound
  refine ⟨original, Block.mem_functions.mpr (List.mem_of_getElem? hi), ?_⟩
  cases hroot with
  | define hbody => rfl
  | other hbody => simp [Stmt.body?] at hbody

/-- A function that is not found was not there at the start. -/
theorem of_function?_eq_none (h : inliner.Sound module names active own) {name : String}
    (hfound : inliner.function? name = none) : name ∉ module.functionNames := by
  intro hmem
  obtain ⟨original, horiginal, rfl⟩ := List.mem_map.mp hmem
  obtain ⟨i, hi⟩ := List.mem_iff_getElem?.mp (Block.mem_functions.mp horiginal)
  obtain ⟨stmt', t, hi', hroot, -⟩ := h.root i _ hi
  cases hroot with
  | define hbody =>
    have hmem' := Block.mem_functions.mpr (List.mem_of_getElem? hi')
    have hnone := List.find?_eq_none.mp hfound _ hmem'
    simp at hnone
  | other hbody => simp [Stmt.body?] at hbody

/-- A function at a position has the name that it had at the start. -/
theorem originals (h : inliner.Sound module names active own) {i : Nat} {function : FunctionDef}
    (hi : inliner.module[i]? = some (.define function)) :
    ∃ original, module[i]? = some (.define original) ∧ original.name = function.name := by
  obtain ⟨stmt, t, hi', hroot, -⟩ := h.root_of_getElem? hi
  cases hroot with
  | define hbody => exact ⟨_, hi', rfl⟩
  | other hbody => simp [Stmt.body?] at hbody

/-- A function is found at its own position. -/
theorem position_eq (h : inliner.Sound module names active own)
    (hnodup : module.functionNames.Nodup) {function : FunctionDef} {i : Nat}
    (hi : inliner.module[i]? = some (.define function)) : inliner.position function.name = i := by
  obtain ⟨found, hfound, hname⟩ := Inliner.getElem?_position (List.mem_of_getElem? hi)
  obtain ⟨original, horiginal, hsame⟩ := h.originals hi
  obtain ⟨original', horiginal', hsame'⟩ := h.originals hfound
  refine Block.position_unique hnodup horiginal' horiginal ?_
  rw [hsame, hsame', hname]

/-! ## Steps from one sound state to another -/

/-- A position that is under way does not wait. -/
theorem not_waits (h : inliner.Sound module names active own) {p : Nat}
    (hp : Underway module active p) : ¬ inliner.Waits module p := by
  obtain ⟨stmt, hstmt, hactive⟩ := hp
  rintro ⟨function, hp', hpending⟩
  rw [hstmt] at hp'
  exact h.underway _ (hactive function (Option.some.inj hp')) hpending

/-- What a step gives out and logs is recorded for the body that is under way. -/
theorem record (h : inliner.Sound module names active own) {p : Nat}
    (hp : Underway module active p) {t : Trace} {supply : NameSupply} {log : List Expansion}
    (hgiven : Dispensed inliner.names t.names supply)
    (hlog : log.Perm (inliner.expansions ++ t.expansions))
    (hfinal : ∀ expansion ∈ t.expansions,
      module.LeadsTo expansion.callee.name p ∨
      .define expansion.callee ∈ inliner.module ∧ expansion.callee.name ∉ inliner.pending ∧
      expansion.callee.name ∉ active)
    (hchronicle : Chronicle module own log) :
    ({ inliner with names := supply, expansions := log } : Inliner).Sound module names active
      (Function.update own p (own p ++ t)) := by
  have hwaits := h.not_waits hp
  obtain ⟨stmt, hstmt, hactive⟩ := hp
  obtain ⟨hlt, -⟩ := List.getElem?_eq_some_iff.mp hstmt
  set own' := Function.update own p (own p ++ t) with hown
  have hat : own' p = own p ++ t := Function.update_self ..
  have hother : ∀ i, i ≠ p → own' i = own i := fun i hi => Function.update_of_ne hi ..
  have hmore : ∀ i, (own i).Within (own' i) := by
    intro i
    by_cases hi : i = p
    · rw [hi, hat]
      exact Trace.Within.append_left ..
    · rw [hother i hi]
      exact Trace.Within.refl _
  refine ⟨h.length, h.pending, h.underway, ?_, ?_, ?_, ?_, ?_, ?_,
    hchronicle.mono fun i => (hmore i).names⟩
  · refine (h.names.trans hgiven).perm ?_
    refine (flatMap_range_perm hlt (g := fun i => (own' i).names) ?_ fun i hi => ?_).symm
    · simp only [hat, Trace.names_append]
    · simp only [hother i hi]
  · refine hlog.trans ((h.log.append_right t.expansions).trans ?_)
    refine (flatMap_range_perm hlt (g := fun i => (own' i).expansions) ?_ fun i hi => ?_).symm
    · simp only [hat, Trace.expansions_append]
    · simp only [hother i hi]
  · intro i stmt hi
    obtain ⟨stmt', t', hi', hroot, hwithin⟩ := h.root i stmt hi
    exact ⟨stmt', t', hi', hroot, hwithin.trans (hmore i)⟩
  · intro i function hi hpending
    have hip : i ≠ p := fun hip => hwaits ⟨function, hip ▸ hi, hpending⟩
    rw [hother i hip]
    exact h.waiting i function hi hpending
  · intro i function hi hpending hdone
    have hip : i ≠ p := by
      rintro rfl
      rw [hstmt] at hi
      exact hdone (hactive function (Option.some.inj hi))
    rw [hother i hip]
    exact h.done i function hi hpending hdone
  · intro i expansion hexpansion
    by_cases hi : i = p
    · rw [hi, hat, Trace.expansions_append, List.mem_append] at hexpansion
      rw [hi]
      rcases hexpansion with hexpansion | hexpansion
      · exact h.final p expansion hexpansion
      · exact hfinal expansion hexpansion
    · rw [hother i hi] at hexpansion
      exact h.final i expansion hexpansion

/-- A new state of the body that is under way is put in place. -/
theorem publish (h : inliner.Sound module names active own) {p : Nat}
    (hp : Underway module active p) {stmt : Stmt} (hstmt : module[p]? = some stmt) {body : Block}
    {t : Trace} (hroot : stmt.RootExpands module (stmt.withBody body) t)
    (hwithin : t.Within (own p)) :
    (inliner.setBody p body).Sound module names active own := by
  have hwaits := h.not_waits hp
  have hactive : ∀ function, stmt = .define function → function.name ∈ active := by
    obtain ⟨stmt', hstmt', hactive⟩ := hp
    rw [hstmt] at hstmt'
    exact Option.some.inj hstmt' ▸ hactive
  have hat : (inliner.setBody p body).module[p]? = some (stmt.withBody body) := by
    obtain ⟨stmt', t', hp', hroot', -⟩ := h.root p stmt hstmt
    rw [setBody, List.getElem?_modify_eq, hp']
    cases hroot' <;> rfl
  have hother : ∀ i, i ≠ p → (inliner.setBody p body).module[i]? = inliner.module[i]? :=
    fun i hi => List.getElem?_modify_ne _ _ (Ne.symm hi)
  refine ⟨?_, h.pending, h.underway, h.names, h.log, ?_, ?_, ?_, ?_, h.chronicle⟩
  · rw [setBody, List.length_modify, h.length]
  · intro i stmt' hi
    by_cases hip : i = p
    · subst hip
      obtain rfl : stmt = stmt' := Option.some.inj (hstmt.symm.trans hi)
      exact ⟨_, t, hat, hroot, hwithin⟩
    · rw [hother i hip]
      exact h.root i stmt' hi
  · intro i function hi hpending
    have hip : i ≠ p := fun hip => hwaits ⟨function, hip ▸ hi, hpending⟩
    rw [hother i hip]
    exact h.waiting i function hi hpending
  · intro i function hi hpending hdone
    have hip : i ≠ p := by
      rintro rfl
      rw [hstmt] at hi
      exact hdone (hactive function (Option.some.inj hi))
    rw [hother i hip]
    exact h.done i function hi hpending hdone
  · intro i expansion hexpansion
    refine (h.final i expansion hexpansion).imp_right fun ⟨hmem, hpending, hdone⟩ => ⟨?_, hpending,
      hdone⟩
    obtain ⟨j, hj⟩ := List.mem_iff_getElem?.mp hmem
    have hjp : j ≠ p := by
      rintro rfl
      obtain ⟨original, hj', hname⟩ := h.originals hj
      rw [hstmt] at hj'
      exact hdone (hname ▸ hactive original (Option.some.inj hj'))
    exact List.mem_of_getElem? ((hother j hjp).trans hj)

/-- A pending function gets under way. -/
theorem enter (h : inliner.Sound module names active own) {name : String}
    (hname : name ∈ inliner.pending) :
    ({ inliner with pending := inliner.pending.erase name } : Inliner).Sound module names
      (name :: active) own := by
  have herase : ∀ other, other ∈ inliner.pending.erase name ↔
      other ≠ name ∧ other ∈ inliner.pending := fun other => h.pending.mem_erase_iff
  refine ⟨h.length, h.pending.erase name, ?_, h.names, h.log, h.root, ?_, ?_, ?_, h.chronicle⟩
  · intro other hother hpending
    rw [herase] at hpending
    rcases List.mem_cons.mp hother with heq | hother
    · exact hpending.1 heq
    · exact h.underway other hother hpending.2
  · intro i function hi hpending
    exact h.waiting i function hi ((herase _).mp hpending).2
  · intro i function hi hpending hdone
    rw [List.mem_cons, not_or] at hdone
    exact h.done i function hi (fun hmem => hpending ((herase _).mpr ⟨hdone.1, hmem⟩)) hdone.2
  · intro i expansion hexpansion
    refine (h.final i expansion hexpansion).imp_right fun ⟨hmem, hpending, hdone⟩ => ⟨hmem, ?_, ?_⟩
    · exact fun hmem' => hpending ((herase _).mp hmem').2
    · rw [List.mem_cons, not_or]
      exact ⟨fun heq => hpending (heq ▸ hname), hdone⟩

/-- A function that is complete is under way no more. -/
theorem leave {name : String} (h : inliner.Sound module names (name :: active) own)
    (hdone : ∀ i function, module[i]? = some (.define function) → function.name = name →
      ∃ stmt', inliner.module[i]? = some stmt' ∧
        (Stmt.define function).RootExpands module stmt' (own i) ∧ (own i).complete = true) :
    inliner.Sound module names active own := by
  refine ⟨h.length, h.pending, fun other hother => h.underway other (List.mem_cons_of_mem _ hother),
    h.names, h.log, h.root, h.waiting, ?_, ?_, h.chronicle⟩
  · intro i function hi hpending hactive
    by_cases hname : function.name = name
    · exact hdone i function hi hname
    · refine h.done i function hi hpending ?_
      rw [List.mem_cons, not_or]
      exact ⟨hname, hactive⟩
  · intro i expansion hexpansion
    refine (h.final i expansion hexpansion).imp_right fun ⟨hmem, hpending, hactive⟩ =>
      ⟨hmem, hpending, fun hin => hactive (List.mem_cons_of_mem _ hin)⟩

end Inliner.Sound

/-! ## What is left alone -/

/-- A function of a root block that differs in its bodies only stands at the same position. -/
theorem Block.getElem?_define_of_shells {module module' : Block}
    (h : module'.map (Stmt.withBody []) = module.map (Stmt.withBody [])) {i : Nat}
    {function : FunctionDef} (hi : module'[i]? = some (.define function)) :
    ∃ body, module[i]? = some (.define { function with body }) := by
  have hshell := congrArg (fun shells => shells[i]?) h
  simp only [List.getElem?_map, hi, Option.map_some] at hshell
  cases hstmt : module[i]? with
  | none =>
    rw [hstmt] at hshell
    cases hshell
  | some stmt =>
    rw [hstmt, Option.map_some, Option.some.injEq] at hshell
    cases stmt with
    | define original =>
      obtain ⟨name, params, returns, body⟩ := original
      obtain ⟨rfl, rfl, rfl, -⟩ := FunctionDef.mk.inj (Stmt.define.inj hshell)
      exact ⟨body, rfl⟩
    | _ => cases hshell

/-- An inliner has left alone all but the body at a position, if one is given, and the bodies of
functions that were pending. -/
structure Kept (module : Block) (site : Option Nat) (before after : Inliner) : Prop where
  /-- Functions only stop being pending. -/
  pending : after.pending.Sublist before.pending
  /-- Apart from bodies, the root block is the same. -/
  shells : after.module.map (Stmt.withBody []) = before.module.map (Stmt.withBody [])
  /-- The other bodies are the same. -/
  bodies : ∀ i, site ≠ some i → ¬ before.Waits module i → after.module[i]? = before.module[i]?

namespace Kept

variable {module : Block} {site : Option Nat} {before between after : Inliner}

theorem refl (inliner : Inliner) : Kept module site inliner inliner :=
  ⟨List.Sublist.refl _, rfl, fun _ _ _ => rfl⟩

theorem waits (h : Kept module site before after) {i : Nat} (hi : after.Waits module i) :
    before.Waits module i :=
  hi.of_sublist h.pending

theorem trans (h : Kept module site before between) (h' : Kept module site between after) :
    Kept module site before after := by
  refine ⟨h'.pending.trans h.pending, h'.shells.trans h.shells, fun i hi hwaits => ?_⟩
  rw [h'.bodies i hi fun hlater => hwaits (h.waits hlater), h.bodies i hi hwaits]

theorem at_site (h : Kept module none before after) : Kept module site before after :=
  ⟨h.pending, h.shells, fun i _ hwaits => h.bodies i (by simp) hwaits⟩

/-- What changes names and log only leaves every body alone. -/
theorem of_eq (hmodule : after.module = before.module) (hpending : after.pending = before.pending) :
    Kept module site before after :=
  ⟨by rw [hpending], by rw [hmodule], fun _ _ _ => by rw [hmodule]⟩

theorem setBody (inliner : Inliner) (position : Nat) (body : Block) :
    Kept module (some position) inliner (inliner.setBody position body) := by
  refine ⟨List.Sublist.refl _, ?_, fun i hi _ => ?_⟩
  · refine List.ext_getElem? fun i => ?_
    rw [List.getElem?_map, List.getElem?_map, Inliner.setBody, List.getElem?_modify]
    split
    · cases inliner.module[i]? with
      | none => rfl
      | some stmt => cases stmt <;> rfl
    · simp
  · exact List.getElem?_modify_ne _ _ fun h => hi (congrArg some h)

end Kept

end YulInline
