import YulInline.Proofs.Expanding
import YulInline.Proofs.InPlace

/-!
# A run of the inliner

A demand does what `Demands` says, by induction on the fuel: the fuel is no less than the number of
pending functions, and a function that gets under way stops being pending. A whole run visits the
top-level blocks in order and then demands what is pending still. It ends in a state in which every
body is a complete expansion (`Inliner.Finished`), or with an error that the module justifies.
-/

namespace YulInline

variable {module : Block} {names : NameSupply} {active : List String} {own : Nat → Trace}
  {inliner : Inliner}

/-! ## Bodies that rest -/

namespace Inliner.Sound

theorem shaped (h : inliner.Sound module names active own) : inliner.Shaped module := by
  refine List.ext_getElem? fun i => ?_
  rw [List.getElem?_map, List.getElem?_map]
  cases hi : module[i]? with
  | none =>
    have hle := List.getElem?_eq_none_iff.mp hi
    rw [← h.length] at hle
    rw [List.getElem?_eq_none hle]
  | some stmt =>
    obtain ⟨stmt', t, hi', hroot, -⟩ := h.root i stmt hi
    rw [hi']
    cases hroot <;> rfl

/-- The expansion of a body that is under way rests. -/
theorem rests (h : inliner.Sound module names active own) {position : Nat}
    (hposition : Underway module active position) : inliner.Rests module position :=
  ⟨⟨h.shaped, h.pending⟩, h.not_waits hposition⟩

end Inliner.Sound

/-- A visit starts with what the body is. -/
theorem Visit.At.expandBody_eq {visit : Visit module names} {body : Block}
    (h : visit.At own body inliner) (hdemand : ∀ name, (visit.site.demand name).Keeps module none) :
    InlineM.expandBody visit.site body inliner =
      InlineM.expandBodyDirectly visit.site body inliner := by
  refine InlineM.expandBody_eq_directly hdemand (h.sound.rests visit.underway) ?_
  rw [Inliner.body?, h.present, Option.bind_some]
  exact Stmt.body?_withBody visit.body_eq body

/-! ## Demands -/

/-- The body of a pending function gets expanded. -/
theorem demand_pending (hnodup : module.functionNames.Nodup) {fuel : Nat}
    {demand : String → InlineM Unit} (hdemands : ∀ active, Demands module names active fuel demand)
    (hkeeps : ∀ name, (demand name).Keeps module none)
    (h : inliner.Sound module names active own) {name : String} {function : FunctionDef}
    (hfuel : inliner.pending.length ≤ fuel + 1) (hreach : ∀ other ∈ active, module.Reaches other name)
    (hfound : inliner.function? name = some function) (hpending : name ∈ inliner.pending) :
    (InlineM.expandBody ⟨inliner.position name, name, demand⟩ function.body).Outcome
      { inliner with pending := inliner.pending.erase name }
      (fun _ after => Kept module none inliner after ∧ name ∉ after.pending ∧
        ∃ own', after.Sound module names active own' ∧
          ∀ i, ¬ inliner.Waits module i → own' i = own i)
      (fun error after => error.Justified module ∧ Kept module none inliner after) := by
  obtain ⟨rfl, i, original, t, hi, hi', -, -⟩ := h.of_function?_eq_some hfound
  have hname : original.name = function.name := by
    obtain ⟨other, hother, hname⟩ := h.originals hi'
    rw [hi] at hother
    rwa [← Stmt.define.inj (Option.some.inj hother)] at hname
  obtain ⟨hsame, hown⟩ := h.waiting i original hi (hname ▸ hpending)
  obtain rfl : function = original := by
    rw [hi'] at hsame
    exact Stmt.define.inj (Option.some.inj hsame)
  obtain rfl : inliner.position function.name = i := h.position_eq hnodup hi'
  have hcalls : ∀ call ∈ Block.calls function.body, module.Calls function.name call.1 := by
    intro call hcall
    exact ⟨function, Block.mem_functions.mpr (List.mem_of_getElem? hi), rfl,
      List.mem_map_of_mem hcall⟩
  have hreach' : ∀ other ∈ function.name :: active, module.Reaches other function.name := by
    rw [List.forall_mem_cons]
    exact ⟨.refl, hreach⟩
  let visit : Visit module names :=
    { site := ⟨inliner.position function.name, function.name, demand⟩
      root := .define function
      body := function.body
      active := function.name :: active
      fuel
      nodup := hnodup
      root_eq := hi
      body_eq := rfl
      caller_eq := rfl
      mem_active := fun other heq => by
        rw [← Stmt.define.inj heq]
        exact List.mem_cons_self ..
      leads := fun other hother => ⟨function, hi, hreach' other hother⟩
      reaches_call := fun other hother call hcall => (hreach' other hother).tail (hcalls call hcall)
      demands := hdemands _ }
  have hat : visit.At own (id function.body)
      { inliner with pending := inliner.pending.erase function.name } := by
    refine ⟨h.enter hpending, hi'.trans (congrArg some (Stmt.withBody_of_body? rfl).symm), ?_⟩
    have hlength := List.length_erase_of_mem hpending
    show (inliner.pending.erase function.name).length ≤ fuel
    omega
  have hplug : visit.Plugs (own visit.site.position)
      (Block.Expands module visit.site.caller function.body) id := by
    intro block t hblock
    refine ⟨t, hblock, ?_⟩
    rw [show own visit.site.position = {} from hown, Trace.empty_append]
    exact Trace.Within.refl t
  have hkept : ∀ after, Kept module (some (inliner.position function.name))
      { inliner with pending := inliner.pending.erase function.name } after →
      Kept module none inliner after := by
    intro after hkept
    refine ⟨hkept.pending.trans List.erase_sublist, hkept.shells, fun j _ hwaits => ?_⟩
    refine hkept.bodies j (fun heq => hwaits ?_) fun ⟨other, hother, hmem⟩ =>
      hwaits ⟨other, hother, List.mem_of_mem_erase hmem⟩
    exact ⟨function, Option.some.inj heq ▸ hi, hpending⟩
  have hruns := Visit.runs_block function.body hat (fun _ => id) (fun _ => id) hplug
  refine InlineM.Outcome.congr (hat.expandBody_eq hkeeps) ?_
  refine InlineM.Outcome.bind hruns ?_ fun error after herror => ⟨herror.1, hkept after herror.2⟩
  rintro block after ⟨own', t, hat', hown', hother, hkept', hblock, hcomplete⟩
  have hdone : own' (inliner.position function.name) = t := by
    rw [show own' (inliner.position function.name) = _ from hown',
      show own visit.site.position = {} from hown, Trace.empty_append]
  refine ⟨hkept after hkept', fun hmem => ?_, own', hat'.sound.leave ?_, fun j hwaits => ?_⟩
  · exact (h.pending.mem_erase_iff.mp (hkept'.pending.subset hmem)).1 rfl
  · intro j other hj hname'
    obtain rfl : j = inliner.position function.name := Block.position_unique hnodup hj hi hname'
    rw [hi] at hj
    obtain rfl : function = other := Stmt.define.inj (Option.some.inj hj)
    rw [hdone]
    exact ⟨_, hat'.present, .define hblock, hcomplete⟩
  · refine hother j (fun heq => hwaits ⟨function, heq ▸ hi, hpending⟩) ?_
    exact fun ⟨other, hother, hmem⟩ => hwaits ⟨other, hother, List.mem_of_mem_erase hmem⟩

/-- A demand with enough fuel does what it should. -/
theorem demands_demandWith (hnodup : module.functionNames.Nodup) (fuel : Nat) :
    ∀ active, Demands module names active fuel (InlineM.demandWith fuel) := by
  induction fuel with
  | zero =>
    intro active name own inliner h hfuel hreach hknown
    have hpending : inliner.pending = [] := List.eq_nil_of_length_eq_zero (by omega)
    rw [InlineM.demandWith]
    refine (outcome_function inliner name).bind ?_ ?_
    · rintro function after ⟨rfl, hfound⟩
      exact ⟨Kept.refl _, by simp [hpending], own, h, fun _ _ => rfl⟩
    · rintro error after ⟨rfl, rfl, hfound⟩
      have hnone := h.of_function?_eq_none hfound
      exact ⟨⟨hnone, hknown hnone⟩, Kept.refl _⟩
  | succ fuel ih =>
    intro active name own inliner h hfuel hreach hknown
    rw [InlineM.demandWith]
    refine (outcome_function inliner name).bind ?_ ?_
    · rintro function after ⟨rfl, hfound⟩
      show InlineM.Outcome (ite (after.isPending name = true) _ _) after _ _
      split
      · next hpending =>
        exact demand_pending hnodup ih (InlineM.demandWith_keeps module fuel) h hfuel hreach hfound
          (List.contains_iff_mem.mp hpending)
      · next hpending =>
        refine ⟨Kept.refl _, fun hmem => hpending (List.contains_iff_mem.mpr hmem), own, h, ?_⟩
        exact fun _ _ => rfl
    · rintro error after ⟨rfl, rfl, hfound⟩
      have hnone := h.of_function?_eq_none hfound
      exact ⟨⟨hnone, hknown hnone⟩, Kept.refl _⟩

theorem demands_demand (hnodup : module.functionNames.Nodup) (fuel : Nat) :
    Demands module names active fuel InlineM.demand := by
  intro name own inliner h _ hreach hknown
  exact demands_demandWith hnodup inliner.pending.length active name own inliner h le_rfl hreach
    hknown

/-! ## The top-level blocks -/

/-- The expansion of the statement at a position is complete. -/
def Inliner.Complete (inliner : Inliner) (module : Block) (own : Nat → Trace) (position : Nat) :
    Prop :=
  ∃ stmt stmt', module[position]? = some stmt ∧ inliner.module[position]? = some stmt' ∧
    stmt.RootExpands module stmt' (own position) ∧ (own position).complete = true

/-- What is complete and belongs to a top-level block stays so. -/
theorem Inliner.Complete.kept {after : Inliner} {own' : Nat → Trace} {position : Nat} {body : Block}
    {site : Option Nat} (h : inliner.Complete module own position)
    (hblock : module[position]? = some (.block body)) (hsite : site ≠ some position)
    (hkept : Kept module site inliner after) (hown : own' position = own position) :
    after.Complete module own' position := by
  obtain ⟨stmt, stmt', hstmt, hstmt', hroot, hcomplete⟩ := h
  refine ⟨stmt, stmt', hstmt, ?_, hown ▸ hroot, hown ▸ hcomplete⟩
  rw [hkept.bodies position hsite (Stmt.not_waits_of_block hblock), hstmt']

/-- The body of a top-level block gets expanded. -/
theorem visit_block (hnodup : module.functionNames.Nodup)
    (h : inliner.Sound module names [] own) {position : Nat} {body : Block}
    (hblock : module[position]? = some (.block body))
    (hsame : inliner.module[position]? = some (.block body)) (hown : own position = {}) :
    (InlineM.expandBody ⟨position, "", InlineM.demand⟩ body).Outcome inliner
      (fun _ after => Kept module (some position) inliner after ∧
        ∃ own', after.Sound module names [] own' ∧ after.Complete module own' position ∧
          ∀ i ≠ position, ¬ inliner.Waits module i → own' i = own i)
      (fun error _ => error.Justified module) := by
  let visit : Visit module names :=
    { site := ⟨position, "", InlineM.demand⟩
      root := .block body
      body
      active := []
      fuel := inliner.pending.length
      nodup := hnodup
      root_eq := hblock
      body_eq := rfl
      caller_eq := rfl
      mem_active := fun _ heq => by cases heq
      leads := fun _ hmem => absurd hmem List.not_mem_nil
      reaches_call := fun _ hmem => absurd hmem List.not_mem_nil
      demands := demands_demand hnodup _ }
  have hat : visit.At own (id body) inliner := ⟨h, hsame, le_rfl⟩
  have hplug : visit.Plugs (own visit.site.position)
      (Block.Expands module visit.site.caller body) id := by
    intro block t hblock
    refine ⟨t, hblock, ?_⟩
    rw [show own visit.site.position = {} from hown, Trace.empty_append]
    exact Trace.Within.refl t
  have hruns := Visit.runs_block body hat (fun _ => id) (fun _ => id) hplug
  refine InlineM.Outcome.congr (hat.expandBody_eq (InlineM.demand_keeps module)) ?_
  refine InlineM.Outcome.bind hruns ?_ fun error after herror => herror.1
  rintro block after ⟨own', t, hat', hown', hother, hkept, hexpands, hcomplete⟩
  have hdone : own' position = t := by
    rw [show own' position = _ from hown', show own visit.site.position = {} from hown,
      Trace.empty_append]
  refine ⟨hkept, own', hat'.sound, ⟨_, _, hblock, hat'.present, ?_, ?_⟩, hother⟩
  · rw [hdone]
    exact .block hexpands
  · rw [hdone]
    exact hcomplete

/-- What a visit of the rest of the root block ends with: its statements are blocks, which are
complete then, and definitions; the other blocks are left alone. -/
def Visited (module : Block) (names : NameSupply) (own : Nat → Trace) (inliner : Inliner)
    (stmts : List Stmt) (position : Nat) (after : Inliner) : Prop :=
  after.pending.Sublist inliner.pending ∧ (∀ stmt ∈ stmts, ∃ body, stmt.body? = some body) ∧
  ∃ own', after.Sound module names [] own' ∧
    (∀ i body, position ≤ i → module[i]? = some (.block body) → after.Complete module own' i) ∧
    ∀ i < position, ¬ inliner.Waits module i →
      after.module[i]? = inliner.module[i]? ∧ own' i = own i

/-- The statements of the root block are visited in order. -/
theorem visit_topLevel (hnodup : module.functionNames.Nodup) (stmts : List Stmt) :
    ∀ (position : Nat) {own : Nat → Trace} {inliner : Inliner}, module.drop position = stmts →
      inliner.Sound module names [] own →
      (∀ i body, position ≤ i → module[i]? = some (.block body) →
        inliner.module[i]? = some (.block body) ∧ own i = {}) →
      ((stmts.zipIdx position).forM fun (stmt, position) =>
        InlineM.visitTopLevel stmt position).Outcome inliner
        (fun _ after => Visited module names own inliner stmts position after)
        (fun error _ => error.Justified module) := by
  induction stmts with
  | nil =>
    intro position own inliner hdrop h hfresh
    refine ⟨List.Sublist.refl _, by simp, own, h, fun i body hi hblock => ?_, fun _ _ _ => ⟨rfl, rfl⟩⟩
    have hlt := (List.getElem?_eq_some_iff.mp hblock).1
    have hle := List.drop_eq_nil_iff.mp hdrop
    omega
  | cons stmt stmts ih =>
    intro position own inliner hdrop h hfresh
    have hstmt : module[position]? = some stmt := by
      have hhead := @List.getElem?_drop _ module position 0
      rw [hdrop] at hhead
      simpa using hhead.symm
    have hdrop' : module.drop (position + 1) = stmts := by
      rw [← List.tail_drop, hdrop, List.tail_cons]
    show InlineM.Outcome (InlineM.visitTopLevel stmt position >>= fun _ =>
      (stmts.zipIdx (position + 1)).forM fun (stmt, position) =>
        InlineM.visitTopLevel stmt position) inliner _ _
    cases stmt with
    | block body =>
      obtain ⟨hsame, hown⟩ := hfresh position body le_rfl hstmt
      refine (visit_block hnodup h hstmt hsame hown).bind ?_ fun error after herror => herror
      rintro - between ⟨hkept, own₁, h₁, hcomplete, hother⟩
      have hothers : ∀ i, i ≠ position → ¬ inliner.Waits module i →
          between.module[i]? = inliner.module[i]? ∧ own₁ i = own i := fun i hi hwaits =>
        ⟨hkept.bodies i (fun heq => hi (Option.some.inj heq).symm) hwaits, hother i hi hwaits⟩
      refine (ih (position + 1) hdrop' h₁ fun i other hi hblock => ?_).mono ?_
        fun error after herror => herror
      · obtain ⟨hsame', hown'⟩ := hfresh i other (by omega) hblock
        obtain ⟨hmodule, hrecord⟩ := hothers i (by omega) (Stmt.not_waits_of_block hblock)
        exact ⟨hmodule.trans hsame', hrecord.trans hown'⟩
      · rintro - after ⟨hpending, hbodies, own₂, h₂, hlater, hearlier⟩
        refine ⟨hpending.trans hkept.pending, ?_, own₂, h₂, fun i other hi hblock => ?_,
          fun i hi hwaits => ?_⟩
        · rw [List.forall_mem_cons]
          exact ⟨⟨body, rfl⟩, hbodies⟩
        · rcases Nat.eq_or_lt_of_le hi with rfl | hlt
          · obtain ⟨first, first', hfirst, hfirst', hroot, hdone⟩ := hcomplete
            obtain ⟨hmodule, hrecord⟩ :=
              hearlier position (by omega) (Stmt.not_waits_of_block hblock)
            exact ⟨first, first', hfirst, hmodule.trans hfirst', hrecord ▸ hroot, hrecord ▸ hdone⟩
          · exact hlater i other hlt hblock
        · obtain ⟨hmodule, hrecord⟩ := hothers i (by omega) hwaits
          obtain ⟨hmodule', hrecord'⟩ :=
            hearlier i (by omega) fun hbetween => hwaits (hkept.waits hbetween)
          exact ⟨hmodule'.trans hmodule, hrecord'.trans hrecord⟩
    | define function =>
      have hlater := ih (position + 1) hdrop' h fun i other hi => hfresh i other (by omega)
      refine InlineM.Outcome.mono hlater ?_ fun error after herror => herror
      rintro - after ⟨hpending, hbodies, own₂, h₂, hlater, hearlier⟩
      refine ⟨hpending, ?_, own₂, h₂, fun i body hi hblock => ?_,
        fun i hi => hearlier i (by omega)⟩
      · rw [List.forall_mem_cons]
        exact ⟨⟨function.body, rfl⟩, hbodies⟩
      · rcases Nat.eq_or_lt_of_le hi with rfl | hlt
        · rw [hstmt] at hblock
          cases hblock
        · exact hlater i body hlt hblock
    | _ => exact ⟨_, List.mem_of_getElem? hstmt, rfl, rfl⟩

/-! ## The whole run -/

/-- Demanding functions of the module one after the other leaves none of them pending. -/
theorem demand_all (hnodup : module.functionNames.Nodup) (wanted : List String) :
    ∀ {own : Nat → Trace} {inliner : Inliner}, inliner.Sound module names [] own →
      (∀ name ∈ wanted, name ∈ module.functionNames) →
      (wanted.forM InlineM.demand).Outcome inliner
        (fun _ after => Kept module none inliner after ∧ (∀ name ∈ wanted, name ∉ after.pending) ∧
          ∃ own', after.Sound module names [] own' ∧
            ∀ i, ¬ inliner.Waits module i → own' i = own i)
        (fun error _ => error.Justified module) := by
  induction wanted with
  | nil =>
    intro own inliner h _
    exact ⟨Kept.refl _, by simp, own, h, fun _ _ => rfl⟩
  | cons name wanted ih =>
    intro own inliner h hknown
    rw [List.forall_mem_cons] at hknown
    show InlineM.Outcome (InlineM.demand name >>= fun _ => wanted.forM InlineM.demand) inliner _ _
    have hdemand := demands_demand hnodup inliner.pending.length name own inliner h le_rfl
      (by simp) fun hunknown => absurd hknown.1 hunknown
    refine hdemand.bind ?_ fun error after herror => herror.1
    rintro - between ⟨hkept, hname, own₁, h₁, hown⟩
    refine (ih h₁ hknown.2).mono ?_ fun error after herror => herror
    rintro - after ⟨hkept', hwanted, own₂, h₂, hown'⟩
    refine ⟨hkept.trans hkept', ?_, own₂, h₂, fun i hwaits => ?_⟩
    · rw [List.forall_mem_cons]
      exact ⟨fun hmem => hname (hkept'.pending.subset hmem), hwanted⟩
    · rw [hown' i fun hbetween => hwaits (hkept.waits hbetween), hown i hwaits]

/-- What a run ends with: every body of the module is expanded completely, and the names and
expansions are those recorded for the positions of the root block. -/
structure Inliner.Finished (inliner : Inliner) (module : Block) (names : NameSupply)
    (own : Nat → Trace) : Prop where
  /-- No two functions have the same name. -/
  nodup : module.functionNames.Nodup
  /-- The root block has kept its length. -/
  length : inliner.module.length = module.length
  /-- The root block consists of blocks and definitions. -/
  bodies : ∀ stmt ∈ module, ∃ body, stmt.body? = some body
  /-- Every statement of the root block is expanded completely. -/
  complete : ∀ i < module.length, inliner.Complete module own i
  /-- The names that were given out are those recorded. -/
  names : Dispensed names ((List.range module.length).flatMap fun i => (own i).names) inliner.names
  /-- The expansions are those recorded. -/
  log : inliner.expansions.Perm ((List.range module.length).flatMap fun i => (own i).expansions)
  /-- A body that was copied is that of a function of the result, unless its function leads back to
  where the copy was put. -/
  final : ∀ i, ∀ expansion ∈ (own i).expansions,
    module.LeadsTo expansion.callee.name i ∨
    .define expansion.callee ∈ inliner.module
  /-- What had become of the functions when their bodies were copied. -/
  chronicle : Chronicle module own inliner.expansions

/-- A repeated text is repeated. -/
theorem firstRepeated?_spec (seen texts : List String) :
    match firstRepeated? seen texts with
    | some text => text ∈ seen ∧ text ∈ texts ∨ List.Duplicate text texts
    | none => texts.Nodup ∧ ∀ text ∈ texts, text ∉ seen := by
  induction texts generalizing seen with
  | nil => simp [firstRepeated?]
  | cons text texts ih =>
    rw [firstRepeated?]
    by_cases hseen : text ∈ seen
    · rw [if_pos hseen]
      exact Or.inl ⟨hseen, List.mem_cons_self ..⟩
    · rw [if_neg hseen]
      have hlater := ih (text :: seen)
      cases hfirst : firstRepeated? (text :: seen) texts with
      | none =>
        rw [hfirst] at hlater
        obtain ⟨hnodup, hnew⟩ := hlater
        refine ⟨List.nodup_cons.mpr ⟨fun hmem => hnew text hmem (List.mem_cons_self ..), hnodup⟩, ?_⟩
        rw [List.forall_mem_cons]
        exact ⟨hseen, fun other hother hmem => hnew other hother (List.mem_cons_of_mem _ hmem)⟩
      | some other =>
        rw [hfirst] at hlater
        rcases hlater with ⟨hmem, hmem'⟩ | hduplicate
        · rcases List.mem_cons.mp hmem with rfl | hmem
          · exact Or.inr (List.Mem.duplicate_cons_self hmem')
          · exact Or.inl ⟨hmem, List.mem_cons_of_mem _ hmem'⟩
        · exact Or.inr (hduplicate.duplicate_cons text)

/-- An inliner can be set to work on a module unless two of its functions have the same name. -/
theorem ofModule?_spec (module : Block) (names : NameSupply) :
    match Inliner.ofModule? module names with
    | .ok start => module.functionNames.Nodup ∧
      start = { module, pending := module.functionNames, names }
    | .error error => error.Justified module := by
  have hspec := firstRepeated?_spec [] module.functionNames
  have hstart : Inliner.ofModule? module names =
      (match firstRepeated? [] module.functionNames with
        | some name => .error (.duplicateFunction name)
        | none => .ok { module, pending := module.functionNames, names }) := rfl
  rw [hstart]
  cases hfirst : firstRepeated? [] module.functionNames with
  | none =>
    rw [hfirst] at hspec
    exact ⟨hspec.1, rfl⟩
  | some name =>
    rw [hfirst] at hspec
    exact hspec.resolve_left fun hmem => absurd hmem.1 List.not_mem_nil

/-- At the start all functions are pending, and nothing has been recorded. -/
theorem Inliner.Sound.start (module : Block) (names : NameSupply)
    (hnodup : module.functionNames.Nodup) :
    ({ module, pending := module.functionNames, names } : Inliner).Sound module names []
      fun _ => {} := by
  have hempty : ∀ α : Type, (List.range module.length).flatMap (fun _ => ([] : List α)) = [] :=
    fun α => List.flatMap_eq_nil_iff.mpr fun _ _ => rfl
  refine ⟨rfl, hnodup, by simp, ?_, ?_, fun i stmt hi => ?_, fun i function hi _ => ⟨hi, rfl⟩,
    fun i function hi hpending _ => ?_, by simp, trivial⟩
  · rw [hempty]
    exact Dispensed.refl names
  · rw [hempty]
  · refine ⟨stmt, ?_⟩
    cases stmt with
    | define function =>
      obtain ⟨t, hbody, hwithin⟩ :=
        Block.Expands.untouched module function.name function.body
      refine ⟨t, hi, ?_, hwithin⟩
      have hroot : Stmt.RootExpands module (.define function)
          (Stmt.withBody function.body (.define function)) t := .define hbody
      rwa [Stmt.withBody_of_body? rfl] at hroot
    | block body =>
      obtain ⟨t, hbody, hwithin⟩ :=
        Block.Expands.untouched module "" body
      exact ⟨t, hi, .block hbody, hwithin⟩
    | _ => exact ⟨{}, hi, .other rfl, Trace.Within.refl _⟩
  · refine absurd (List.mem_map_of_mem ?_) hpending
    exact Block.mem_functions.mpr (List.mem_of_getElem? hi)

/-- The visits of the root block depend on its blocks only, not on the bodies of its functions. -/
theorem visits_congr {stmts stmts' : List Stmt}
    (h : List.Forall₂ (fun stmt stmt' => ∀ position,
      InlineM.visitTopLevel stmt position = InlineM.visitTopLevel stmt' position) stmts stmts')
    (position : Nat) :
    (stmts.zipIdx position).forM (fun (stmt, position) => InlineM.visitTopLevel stmt position) =
      (stmts'.zipIdx position).forM fun (stmt, position) =>
        InlineM.visitTopLevel stmt position := by
  induction h generalizing position with
  | nil => rfl
  | @cons stmt stmt' stmts stmts' hstmt _ ih =>
    show (InlineM.visitTopLevel stmt position >>= fun _ => (stmts.zipIdx (position + 1)).forM
        fun (stmt, position) => InlineM.visitTopLevel stmt position) =
      InlineM.visitTopLevel stmt' position >>= fun _ => (stmts'.zipIdx (position + 1)).forM
        fun (stmt, position) => InlineM.visitTopLevel stmt position
    rw [hstmt, ih]

/-- The root block is visited as it was at the start, even if functions were demanded before. -/
theorem Inliner.Sound.visits_eq (h : inliner.Sound module names [] own)
    (hfresh : ∀ i body, module[i]? = some (.block body) →
      inliner.module[i]? = some (.block body) ∧ own i = {}) :
    inliner.module.zipIdx.forM (fun (stmt, position) => InlineM.visitTopLevel stmt position) =
      module.zipIdx.forM fun (stmt, position) => InlineM.visitTopLevel stmt position := by
  refine visits_congr (List.forall₂_iff_get.mpr ⟨h.length, fun i hi hi' position => ?_⟩) 0
  have hstmt := List.getElem?_eq_getElem hi'
  have hstmt' := List.getElem?_eq_getElem hi
  obtain ⟨stmt', t, hsame, hroot, -⟩ := h.root i _ hstmt
  obtain rfl := Option.some.inj (hstmt'.symm.trans hsame)
  rw [List.get_eq_getElem, List.get_eq_getElem]
  generalize inliner.module[i] = stmt' at *
  generalize module[i] = stmt at *
  cases hroot with
  | @block body _ _ hbody =>
    obtain ⟨hblock, -⟩ := hfresh i body hstmt
    rw [Option.some.inj (hstmt'.symm.trans hblock)]
  | define hbody => rfl
  | other hbody => rfl

/-- A run expands every body completely, or fails with an error that the module justifies; and so it
does if functions have been demanded before. -/
theorem expandModule_of_sound (hnodup : module.functionNames.Nodup)
    (h : inliner.Sound module names [] own)
    (hknown : ∀ name ∈ inliner.pending, name ∈ module.functionNames)
    (hfresh : ∀ i body, module[i]? = some (.block body) →
      inliner.module[i]? = some (.block body) ∧ own i = {}) :
    InlineM.expandModule.Outcome inliner
      (fun _ final => ∃ own, final.Finished module names own)
      (fun error _ => error.Justified module) := by
  have hvisited := visit_topLevel hnodup module 0 List.drop_zero h
    fun i body _ hblock => hfresh i body hblock
  rw [← h.visits_eq hfresh] at hvisited
  rw [InlineM.expandModule]
  refine hvisited.bind ?_ fun error after herror => herror
  rintro - between ⟨hpending, hbodies, own₁, h₁, hblocks, -⟩
  have hknown₁ : ∀ name ∈ between.pending, name ∈ module.functionNames := fun name hname =>
    hknown name (hpending.subset hname)
  refine (demand_all hnodup between.pending h₁ hknown₁).mono ?_ fun error after herror => herror
  rintro - final ⟨hkept, hdemanded, own', h', hown⟩
  have hnone : final.pending = [] := by
    refine List.eq_nil_iff_forall_not_mem.mpr fun name hname => ?_
    exact hdemanded name (hkept.pending.subset hname) hname
  refine ⟨own', hnodup, h'.length, hbodies, fun i hi => ?_, h'.names, h'.log,
    fun i expansion hexpansion => ?_, h'.chronicle⟩
  · obtain ⟨body, hbody⟩ := hbodies module[i] (List.getElem_mem hi)
    have hi' := List.getElem?_eq_getElem hi
    cases hstmt : module[i] with
    | define function =>
      rw [hstmt] at hi'
      obtain ⟨stmt', hstmt', hroot, hcomplete⟩ :=
        h'.done i function hi' (by simp [hnone]) (by simp)
      exact ⟨_, stmt', hi', hstmt', hroot, hcomplete⟩
    | block body =>
      rw [hstmt] at hi'
      refine (hblocks i body (Nat.zero_le i) hi').kept hi' (by simp) hkept (hown i ?_)
      exact Stmt.not_waits_of_block hi'
    | _ =>
      rw [hstmt] at hbody
      cases hbody
  · exact (h'.final i expansion hexpansion).imp_right fun hfinal => hfinal.1

/-- A run from the start. -/
theorem expandModule_spec (hnodup : module.functionNames.Nodup) :
    InlineM.expandModule.Outcome { module, pending := module.functionNames, names }
      (fun _ final => ∃ own, final.Finished module names own)
      (fun error _ => error.Justified module) :=
  expandModule_of_sound hnodup (Inliner.Sound.start module names hnodup) (fun _ => id)
    fun _ _ hblock => ⟨hblock, rfl⟩

/-- Inlining gives a module that is expanded completely, or an error that the module justifies. -/
theorem inline_spec (module : Block) (names : NameSupply) :
    match inline module names with
    | .ok (result, after) => ∃ final own, final.Finished module names own ∧
      final.module = result ∧ final.names = after ∧
      InlineM.expandModule { module, pending := module.functionNames, names } = .ok () final
    | .error error => error.Justified module := by
  have hstart := ofModule?_spec module names
  cases hof : Inliner.ofModule? module names with
  | error error =>
    rw [hof] at hstart
    rw [inline_eq_error_of_ofModule? hof]
    exact hstart
  | ok start =>
    rw [hof] at hstart
    obtain ⟨hnodup, rfl⟩ := hstart
    have hrun := @expandModule_spec module names hnodup
    rw [InlineM.Outcome] at hrun
    cases hresult : InlineM.expandModule { module, pending := module.functionNames, names } with
    | ok a final =>
      rw [hresult] at hrun
      rw [inline_eq_ok hof hresult]
      obtain ⟨own, hfinal⟩ := hrun
      exact ⟨final, own, hfinal, rfl, rfl, rfl⟩
    | error error final =>
      rw [hresult] at hrun
      rw [inline_eq_error hof hresult]
      exact hrun

end YulInline
