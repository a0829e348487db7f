import YulInline.Proofs.FreshNames
import YulInline.Proofs.BodyCopies
import YulInline.Proofs.Likeness

/-!
# Alike copies

Two supplies fit a list of corresponding names if both have them in use (`Twins.Fit`). What the one
and the other give out next then is new on both sides, so that it can be added to the list, whatever
it is derived from (`Twins.Fit.dispensed`).

Copies of bodies that are alike are alike as soon as the names that they declare correspond, which
is what `Twins.Joins` says: copying gives out names, and it looks up names, which finds entries in
the same places since names are equal only if their counterparts are. Where the names come from does
not matter for that.
-/

namespace YulInline

variable {twins later : Twins}

/-! ## Supplies -/

/-- Two supplies have the corresponding names in use. -/
structure Twins.Fit (twins : Twins) (names names' : NameSupply) : Prop where
  faithful : twins.Faithful
  used : ∀ p ∈ twins, names.isUsed p.1 = true
  used' : ∀ p ∈ twins, names'.isUsed p.2 = true

/-- Pairs of names that are new on both sides can be added. -/
theorem Twins.Faithful.append (h : twins.Faithful) {pairs : Twins}
    (hnodup : (pairs.map Prod.fst).Nodup) (hnodup' : (pairs.map Prod.snd).Nodup)
    (hnew : ∀ p ∈ pairs, ∀ q ∈ twins, p.1 ≠ q.1 ∧ p.2 ≠ q.2) : Twins.Faithful (pairs ++ twins) := by
  have hpairs : ∀ p ∈ pairs, ∀ q ∈ pairs, p.1 = q.1 ↔ p.2 = q.2 := by
    refine fun p hp q hq => ⟨fun heq => ?_, fun heq => ?_⟩
    · rw [List.inj_on_of_nodup_map hnodup hp hq heq]
    · rw [List.inj_on_of_nodup_map hnodup' hp hq heq]
  rw [Faithful, List.forall_mem_append]
  refine ⟨fun p hp => ?_, fun p hp => ?_⟩
  · rw [List.forall_mem_append]
    exact ⟨hpairs p hp, fun q hq => iff_of_false (hnew p hp q hq).1 (hnew p hp q hq).2⟩
  · rw [List.forall_mem_append]
    exact ⟨fun q hq => iff_of_false (hnew q hq p hp).1.symm (hnew q hq p hp).2.symm, h p hp⟩

theorem map_fst_zip_sublist (names names' : List String) :
    ((names.zip names').map Prod.fst).Sublist names := by
  rw [List.zip_eq_zip_take_min, List.map_fst_zip (by simp)]
  exact List.take_sublist ..

theorem map_snd_zip_sublist (names names' : List String) :
    ((names.zip names').map Prod.snd).Sublist names' := by
  rw [List.zip_eq_zip_take_min, List.map_snd_zip (by simp)]
  exact List.take_sublist ..

/-- Names that are given out correspond to each other. -/
theorem Twins.Fit.dispensed {names names' after after' : NameSupply} {given given' : List String}
    (h : twins.Fit names names') (hgiven : Dispensed names given after)
    (hgiven' : Dispensed names' given' after') :
    Twins.Fit (given.zip given' ++ twins) after after' := by
  have hmem : ∀ p ∈ given.zip given', p.1 ∈ given ∧ p.2 ∈ given' := fun p hp =>
    ⟨(List.of_mem_zip hp).1, (List.of_mem_zip hp).2⟩
  refine ⟨h.faithful.append (hgiven.nodup.sublist (map_fst_zip_sublist ..))
    (hgiven'.nodup.sublist (map_snd_zip_sublist ..)) fun p hp q hq => ⟨?_, ?_⟩, ?_, ?_⟩
  · rintro heq
    exact hgiven.not_mem_of_isUsed (h.used q hq) (heq ▸ (hmem p hp).1)
  · rintro heq
    exact hgiven'.not_mem_of_isUsed (h.used' q hq) (heq ▸ (hmem p hp).2)
  · rw [List.forall_mem_append]
    exact ⟨fun p hp => hgiven.isUsed_of_mem (hmem p hp).1, fun q hq =>
      hgiven.isUsed_of_isUsed (h.used q hq)⟩
  · rw [List.forall_mem_append]
    exact ⟨fun p hp => hgiven'.isUsed_of_mem (hmem p hp).2, fun q hq =>
      hgiven'.isUsed_of_isUsed (h.used' q hq)⟩

/-- Fresh names correspond to each other. -/
theorem Twins.Fit.fresh {names names' : NameSupply} (h : twins.Fit names names')
    (stem stem' : String) :
    Twins.Fit (((names.fresh stem).1, (names'.fresh stem').1) :: twins) (names.fresh stem).2
      (names'.fresh stem').2 :=
  h.dispensed (Dispensed.fresh names stem) (Dispensed.fresh names' stem')

/-! ## Looking names up -/

/-- Entries that correspond to each other. -/
def Twins.Entries (twins : Twins) : List (String × String) → List (String × String) → Prop :=
  List.Forall₂ fun entry entry' => (entry.1, entry'.1) ∈ twins ∧ (entry.2, entry'.2) ∈ twins

theorem Twins.Entries.mono (h : twins ⊆ later) {entries entries' : List (String × String)}
    (hentries : twins.Entries entries entries') : later.Entries entries entries' :=
  List.Forall₂.imp (fun _ _ hentry => ⟨h hentry.1, h hentry.2⟩) hentries

/-- What is found for corresponding names corresponds. -/
theorem Twins.Entries.lookup (hfaithful : twins.Faithful) {entries entries' : List (String × String)}
    (h : twins.Entries entries entries') {name name' : String} (hname : (name, name') ∈ twins) :
    Option.Rel (fun found found' => (found, found') ∈ twins) (entries.lookup name)
      (entries'.lookup name') := by
  induction h with
  | nil => exact .none
  | @cons entry entry' entries entries' hentry _ ih =>
    obtain ⟨key, found⟩ := entry
    obtain ⟨key', found'⟩ := entry'
    have hsame : (name == key) = (name' == key') := by
      rw [Bool.eq_iff_iff, beq_iff_eq, beq_iff_eq]
      exact hfaithful _ hname _ hentry.1
    rw [List.lookup_cons, List.lookup_cons, ← hsame]
    cases name == key with
    | true => exact .some hentry.2
    | false => exact ih

/-- The state of one copy and that of another. -/
structure Copier.Alike (twins : Twins) (copier copier' : Copier) : Prop where
  fit : twins.Fit copier.names copier'.names
  renames : twins.Entries copier.renames copier'.renames

/-- Rules that substitute corresponding names for each other. -/
def CopyRule.Alike (twins : Twins) (rule rule' : CopyRule) : Prop :=
  twins.Entries rule.substitution rule'.substitution

variable {copier copier' : Copier} {rule rule' : CopyRule}

theorem CopyRule.Alike.mono (h : twins ⊆ later) (hrule : rule.Alike twins rule') :
    rule.Alike later rule' :=
  Twins.Entries.mono h hrule

/-- Variables that correspond become variables that correspond. -/
theorem Twins.Entries.nameFor (hfaithful : twins.Faithful)
    (h : twins.Entries copier.renames copier'.renames) (hrule : rule.Alike twins rule')
    {name name' : String} (hname : (name, name') ∈ twins) :
    (copier.nameFor rule name, copier'.nameFor rule' name') ∈ twins := by
  have hsubstituted := Twins.Entries.lookup hfaithful hrule hname
  have hrenamed := h.lookup hfaithful hname
  rw [Copier.nameFor, Copier.nameFor]
  generalize rule.substitution.lookup name = substituted at hsubstituted ⊢
  generalize rule'.substitution.lookup name' = substituted' at hsubstituted ⊢
  generalize copier.renames.lookup name = renamed at hrenamed ⊢
  generalize copier'.renames.lookup name' = renamed' at hrenamed ⊢
  cases hsubstituted with
  | some hfound => exact hfound
  | none =>
    cases hrenamed with
    | some hfound => exact hfound
    | none => exact hname

/-! ## Names that are joined -/

/-- If the names at the same places of two lists correspond to each other, then the lists are
equally long, and `rel` holds. -/
def Twins.Joins (twins : Twins) (names names' : List String) (rel : Prop) : Prop :=
  names.zip names' ⊆ twins → names.length = names'.length ∧ rel

namespace Twins.Joins

variable {names names' more more' : List String} {name name' : String} {rel rel' : Prop}

theorem nil (h : rel) : twins.Joins [] [] rel :=
  fun _ => ⟨rfl, h⟩

theorem imp (h : twins.Joins names names' rel) (himp : rel → rel') :
    twins.Joins names names' rel' :=
  fun hzip => (h hzip).imp_right himp

theorem cons (h : (name, name') ∈ twins → twins.Joins names names' rel) :
    twins.Joins (name :: names) (name' :: names') rel := by
  intro hzip
  rw [List.zip_cons_cons, List.cons_subset] at hzip
  obtain ⟨hlength, hrel⟩ := h hzip.1 hzip.2
  exact ⟨congrArg Nat.succ hlength, hrel⟩

/-- What holds once the names of two lists correspond may be used to show what holds once the names
behind them do. -/
theorem bind (h : twins.Joins names names' rel) (h' : rel → twins.Joins more more' rel') :
    twins.Joins (names ++ more) (names' ++ more') rel' := by
  have hfront : ∀ names names' : List String,
      names.zip names' ⊆ (names ++ more).zip (names' ++ more') := by
    intro names
    induction names with
    | nil => exact fun names' => List.nil_subset _
    | cons name names ih =>
      intro names'
      cases names' with
      | nil => exact List.nil_subset _
      | cons name' names' => exact List.cons_subset_cons _ (ih names')
  intro hzip
  obtain ⟨hlength, hrel⟩ := h (List.Subset.trans (hfront names names') hzip)
  rw [List.zip_append hlength, List.append_subset] at hzip
  obtain ⟨hlength', hrel'⟩ := h' hrel hzip.2
  exact ⟨by rw [List.length_append, List.length_append, hlength, hlength'], hrel'⟩

end Twins.Joins

/-! ## Copies -/

/-- What `f` and `f'` make of corresponding names corresponds. -/
def Twins.Maps (twins : Twins) (f f' : String → String) : Prop :=
  ∀ name name', (name, name') ∈ twins → (f name, f' name') ∈ twins

theorem Twins.Names.map {f f' : String → String} (hf : twins.Maps f f') {names names' : List String}
    (h : twins.Names names names') : twins.Names (names.map f) (names'.map f') := by
  induction h with
  | nil => exact .nil
  | cons hname _ ih => exact .cons (hf _ _ hname) ih

mutual

theorem Expr.Alike.rename {f f' : String → String} (hf : twins.Maps f f') {e e' : Expr} :
    Expr.Alike twins e e' → Expr.Alike twins (e.rename f) (e'.rename f')
  | .literal value => by
    rw [Expr.rename, Expr.rename]
    exact .literal value
  | .ident hname => by
    rw [Expr.rename, Expr.rename]
    exact .ident (hf _ _ hname)
  | .instr op hargs => by
    rw [Expr.rename, Expr.rename]
    exact .instr op (hargs.rename hf)
  | .call hcallee hargs => by
    rw [Expr.rename, Expr.rename]
    exact .call hcallee (hargs.rename hf)

theorem Expr.AlikeArgs.rename {f f' : String → String} (hf : twins.Maps f f')
    {args args' : List Expr} : Expr.AlikeArgs twins args args' →
      Expr.AlikeArgs twins (Expr.renameAll f args) (Expr.renameAll f' args')
  | .nil => .nil
  | .cons harg hargs => .cons (harg.rename hf) (hargs.rename hf)

end

/-- Variables that correspond are copied alike if the names that they are given correspond. -/
theorem Copier.declare_joins (rule rule' : CopyRule)
    (h : twins.Entries copier.renames copier'.renames) {vars vars' : List TypedName}
    (hvars : List.Forall₂ (TypedName.Alike twins) vars vars') :
    twins.Joins ((copier.declare rule vars).1.map (·.name))
      ((copier'.declare rule' vars').1.map (·.name))
      (List.Forall₂ (TypedName.Alike twins) (copier.declare rule vars).1
          (copier'.declare rule' vars').1 ∧
        twins.Entries (copier.declare rule vars).2.renames
          (copier'.declare rule' vars').2.renames) := by
  induction vars generalizing copier copier' vars' with
  | nil =>
    cases hvars
    exact .nil ⟨.nil, h⟩
  | cons var vars ih =>
    cases hvars with
    | @cons _ var' _ vars' hvar hvars =>
      rw [Copier.declare, Copier.declare]
      refine .cons fun hname => ?_
      have hnext : twins.Entries
          ((var.name, (copier.names.fresh (rule.stem ++ var.name)).1) :: copier.renames)
          ((var'.name, (copier'.names.fresh (rule'.stem ++ var'.name)).1) :: copier'.renames) :=
        .cons ⟨hvar.name, hname⟩ h
      refine (@ih ⟨_, _⟩ ⟨_, _⟩ hnext _ hvars).imp fun hlater => ⟨?_, hlater.2⟩
      exact .cons ⟨hname, hvar.type⟩ hlater.1

/-- An expression and one that is like it are renamed alike. -/
theorem Expr.Alike.rename_copy (hfaithful : twins.Faithful) (hrule : rule.Alike twins rule')
    (h : twins.Entries copier.renames copier'.renames) {e e' : Expr} (he : Expr.Alike twins e e') :
    Expr.Alike twins (e.rename (copier.nameFor rule)) (e'.rename (copier'.nameFor rule')) :=
  he.rename fun _ _ => h.nameFor hfaithful hrule

mutual

/-- Statements that are alike define the same functions. -/
theorem Stmt.Alike.definitions {stmt stmt' : Stmt} : Stmt.Alike twins stmt stmt' →
    stmt'.gather Stmt.ownDefinition = stmt.gather Stmt.ownDefinition
  | .expr _ => by rw [Stmt.gather_expr, Stmt.gather_expr]; rfl
  | .assign _ _ => by rw [Stmt.gather_assign, Stmt.gather_assign]; rfl
  | .empty _ => by rw [Stmt.gather_declare, Stmt.gather_declare]; rfl
  | .declare _ _ => by rw [Stmt.gather_declare, Stmt.gather_declare]; rfl
  | .define _ hbody => by rw [Stmt.gather_define, Stmt.gather_define, hbody.definitions]; rfl
  | .branch _ hbody => by rw [Stmt.gather_branch, Stmt.gather_branch, hbody.definitions]; rfl
  | .switch _ hcases => by rw [Stmt.gather_switch, Stmt.gather_switch, hcases.definitions]; rfl
  | .loop hinit _ hstep hbody => by
    rw [Stmt.gather_loop, Stmt.gather_loop, hinit.definitions, hstep.definitions, hbody.definitions]
    rfl
  | .block hbody => by rw [Stmt.gather_block, Stmt.gather_block, hbody.definitions]; rfl

theorem Case.Alike.definitions {cases cases' : List Case} : Case.Alike twins cases cases' →
    Case.gather Stmt.ownDefinition cases' = Case.gather Stmt.ownDefinition cases
  | .nil => rfl
  | .cons _ hbody hcases => by
    rw [Case.gather_cons, Case.gather_cons, hbody.definitions, hcases.definitions]

theorem Block.Alike.definitions {block block' : Block} : Block.Alike twins block block' →
    Block.gather Stmt.ownDefinition block' = Block.gather Stmt.ownDefinition block
  | .nil => rfl
  | .cons hstmt hstmts => by
    rw [Block.gather_cons, Block.gather_cons, hstmt.definitions, hstmts.definitions]

end

mutual

/-- The copies of statements that are alike are alike if the names that they declare correspond. -/
theorem Stmt.Alike.copy_joins (hfaithful : twins.Faithful) (hrule : rule.Alike twins rule')
    {stmt stmt' : Stmt} : Stmt.Alike twins stmt stmt' → stmt.gather Stmt.ownDefinition = [] →
      ∀ {copier copier' : Copier}, twins.Entries copier.renames copier'.renames →
      twins.Joins ((stmt.copy rule copier).1.gather Stmt.introduced)
        ((stmt'.copy rule' copier').1.gather Stmt.introduced)
        (Stmt.Alike twins (stmt.copy rule copier).1 (stmt'.copy rule' copier').1 ∧
          twins.Entries (stmt.copy rule copier).2.renames (stmt'.copy rule' copier').2.renames)
  | .expr hvalue, _, _, _, h => by
    rw [Stmt.copy_expr, Stmt.copy_expr, Stmt.gather_expr, Stmt.gather_expr]
    exact .nil ⟨.expr (hvalue.rename_copy hfaithful hrule h), h⟩
  | .assign htargets hvalue, _, _, _, h => by
    rw [Stmt.copy_assign, Stmt.copy_assign, Stmt.gather_assign, Stmt.gather_assign]
    have htargets' := htargets.map fun _ _ => h.nameFor hfaithful hrule
    exact .nil ⟨.assign htargets' (hvalue.rename_copy hfaithful hrule h), h⟩
  | .empty hvars, _, _, _, h => by
    rw [Stmt.copy_declare, Stmt.copy_declare, Stmt.gather_declare, Stmt.gather_declare]
    exact (Copier.declare_joins rule rule' h hvars).imp fun ⟨hcopies, h'⟩ => ⟨.empty hcopies, h'⟩
  | .declare hvars hvalue, _, _, _, h => by
    rw [Stmt.copy_declare, Stmt.copy_declare, Stmt.gather_declare, Stmt.gather_declare]
    refine (Copier.declare_joins rule rule' h hvars).imp fun ⟨hcopies, h'⟩ => ⟨?_, h'⟩
    exact .declare hcopies (hvalue.rename_copy hfaithful hrule h')
  | .define _ _, hflat, _, _, _ => by
    simp [Stmt.ownDefinition] at hflat
  | .branch hcondition hbody, hflat, _, _, h => by
    rw [Stmt.gather_branch, List.append_eq_nil_iff] at hflat
    rw [Stmt.copy_branch, Stmt.copy_branch, Stmt.gather_branch, Stmt.gather_branch]
    refine (hbody.copy_joins hfaithful hrule hflat.2 h).imp fun ⟨hcopy, h'⟩ => ⟨?_, h'⟩
    exact .branch (hcondition.rename_copy hfaithful hrule h) hcopy
  | .switch hscrutinee hcases, hflat, _, _, h => by
    rw [Stmt.gather_switch, List.append_eq_nil_iff] at hflat
    rw [Stmt.copy_switch, Stmt.copy_switch, Stmt.gather_switch, Stmt.gather_switch]
    refine (hcases.copy_joins hfaithful hrule hflat.2 h).imp fun ⟨hcopies, h'⟩ => ⟨?_, h'⟩
    exact .switch (hscrutinee.rename_copy hfaithful hrule h) hcopies
  | .loop hinit hcondition hstep hbody, hflat, _, _, h => by
    simp only [Stmt.gather_loop, List.append_eq_nil_iff] at hflat
    obtain ⟨-, ⟨hflatInit, hflatStep⟩, hflatBody⟩ := hflat
    rw [Stmt.copy_loop, Stmt.copy_loop]
    simp only [Stmt.gather_loop, Stmt.introduced, List.nil_append, List.append_assoc]
    refine (hinit.copy_joins hfaithful hrule hflatInit h).bind fun ⟨hcopyInit, h₁⟩ => ?_
    refine (hstep.copy_joins hfaithful hrule hflatStep h₁).bind fun ⟨hcopyStep, h₂⟩ => ?_
    refine (hbody.copy_joins hfaithful hrule hflatBody h₂).imp fun ⟨hcopyBody, h₃⟩ => ⟨?_, h₃⟩
    exact .loop hcopyInit (hcondition.rename_copy hfaithful hrule h₁) hcopyStep hcopyBody
  | .block hbody, hflat, _, _, h => by
    rw [Stmt.gather_block, List.append_eq_nil_iff] at hflat
    rw [Stmt.copy_block, Stmt.copy_block, Stmt.gather_block, Stmt.gather_block]
    exact (hbody.copy_joins hfaithful hrule hflat.2 h).imp fun ⟨hcopy, h'⟩ => ⟨.block hcopy, h'⟩

theorem Case.Alike.copy_joins (hfaithful : twins.Faithful) (hrule : rule.Alike twins rule')
    {cases cases' : List Case} : Case.Alike twins cases cases' →
      Case.gather Stmt.ownDefinition cases = [] →
      ∀ {copier copier' : Copier}, twins.Entries copier.renames copier'.renames →
      twins.Joins (Case.gather Stmt.introduced (Case.copyCases rule cases copier).1)
        (Case.gather Stmt.introduced (Case.copyCases rule' cases' copier').1)
        (Case.Alike twins (Case.copyCases rule cases copier).1
            (Case.copyCases rule' cases' copier').1 ∧
          twins.Entries (Case.copyCases rule cases copier).2.renames
            (Case.copyCases rule' cases' copier').2.renames)
  | .nil, _, _, _, h => by
    rw [Case.copyCases_nil, Case.copyCases_nil, Case.gather_nil]
    exact .nil ⟨.nil, h⟩
  | .cons value hbody hcases, hflat, _, _, h => by
    rw [Case.gather_cons, List.append_eq_nil_iff] at hflat
    rw [Case.copyCases_cons, Case.copyCases_cons, Case.gather_cons, Case.gather_cons]
    refine (hbody.copy_joins hfaithful hrule hflat.1 h).bind fun ⟨hcopy, h₁⟩ => ?_
    refine (hcases.copy_joins hfaithful hrule hflat.2 h₁).imp fun ⟨hcopies, h₂⟩ => ⟨?_, h₂⟩
    exact .cons value hcopy hcopies

theorem Block.Alike.copy_joins (hfaithful : twins.Faithful) (hrule : rule.Alike twins rule')
    {block block' : Block} : Block.Alike twins block block' →
      Block.gather Stmt.ownDefinition block = [] →
      ∀ {copier copier' : Copier}, twins.Entries copier.renames copier'.renames →
      twins.Joins (Block.gather Stmt.introduced (Block.copy rule block copier).1)
        (Block.gather Stmt.introduced (Block.copy rule' block' copier').1)
        (Block.Alike twins (Block.copy rule block copier).1 (Block.copy rule' block' copier').1 ∧
          twins.Entries (Block.copy rule block copier).2.renames
            (Block.copy rule' block' copier').2.renames)
  | .nil, _, _, _, h => by
    rw [Block.copy_nil, Block.copy_nil, Block.gather_nil]
    exact .nil ⟨.nil, h⟩
  | .cons hstmt hstmts, hflat, _, _, h => by
    rw [Block.gather_cons, List.append_eq_nil_iff] at hflat
    rw [Block.copy_cons, Block.copy_cons, Block.gather_cons, Block.gather_cons]
    refine (hstmt.copy_joins hfaithful hrule hflat.1 h).bind fun ⟨hcopy, h₁⟩ => ?_
    refine (hstmts.copy_joins hfaithful hrule hflat.2 h₁).imp fun ⟨hcopies, h₂⟩ => ⟨?_, h₂⟩
    exact .cons hcopy hcopies

end

/-- What two copies end with: corresponding copies, in states that correspond. -/
def Copier.Ends {α : Type} (twins : Twins) (alike : Twins → α → α → Prop)
    (ended ended' : α × Copier) : Prop :=
  ∃ later, twins ⊆ later ∧ alike later ended.1 ended'.1 ∧ ended.2.Alike later ended'.2

/-- Blocks that are alike are copied alike, by copiers whose states correspond: the names that are
given out are added to those that correspond. -/
theorem Block.Alike.copy (hrule : rule.Alike twins rule') {block block' : Block}
    (hblock : Block.Alike twins block block') (hflat : Block.gather Stmt.ownDefinition block = [])
    (h : copier.Alike twins copier') :
    Copier.Ends twins Block.Alike (Block.copy rule block copier)
      (Block.copy rule' block' copier') := by
  have hgiven := @Block.dispensed_copy rule block copier hflat
  have hgiven' := @Block.dispensed_copy rule' block' copier' (hblock.definitions.trans hflat)
  have hfit := h.fit.dispensed hgiven hgiven'
  have hlater := List.subset_append_right
    ((Block.gather Stmt.introduced (Block.copy rule block copier).1).zip
      (Block.gather Stmt.introduced (Block.copy rule' block' copier').1)) twins
  obtain ⟨-, hcopy, hrenames⟩ := (hblock.mono hlater).copy_joins hfit.faithful
    (hrule.mono hlater) hflat (h.renames.mono hlater) (List.subset_append_left ..)
  exact ⟨_, hlater, hcopy, hfit, hrenames⟩

end YulInline
