import YulInline.Proofs.JsonWriting
import YulInline.Proofs.StoredDepths
import YulInline.Proofs.StoredLayouts

/-!
# Writing a module and reading it back

What is written for a module is a text of its stored form (`Block.written_toText`), in which there
are no numbers. The text is read as the module if it is not nested too deep, and refused if it is
(`Block.ofText?_toText`). A text that is read, in whatever form, is of a module that is not nested
too deep (`Block.depth_of_ofText?`), so writing and reading are inverse to each other on these
modules (`Block.storing_round_trip`).
-/

namespace YulInline

namespace Json

theorem numbersOfItems_eq_nil {items : List Json} (h : ∀ item ∈ items, item.numbers = []) :
    numbersOfItems items = [] := by
  induction items with
  | nil => rfl
  | cons item items ih =>
    obtain ⟨hitem, hitems⟩ := List.forall_mem_cons.mp h
    rw [numbersOfItems, hitem, ih hitems, List.append_nil]

end Json

theorem TypedName.numbers_toJsons (vars : List TypedName) :
    Json.numbersOfItems (vars.map TypedName.toJson) = [] := by
  refine Json.numbersOfItems_eq_nil fun item hitem => ?_
  obtain ⟨var, -, rfl⟩ := List.mem_map.mp hitem
  rfl

theorem numbers_ofNames (names : List String) :
    Json.numbersOfItems (names.map Json.ofName) = [] := by
  refine Json.numbersOfItems_eq_nil fun item hitem => ?_
  obtain ⟨name, -, rfl⟩ := List.mem_map.mp hitem
  rfl

theorem Literal.numbers_toJson : (literal : Option Literal) → (Literal.toJson literal).numbers = []
  | none => rfl
  | some _ => rfl

mutual

theorem Expr.numbers_toJson : (expr : Expr) → expr.toJson.numbers = []
  | .literal _ | .ident _ => rfl
  | .instr _ args => by simp [Expr.toJson, Json.ofKind, Expr.numbers_toJsons args]
  | .call _ args => by simp [Expr.toJson, Json.ofKind, Json.ofName, Expr.numbers_toJsons args]

theorem Expr.numbers_toJsons : (args : List Expr) → Json.numbersOfItems (Expr.toJsons args) = []
  | [] => rfl
  | arg :: args => by simp [Expr.toJsons, Expr.numbers_toJson arg, Expr.numbers_toJsons args]

end

theorem Expr.numbers_toJsonOrNull : (expr : Option Expr) → (Expr.toJsonOrNull expr).numbers = []
  | none => rfl
  | some expr => expr.numbers_toJson

mutual

theorem Stmt.numbers_toJson : (stmt : Stmt) → stmt.toJson.numbers = []
  | .expr value => by simp [Stmt.toJson, Json.ofKind, Expr.numbers_toJson]
  | .assign targets value => by
    simp [Stmt.toJson, Json.ofKind, numbers_ofNames, Expr.numbers_toJson]
  | .declare vars value => by
    simp [Stmt.toJson, Json.ofKind, TypedName.numbers_toJsons, Expr.numbers_toJsonOrNull]
  | .define ⟨_, _, _, body⟩ => by
    simp [Stmt.toJson, Json.ofKind, TypedName.numbers_toJsons, Stmt.numbers_toJsons body]
  | .branch _ body => by
    simp [Stmt.toJson, Json.ofKind, Expr.numbers_toJson, Stmt.numbers_toJsons body]
  | .switch _ cases => by
    simp [Stmt.toJson, Json.ofKind, Expr.numbers_toJson, Case.numbers_toJsons cases]
  | .loop init _ step body => by
    simp [Stmt.toJson, Json.ofKind, Expr.numbers_toJson, Stmt.numbers_toJsons init,
      Stmt.numbers_toJsons step, Stmt.numbers_toJsons body]
  | .block body => by simp [Stmt.toJson, Json.ofKind, Stmt.numbers_toJsons body]

theorem Case.numbers_toJsons : (cases : List Case) → Json.numbersOfItems (Case.toJsons cases) = []
  | [] => rfl
  | ⟨value, body⟩ :: cases => by
    simp [Case.toJsons, Literal.numbers_toJson, Stmt.numbers_toJsons body,
      Case.numbers_toJsons cases]

theorem Stmt.numbers_toJsons : (stmts : List Stmt) → Json.numbersOfItems (Stmt.toJsons stmts) = []
  | [] => rfl
  | stmt :: stmts => by simp [Stmt.toJsons, Stmt.numbers_toJson stmt, Stmt.numbers_toJsons stmts]

end

/-! ## Stored modules -/

/-- The stored text of a module is a text of its stored form. -/
theorem Block.written_toText (block : Block) : Json.Written block.toJson block.toText.toList := by
  have hnumbers : block.toJson.numbers = [] := by simp [Block.toJson, Stmt.numbers_toJsons]
  have hrender : Json.Written block.toJson block.toJson.render.toList :=
    Json.written_renderAt 0 block.toJson (hnumbers ▸ List.forall_mem_nil _)
  have hfeed : Json.Blank ['\n'] := by simp [Json.Blank]
  rw [Block.toText, String.toList_append]
  exact Json.Written.spaced (List.forall_mem_nil _) hrender hfeed

/-- A module that is read from a text is not nested deeper than a text may be. -/
theorem Block.depth_of_ofText? {text : String} {block : Block}
    (h : Block.ofText? text = some block) : block.toJson.depth ≤ Block.maxDepth := by
  obtain ⟨json, hjson, hblock⟩ := Option.bind_eq_some_iff.mp h
  exact (Block.depth_of_ofJson? hblock).trans (Json.depth_of_readMembers? (by decide) hjson)

/-- The stored text of a module is read as the module if the module is not nested too deep, and else
it is refused. -/
theorem Block.ofText?_toText (block : Block) :
    Block.ofText? block.toText =
      if block.toJson.depth ≤ Block.maxDepth then some block else none := by
  have hwritten := block.written_toText
  split
  · next hdepth =>
    have hread : Json.readMembers? (fun key => key = "statements") Block.maxDepth block.toText =
        some block.toJson :=
      Json.readMembers?_written hwritten hdepth
    rw [Block.ofText?, hread, Option.bind_some]
    exact Block.ofJson?_rearranged (.refl _)
  · next hdepth =>
    cases hread : Json.readMembers? (fun key => key = "statements") Block.maxDepth block.toText with
    | none => rw [Block.ofText?, hread, Option.bind_none]
    | some json =>
      -- With enough depth the whole stored form is read, so nothing less is read without.
      have hmore : Json.readMembers? (fun key => key = "statements") block.toJson.depth
          block.toText = some block.toJson :=
        Json.readMembers?_written hwritten le_rfl
      have hsame := Json.readMembers?_mono hread (Nat.le_of_not_ge hdepth)
      obtain rfl := Option.some.inj (hmore.symm.trans hsame)
      exact absurd (Json.depth_of_readMembers? (by decide) hread) hdepth

/-- Writing and reading are inverse to each other on the modules that are not nested too deep.
Reading the stored text of such a module gives the module; and whatever the form of a text that is
read, the module that it denotes is one of them, so that writing it, reading that and writing again
gives the same module and the same text. -/
theorem Block.storing_round_trip :
    (∀ block : Block, block.toJson.depth ≤ Block.maxDepth →
      Block.ofText? block.toText = some block) ∧
    ∀ (text : String) (block : Block), Block.ofText? text = some block →
      block.toJson.depth ≤ Block.maxDepth ∧ Block.ofText? block.toText = some block ∧
        (Block.ofText? block.toText).map Block.toText = some block.toText := by
  have hwritten : ∀ block : Block, block.toJson.depth ≤ Block.maxDepth →
      Block.ofText? block.toText = some block := by
    intro block hdepth
    rw [Block.ofText?_toText, if_pos hdepth]
  refine ⟨hwritten, fun text block hread => ?_⟩
  have hdepth := Block.depth_of_ofText? hread
  have hagain := hwritten block hdepth
  exact ⟨hdepth, hagain, by rw [hagain, Option.map_some]⟩

/-- A text in array form with indices for kinds, an unknown key that is repeated, and escapes for a
line separator, a control character and a character beyond 16 bits. -/
def exoticText : String :=
  "[[[\"Block\", [[0, \x7b\"z\": -7, \"name\": \"\\u2028\\ud83d\\ude00\\b\\u0000\"," ++
    " \"kind\": 1, \"z\": []\x7d]]]]]"

theorem Block.storing_round_trip_exotic :
    Block.ofText? (Block.toText [.expr (.ident "\x00\"\\\n\u2028")]) =
      some [.expr (.ident "\x00\"\\\n\u2028")] ∧
    ∃ block, Block.ofText? exoticText = some block ∧ block.toJson.depth ≤ Block.maxDepth ∧
      Block.ofText? block.toText = some block ∧
        (Block.ofText? block.toText).map Block.toText = some block.toText := by
  have hread : (Block.ofText? exoticText).isSome = true := by decide +kernel
  obtain ⟨block, hblock⟩ := Option.isSome_iff_exists.mp hread
  exact ⟨Block.storing_round_trip.1 _ (by decide), block, hblock,
    Block.storing_round_trip.2 _ block hblock⟩

end YulInline
