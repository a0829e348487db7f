import YulInline.Cli.Run
import YulInline.Proofs.CommandLine

/-!
# The grammar of the arguments of `inline`

The arguments are a sequence of items (`Item.Proper`), exactly one of which is a word. What the
parser has found so far is changed by one item at a time (`InlineArgs.Partial.add`), so that reading
proper items is a fold over them (`InlineArgs.parseFrom_items`).

Any arguments begin with proper items, at most one of them a word, behind which there is an offence
or nothing (`InlineArgs.exists_items`): the parser has no other way to stop. Since what follows from
either is known, both the accepted arguments and the errors are described exactly.
-/

namespace YulInline.Cli

namespace Item

/-- An item of the grammar: the option for the output has one of its two spellings, and an argument
that stands for itself does not look like an option. -/
def Proper : Item → Prop
  | .output option _ => option = "-o" ∨ option = "--output"
  | .config _ | .print => True
  | .other argument => InlineArgs.isFlag argument = false

/-- The path of the option for the settings. -/
def config? : Item → Option String
  | .config path => some path
  | _ => none

/-- The argument that stands for itself. -/
def word? : Item → Option String
  | .other argument => some argument
  | _ => none

/-- The words among items. -/
def words (items : List Item) : List String :=
  items.filterMap word?

/-- Items are proper, and ask for exactly what the parsed arguments say. -/
structure Gives (items : List Item) (parsed : InlineArgs) : Prop where
  /-- All items are items of the grammar. -/
  proper : ∀ item ∈ items, item.Proper
  /-- The input is the only word. -/
  input : words items = [parsed.input]
  /-- The output is named by the last option for it. -/
  output : parsed.output = (items.filterMap output?).getLast?
  /-- The settings are named by the last option for them. -/
  config : parsed.config = (items.filterMap config?).getLast?
  /-- The result is printed if that is asked for. -/
  print : parsed.print = true ↔ .print ∈ items

/-- What is wrong with the arguments `rest` behind proper items. -/
inductive Offence (items : List Item) : (rest : List String) → UsageError → Prop where
  /-- An option that takes a path is the last argument. -/
  | missingPath {option : String}
    (hoption : option = "-o" ∨ option = "--output" ∨ option = "--config") :
    Offence items [option] (.missingPath option)
  /-- An argument looks like an option and is none. -/
  | unknownFlag {flag : String} {rest : List String} (hflag : InlineArgs.isFlag flag = true)
    (hnone : flag ∉ ["-o", "--output", "--config", "--print"]) :
    Offence items (flag :: rest) (.unknownFlag flag)
  /-- There is a word already. -/
  | unexpectedArgument {argument : String} {rest : List String}
    (hword : InlineArgs.isFlag argument = false) (hsecond : words items ≠ []) :
    Offence items (argument :: rest) (.unexpectedArgument argument)
  /-- There is no word. -/
  | missingInput (hnone : words items = []) : Offence items [] (.missingInput "inline")

/-- The message of an offence names the argument that it begins with. -/
theorem Offence.message {items : List Item} {argument : String} {rest : List String}
    {error : UsageError} (h : Offence items (argument :: rest) error) :
    ∃ before after, (CommandError.usage error).message =
      "Invalid command: " ++ (before ++ argument ++ after) := by
  cases h with
  | missingPath _ => exact ⟨"", " expects a path", by rw [String.empty_append]; rfl⟩
  | unknownFlag _ _ => exact ⟨"unknown flag ", "", by rw [String.append_empty]; rfl⟩
  | unexpectedArgument _ _ => exact ⟨"unexpected argument ", "", by rw [String.append_empty]; rfl⟩

end Item

namespace InlineArgs

open Item (words)

variable {found : Partial} {items : List Item} {item : Item}

/-! ## Reading items -/

/-- What has been found with one item more. -/
def Partial.add (found : Partial) : Item → Partial
  | .output _ path => { found with output := some path }
  | .config path => { found with config := some path }
  | .print => { found with print := true }
  | .other argument => { found with input := some argument }

/-- An argument that does not look like an option is none. -/
theorem not_option_of_isFlag {argument : String} (h : isFlag argument = false) :
    ¬ (argument = "-o" ∨ argument = "--output") ∧ argument ≠ "--config" ∧
      argument ≠ "--print" := by
  have hdashed : ∀ option ∈ ["-o", "--output", "--config", "--print"], isFlag option = true := by
    decide +kernel
  have hne : ∀ option ∈ ["-o", "--output", "--config", "--print"], argument ≠ option := by
    rintro option hoption rfl
    exact Bool.false_ne_true (h.symm.trans (hdashed argument hoption))
  exact ⟨not_or.mpr ⟨hne "-o" (by simp), hne "--output" (by simp)⟩, hne "--config" (by simp),
    hne "--print" (by simp)⟩

/-- Reading a proper item; a word is read only if there was none. -/
theorem parseFrom_item (hproper : item.Proper) (hword : item.word? = none ∨ found.input = none)
    (rest : List String) :
    parseFrom found (item.arguments ++ rest) = parseFrom (found.add item) rest := by
  cases item with
  | output option path => exact parseFrom_output hproper
  | config path => exact parseFrom_config
  | print => exact parseFrom_print
  | other argument =>
    have hnone : found.input = none := hword.resolve_left nofun
    have hflag : isFlag argument = false := hproper
    obtain ⟨houtput, hconfig, hprint⟩ := not_option_of_isFlag hflag
    show parseFrom found (argument :: rest) = _
    rw [parseFrom_other houtput hconfig hprint, hflag, hnone]
    rfl

/-- Reading proper items, at most one of which is a word. -/
theorem parseFrom_items (hproper : ∀ item ∈ items, item.Proper)
    (hwords : (found.input.toList ++ words items).length ≤ 1) (rest : List String) :
    parseFrom found (items.flatMap Item.arguments ++ rest) =
      parseFrom (items.foldl Partial.add found) rest := by
  induction items generalizing found with
  | nil => rfl
  | cons item items ih =>
    obtain ⟨hitem, hitems⟩ := List.forall_mem_cons.mp hproper
    have hword : item.word? = none ∨ found.input = none := by
      cases item with
      | other argument =>
        refine .inr (Option.eq_none_iff_forall_not_mem.mpr fun input hinput => ?_)
        rw [Option.mem_def] at hinput
        simp [hinput, words, Item.word?] at hwords
      | _ => exact .inl rfl
    have hwords' : ((found.add item).input.toList ++ words items).length ≤ 1 := by
      cases item with
      | other argument =>
        have hnone : found.input = none := hword.resolve_left nofun
        simpa [hnone, words, Item.word?, Partial.add] using hwords
      | _ => exact hwords
    rw [List.flatMap_cons, List.append_assoc, parseFrom_item hitem hword, ih hitems hwords',
      List.foldl_cons]

/-- What has been found in items, read one after the other. -/
theorem foldl_add (items : List Item) (found : Partial) :
    items.foldl Partial.add found =
      { input := (words items).getLast?.or found.input,
        output := (items.filterMap Item.output?).getLast?.or found.output,
        config := (items.filterMap Item.config?).getLast?.or found.config,
        print := found.print || decide (.print ∈ items) } := by
  induction items generalizing found with
  | nil => simp [words]
  | cons item items ih =>
    rw [List.foldl_cons, ih]
    cases item <;>
      simp [Partial.add, words, Item.word?, Item.output?, Item.config?, List.getLast?_cons]

/-! ## Where reading ends -/

/-- Reading stops at an offence. -/
theorem parseFrom_offence {rest : List String} {error : UsageError}
    (h : Item.Offence items rest error) (hinput : found.input = (words items).getLast?) :
    parseFrom found rest = .error error := by
  cases h with
  | missingPath hoption =>
    rcases hoption with rfl | rfl | rfl <;> rfl
  | unknownFlag hflag hnone =>
    simp only [List.mem_cons, List.not_mem_nil, or_false, not_or] at hnone
    obtain ⟨hshort, hlong, hconfig, hprint⟩ := hnone
    rw [parseFrom_other (not_or.mpr ⟨hshort, hlong⟩) hconfig hprint]
    exact if_pos hflag
  | unexpectedArgument hword hsecond =>
    obtain ⟨houtput, hconfig, hprint⟩ := not_option_of_isFlag hword
    have hfound : found.input.isSome = true := by
      rw [hinput, List.getLast?_isSome]
      exact hsecond
    rw [parseFrom_other houtput hconfig hprint, hword, hfound]
    rfl
  | missingInput hnone =>
    rw [hnone, List.getLast?_nil] at hinput
    simp only [parseFrom, hinput]

/-- Items that ask for something give it. -/
theorem parse_of_gives {parsed : InlineArgs} (h : Item.Gives items parsed) :
    parse (items.flatMap Item.arguments) = .ok parsed := by
  have hwords : ((none : Option String).toList ++ words items).length ≤ 1 := by
    rw [h.input]
    exact Nat.le_refl 1
  have hread := @parseFrom_items {} items h.proper hwords []
  have hprint : parsed.print = decide (.print ∈ items) := by
    rw [Bool.eq_iff_iff, h.print, decide_eq_true_iff]
  rw [List.append_nil, foldl_add, h.input] at hread
  rw [parse, hread]
  simp [parseFrom, ← h.output, ← h.config, ← hprint]

/-- An offence behind items is the error. -/
theorem parse_of_offence {rest : List String} {error : UsageError}
    (hproper : ∀ item ∈ items, item.Proper) (hwords : (words items).length ≤ 1)
    (h : Item.Offence items rest error) :
    parse (items.flatMap Item.arguments ++ rest) = .error error := by
  rw [parse, @parseFrom_items {} items hproper hwords]
  apply parseFrom_offence h
  rw [foldl_add, Option.or_none]

/-- Behind the items `front`, arguments are proper items up to an offence or the end, and there is
at most one word in all of the items. -/
def Splits (front : List Item) (args : List String) : Prop :=
  ∃ items rest, items.flatMap Item.arguments ++ rest = args ∧ (∀ item ∈ items, item.Proper) ∧
    (words (front ++ items)).length ≤ 1 ∧
    (rest = [] ∨ ∃ error, Item.Offence (front ++ items) rest error)

section Splits

variable {front : List Item} {args : List String}

theorem Splits.nil (hone : (words front).length ≤ 1) : Splits front [] :=
  ⟨[], [], rfl, nofun, by rwa [List.append_nil], .inl rfl⟩

theorem Splits.offence {error : UsageError} (hone : (words front).length ≤ 1)
    (h : Item.Offence front args error) : Splits front args := by
  refine ⟨[], args, rfl, nofun, ?_, .inr ⟨error, ?_⟩⟩
  · rwa [List.append_nil]
  · rwa [List.append_nil]

theorem Splits.cons (hitem : item.Proper) (h : Splits (front ++ [item]) args) :
    Splits front (item.arguments ++ args) := by
  obtain ⟨items, rest, rfl, hproper, hwords, hend⟩ := h
  rw [List.append_assoc] at hwords hend
  refine ⟨item :: items, rest, ?_, List.forall_mem_cons.mpr ⟨hitem, hproper⟩, hwords, hend⟩
  rw [List.flatMap_cons, List.append_assoc]

/-- All arguments can be split so, whatever items are in front of them. -/
theorem splits_of_words (args : List String) :
    ∀ front : List Item, (words front).length ≤ 1 → Splits front args := by
  -- An item that is no word leaves the words as they are.
  have hkept : ∀ (front : List Item) {item : Item}, item.word? = none →
      (words front).length ≤ 1 → (words (front ++ [item])).length ≤ 1 := by
    intro front item hitem hone
    simpa [words, hitem] using hone
  induction args using Item.split.induct with
  | case1 => exact fun front hone => .nil hone
  | case2 option hoption =>
    exact fun front hone => .offence hone (.missingPath (hoption.imp_right .inl))
  | case3 option hoption path rest ih =>
    intro front hone
    have hproper : (Item.output option path).Proper := hoption
    exact .cons hproper (ih _ (hkept front rfl hone))
  | case4 => exact fun front hone => .offence hone (.missingPath (.inr (.inr rfl)))
  | case5 path rest _ ih =>
    intro front hone
    have hproper : (Item.config path).Proper := trivial
    exact .cons hproper (ih _ (hkept front rfl hone))
  | case6 rest _ _ ih =>
    intro front hone
    have hproper : Item.print.Proper := trivial
    exact .cons hproper (ih _ (hkept front rfl hone))
  | case7 argument rest houtput hconfig hprint ih =>
    intro front hone
    by_cases hflag : isFlag argument = true
    · refine .offence hone (.unknownFlag hflag ?_)
      obtain ⟨hshort, hlong⟩ := not_or.mp houtput
      simp [hshort, hlong, hconfig, hprint]
    · rw [Bool.not_eq_true] at hflag
      by_cases hfirst : words front = []
      · have hproper : (Item.other argument).Proper := hflag
        refine .cons hproper (ih _ ?_)
        rw [words] at hfirst
        simp [words, hfirst, Item.word?]
      · exact .offence hone (.unexpectedArgument hflag hfirst)

end Splits

/-- All arguments are items that ask for something, or there is an offence behind proper items. -/
theorem exists_items (args : List String) :
    (∃ items parsed, Item.Gives items parsed ∧ items.flatMap Item.arguments = args) ∨
    ∃ items rest error, items.flatMap Item.arguments ++ rest = args ∧
      (∀ item ∈ items, item.Proper) ∧ (words items).length ≤ 1 ∧
      Item.Offence items rest error := by
  obtain ⟨items, rest, hargs, hproper, hone, hend⟩ := splits_of_words args [] (Nat.zero_le 1)
  rw [List.nil_append] at hone hend
  rcases hend with rfl | ⟨error, hoffence⟩
  · -- At the end, either the input is missing or everything is there.
    match hwords : words items with
    | [] => exact .inr ⟨items, [], _, hargs, hproper, hone, .missingInput hwords⟩
    | [input] =>
      let parsed : InlineArgs :=
        { input, output := (items.filterMap Item.output?).getLast?,
          config := (items.filterMap Item.config?).getLast?, print := decide (.print ∈ items) }
      rw [List.append_nil] at hargs
      exact .inl ⟨items, parsed, ⟨hproper, hwords, rfl, rfl, decide_eq_true_iff⟩, hargs⟩
    | _ :: _ :: _ =>
      rw [hwords] at hone
      exact absurd hone (by simp)
  · exact .inr ⟨items, rest, error, hargs, hproper, hone, hoffence⟩

/-- The arguments that are accepted are those that can be split into proper items with exactly one
word among them, and what they give is what the items ask for. All others are refused for the first
offence behind proper items, whose argument the message names, or for want of an input. -/
theorem parse_accepts_grammar (args : List String) :
    (∀ parsed, parse args = .ok parsed ↔
      ∃ items, Item.Gives items parsed ∧ items.flatMap Item.arguments = args) ∧
    (∀ error, parse args = .error error ↔
      ∃ items rest, items.flatMap Item.arguments ++ rest = args ∧
        (∀ item ∈ items, item.Proper) ∧ (Item.words items).length ≤ 1 ∧
        Item.Offence items rest error) ∧
    ∀ items argument rest error, Item.Offence items (argument :: rest) error →
      ∃ before after, (CommandError.usage error).message =
        "Invalid command: " ++ (before ++ argument ++ after) := by
  refine ⟨fun parsed => ⟨fun hparse => ?_, ?_⟩, fun error => ⟨fun hparse => ?_, ?_⟩,
    fun _ _ _ _ h => h.message⟩
  · rcases exists_items args with ⟨items, parsed', hgives, rfl⟩ |
      ⟨items, rest, error, rfl, hproper, hone, hoffence⟩
    · rw [parse_of_gives hgives] at hparse
      obtain rfl := Except.ok.inj hparse
      exact ⟨items, hgives, rfl⟩
    · rw [parse_of_offence hproper hone hoffence] at hparse
      cases hparse
  · rintro ⟨items, hgives, rfl⟩
    exact parse_of_gives hgives
  · rcases exists_items args with ⟨items, parsed, hgives, rfl⟩ |
      ⟨items, rest, error', rfl, hproper, hone, hoffence⟩
    · rw [parse_of_gives hgives] at hparse
      cases hparse
    · rw [parse_of_offence hproper hone hoffence] at hparse
      obtain rfl := Except.error.inj hparse
      exact ⟨items, rest, rfl, hproper, hone, hoffence⟩
  · rintro ⟨items, rest, rfl, hproper, hone, hoffence⟩
    exact parse_of_offence hproper hone hoffence

/-- A path that looks like an option is a path, and of two paths the later one counts. -/
example :
    parse ["-o", "--print", "in.json", "--config", "-c", "--output", "out.json"] =
      .ok ⟨"in.json", some "out.json", some "-c", false⟩ := by
  rfl

end InlineArgs

end YulInline.Cli
