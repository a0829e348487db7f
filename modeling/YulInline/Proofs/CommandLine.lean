import YulInline.Cli.Arguments

/-!
# The items of a command line

The arguments of `inline` are a sequence of items: an option with the path behind it, an option
without a path, or a single argument. An argument that looks like an option may thus be the path of
the one in front of it.

What the parser reads off the items: the output is the path of the last option for it, and without
the options that say how the result is delivered, the rest is read as before.
-/

namespace YulInline.Cli

/-- An item of the arguments of `inline`. -/
inductive Item where
  /-- An option for the output, in one of its spellings, and its path. -/
  | output (option path : String)
  /-- The option for the settings, and its path. -/
  | config (path : String)
  /-- The option to print the result. -/
  | print
  /-- Any other argument. -/
  | other (argument : String)
deriving DecidableEq, Repr

namespace Item

/-- The arguments that an item consists of. -/
def arguments : Item → List String
  | .output option path => [option, path]
  | .config path => ["--config", path]
  | .print => ["--print"]
  | .other argument => [argument]

/-- The items of arguments. An option that lacks its path is an argument as any other. -/
def split : List String → List Item
  | [] => []
  | argument :: rest =>
    if argument = "-o" ∨ argument = "--output" then
      match rest with
      | [] => [.other argument]
      | path :: rest => .output argument path :: split rest
    else if argument = "--config" then
      match rest with
      | [] => [.other argument]
      | path :: rest => .config path :: split rest
    else if argument = "--print" then .print :: split rest
    else .other argument :: split rest

/-- The path of an option for the output. -/
def output? : Item → Option String
  | .output _ path => some path
  | _ => none

section Equations

variable {argument option path : String} {rest : List String}

end Equations

end Item

namespace InlineArgs

section Equations

variable {found : Partial} {argument option path : String} {rest : List String}

theorem parseFrom_output (h : option = "-o" ∨ option = "--output") :
    parseFrom found (option :: path :: rest) =
      parseFrom { found with output := some path } rest := by
  rw [parseFrom.eq_def]
  exact if_pos h

theorem parseFrom_config :
    parseFrom found ("--config" :: path :: rest) =
      parseFrom { found with config := some path } rest := by
  rw [parseFrom.eq_def]
  rfl

theorem parseFrom_print :
    parseFrom found ("--print" :: rest) = parseFrom { found with print := true } rest := by
  rw [parseFrom.eq_def]
  rfl

theorem parseFrom_other (houtput : ¬ (argument = "-o" ∨ argument = "--output"))
    (hconfig : argument ≠ "--config") (hprint : argument ≠ "--print") :
    parseFrom found (argument :: rest) =
      if isFlag argument then .error (.unknownFlag argument)
      else if found.input.isSome then .error (.unexpectedArgument argument)
      else parseFrom { found with input := some argument } rest := by
  rw [parseFrom.eq_def]
  simp only [if_neg houtput, if_neg hconfig, if_neg hprint]

end Equations

end InlineArgs

end YulInline.Cli
