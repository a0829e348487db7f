/-!
# Arguments of the command line

The first argument is the command. The arguments of `inline` are read from left to right: an option
that takes a path consumes the argument behind it, whatever that is, and the later of two such
options wins; any other argument that starts with a dash is no option; exactly one argument is the
input.
-/

namespace YulInline.Cli

/-- What is wrong with the arguments. -/
inductive UsageError where
  /-- There is no such command. -/
  | unknownCommand (name : String)
  /-- A command has no input file. -/
  | missingInput (command : String)
  /-- An option that takes a path is the last argument. -/
  | missingPath (option : String)
  /-- There is no such option. -/
  | unknownFlag (flag : String)
  /-- There is a second input file. -/
  | unexpectedArgument (argument : String)
deriving DecidableEq, Repr

/-- The text of a usage error. -/
def UsageError.message : UsageError → String
  | .unknownCommand name => name
  | .missingInput command => command ++ " expects an input file"
  | .missingPath option => option ++ " expects a path"
  | .unknownFlag flag => "unknown flag " ++ flag
  | .unexpectedArgument argument => "unexpected argument " ++ argument

/-- The arguments of `inline`. -/
structure InlineArgs where
  /-- The module to work on. -/
  input : String
  /-- Where the result is written. -/
  output : Option String := none
  /-- Where the settings are. -/
  config : Option String := none
  /-- Whether the result is printed as text. -/
  print : Bool := false
deriving DecidableEq, Repr

namespace InlineArgs

/-- The arguments of `inline` read so far, of which the input may still be missing. -/
structure Partial where
  /-- The first argument that is no option. -/
  input : Option String := none
  /-- The path of the latest option for the output. -/
  output : Option String := none
  /-- The path of the latest option for the settings. -/
  config : Option String := none
  /-- Whether the option to print the result has occurred. -/
  print : Bool := false
deriving DecidableEq, Repr

/-- Whether an argument looks like an option. -/
def isFlag (argument : String) : Bool :=
  argument.toList.head? = some '-'

/-- Reads the remaining arguments of `inline`, given what was read so far. -/
def parseFrom (found : Partial) : List String → Except UsageError InlineArgs
  | [] =>
    match found.input with
    | some input => .ok ⟨input, found.output, found.config, found.print⟩
    | none => .error (.missingInput "inline")
  | argument :: rest =>
    if argument = "-o" ∨ argument = "--output" then
      match rest with
      | [] => .error (.missingPath argument)
      | path :: rest => parseFrom { found with output := some path } rest
    else if argument = "--config" then
      match rest with
      | [] => .error (.missingPath argument)
      | path :: rest => parseFrom { found with config := some path } rest
    else if argument = "--print" then parseFrom { found with print := true } rest
    else if isFlag argument then .error (.unknownFlag argument)
    else if found.input.isSome then .error (.unexpectedArgument argument)
    else parseFrom { found with input := some argument } rest

/-- Reads the arguments of `inline`. -/
def parse (arguments : List String) : Except UsageError InlineArgs :=
  parseFrom {} arguments

end InlineArgs

/-- A command. -/
inductive Command where
  /-- Show how the program is used. -/
  | help
  /-- Show the version. -/
  | version
  /-- Optimise a module. -/
  | inline (args : InlineArgs)
  /-- Show a module as text. -/
  | print (input : String)
deriving DecidableEq, Repr

/-- The command that the arguments of the program give; without arguments it is `help`. -/
def Command.parse : List String → Except UsageError Command
  | [] => .ok .help
  | name :: rest =>
    if name = "-h" ∨ name = "--help" then .ok .help
    else if name = "-V" ∨ name = "--version" then .ok .version
    else if name = "inline" then (InlineArgs.parse rest).map .inline
    else if name = "print" then
      match rest with
      | [] => .error (.missingInput "print")
      | input :: _ => .ok (.print input)
    else .error (.unknownCommand name)

end YulInline.Cli
