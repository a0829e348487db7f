import YulInline.Ast.Render
import YulInline.Cli.Arguments
import YulInline.Cli.Host
import YulInline.Optimise
import YulInline.Stored.Decoding

/-!
# The commands

Every command works out its result before it writes or prints anything, so that one that fails
leaves nothing behind but a message. The result of `inline` goes to the output file if there is one,
and else to the standard output; it is also shown there as text if that is asked for.
-/

namespace YulInline.Cli

/-- Why a command fails. -/
inductive CommandError where
  /-- A file cannot be read or written. -/
  | file (cause : FileError)
  /-- A file does not hold a module. -/
  | malformedModule (fault : String)
  /-- A file does not hold settings. -/
  | malformedSettings (fault : String)
  /-- The module cannot be optimised. -/
  | optimiser (cause : InlineError)
  /-- The arguments do not make up a command. -/
  | usage (cause : UsageError)
deriving DecidableEq, Repr

/-- The text of a command error. -/
def CommandError.message : CommandError → String
  | .file cause => "IO error: " ++ cause.message
  | .malformedModule fault => "Invalid module JSON: " ++ fault
  | .malformedSettings fault => "Config error: " ++ fault
  | .optimiser cause => "Optimiser error: " ++ cause.message
  | .usage cause => "Invalid command: " ++ cause.message

/-- The text of the command `version`. -/
def versionText : String := "yul-opt 0.1.0"

/-- The text of the command `help`. -/
def helpText : String :=
  "yul-opt\n\n" ++
  "USAGE:\n  yul-opt <command> [args]\n\n" ++
  "COMMANDS:\n" ++
  "  inline <module.json> [-o <out.json>] [--config <yulopt.toml>] [--print]\n" ++
  "      Run the configured optimiser steps (default: full-inliner)\n" ++
  "  print <module.json>\n" ++
  "      Render a module in Yul-like form\n\n" ++
  "ENVIRONMENT:\n" ++
  "  RUST_LOG            log filter (e.g. yul_optimiser=debug)\n" ++
  "  YUL_TRACE_TIMING=1  print per-step timings to stderr"

/-- The name of the settings file that is looked for beside the input. -/
def settingsFileName : String := "yulopt.toml"

/-- The path of the settings file beside a file. Empty parts of a path and single dots count for
nothing; a path without any other part stands for the directory that the program runs in. -/
def settingsPathBeside (path : String) : String :=
  let parts := (path.splitOn "/").filter fun part => part ≠ "" && part ≠ "."
  let parents := parts.dropLast ++ [settingsFileName]
  if path.toList.head? = some '/' && !parts.isEmpty then "/" ++ "/".intercalate parents
  else "/".intercalate parents

/-- The part of a command that can fail. -/
abbrev Action (m : Type → Type) := ExceptT CommandError m

section

variable {m : Type → Type} [Monad m]

/-- Reads a file. -/
def readFile (host : Host m) (path : String) : Action m String := do
  match ← host.read path with
  | .ok text => return text
  | .error cause => throw (.file cause)

/-- Reads the module in a file. -/
def readModule (host : Host m) (path : String) : Action m Block := do
  let text ← readFile host path
  match Block.ofText? text with
  | some module => return module
  | none => throw (.malformedModule (host.moduleFault text))

/-- Reads the settings in a file. -/
def readSettings (host : Host m) (path : String) : Action m Settings := do
  let text ← readFile host path
  match Settings.ofToml? text with
  | some settings => return settings
  | none => throw (.malformedSettings (host.settingsFault text))

/-- The settings for `inline`: those in the file that the arguments name, else those in the settings
file beside the input if there is one, else the defaults. -/
def findSettings (host : Host m) (args : InlineArgs) : Action m Settings := do
  match args.config with
  | some path => readSettings host path
  | none =>
    let path := settingsPathBeside args.input
    if ← host.isFile path then readSettings host path else return {}

/-- Runs one step, and shows how long it took. -/
def advanceTimed (host : Host m) (stage : Stage) (step : Step) : Action m Stage := do
  let start ← host.now
  match stage.advance step with
  | .ok stage =>
    host.finished step.name start
    return stage
  | .error cause => throw (.optimiser cause)

/-- Runs all steps of the settings over a module, and shows how long each of them took. -/
def optimiseTimed (host : Host m) (settings : Settings) (module : Block) : Action m Block := do
  let last ← settings.steps.foldlM (advanceTimed host) (Stage.first settings module)
  return last.module

/-- Reads, optimises and delivers a module. -/
def runInline (host : Host m) (args : InlineArgs) : Action m Unit := do
  let settings ← findSettings host args
  let start ← host.now
  let module ← readModule host args.input
  host.finished "load module" start
  let result ← optimiseTimed host settings module
  if let some path := args.output then
    match ← host.write path result.toText with
    | .ok () => pure ()
    | .error cause => throw (.file cause)
  if args.print then host.printLine result.render
  else if args.output.isNone then host.printLine result.toJson.render

/-- Runs a command. -/
def Command.run (host : Host m) : Command → Action m Unit
  | .help => host.printLine helpText
  | .version => host.printLine versionText
  | .inline args => runInline host args
  | .print input => do host.printLine (← readModule host input).render

/-- What the program does with its arguments: whether it succeeds. A failure is reported on the
error output. -/
def run (host : Host m) (arguments : List String) : m Bool := do
  let action : Action m Unit := do
    match Command.parse arguments with
    | .ok command => command.run host
    | .error cause => throw (.usage cause)
  match ← action.run with
  | .ok () => return true
  | .error cause =>
    host.printError cause.message
    return false

end

end YulInline.Cli
