/-!
# What the program needs of its surroundings

A host reads and writes files by path, takes what is printed, and has a clock. The program is
written against a host in any monad, so that it runs on the files of the machine as well as on files
in memory. In which words a text is refused that holds no module or no settings is left to the host
as well: it depends on the text only.
-/

namespace YulInline.Cli

/-- Why a file cannot be read or written. -/
inductive FileError where
  /-- There is no such file, or no such directory on the way to it. -/
  | notFound
  /-- The path leads to a directory. -/
  | isDirectory
  /-- The path leads through a file as if it were a directory. -/
  | notDirectory
  /-- Any other reason, in the words of the system. -/
  | other (text : String)
deriving DecidableEq, Repr

/-- The text of a file error. -/
def FileError.message : FileError → String
  | .notFound => "No such file or directory (os error 2)"
  | .isDirectory => "Is a directory (os error 21)"
  | .notDirectory => "Not a directory (os error 20)"
  | .other text => text

/-- What the program needs of its surroundings. -/
structure Host (m : Type → Type) where
  /-- Reads a file. -/
  read : String → m (Except FileError String)
  /-- Whether a path leads to a file. -/
  isFile : String → m Bool
  /-- Makes a text the content of a file. -/
  write : String → String → m (Except FileError Unit)
  /-- Prints a line on the standard output. -/
  printLine : String → m Unit
  /-- Prints a line on the error output. -/
  printError : String → m Unit
  /-- The time since some moment, in nanoseconds. -/
  now : m Nat
  /-- Whether the durations of the parts of the work are shown. -/
  showsTiming : Bool
  /-- What is wrong with a text that holds no module. -/
  moduleFault : String → String := fun _ => "not a module"
  /-- What is wrong with a text that holds no settings. -/
  settingsFault : String → String := fun _ => "not settings"

/-- A duration in milliseconds with one decimal place, a half going upwards. -/
def milliseconds (nanoseconds : Nat) : String :=
  let tenths := (nanoseconds + 50000) / 100000
  toString (tenths / 10) ++ "." ++ toString (tenths % 10)

/-- The line that shows how long a part of the work took. -/
def timingLine (label : String) (nanoseconds : Nat) : String :=
  let time := milliseconds nanoseconds
  let behind := String.ofList (List.replicate (40 - label.length) ' ')
  let before := String.ofList (List.replicate (8 - time.length) ' ')
  "[YUL_TIMING] " ++ label ++ behind ++ " " ++ before ++ time ++ "ms"

/-- Shows that a part of the work that began at a given time is done. -/
def Host.finished {m : Type → Type} [Monad m] (host : Host m) (label : String) (start : Nat) :
    m Unit := do
  if host.showsTiming then
    host.printError (timingLine label ((← host.now) - start))

end YulInline.Cli
