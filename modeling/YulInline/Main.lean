import YulInline.Cli.Run

/-!
# The program

The command line on the files of the machine. Timings are shown if the environment asks for them.
-/

namespace YulInline.Cli

/-- The reason for which the system refused a file. -/
def FileError.ofIO : IO.Error → FileError
  | .noFileOrDirectory .. => .notFound
  | .inappropriateType _ 21 _ => .isDirectory
  | .inappropriateType _ 20 _ => .notDirectory
  | error => .other (toString error)

/-- Runs an operation on a file. -/
def attempt {α : Type} (operation : IO α) : IO (Except FileError α) := do
  match ← operation.toBaseIO with
  | .ok value => return .ok value
  | .error error => return .error (FileError.ofIO error)

/-- Whether a path leads to a file. -/
def isFileOnMachine (path : String) : IO Bool := do
  let entry : IO.FS.DirEntry := { root := path, fileName := "" }
  match ← entry.root.metadata.toBaseIO with
  | .ok metadata => return metadata.type == .file
  | .error _ => return false

/-- The machine as the host of the program. -/
def machine (showsTiming : Bool) : Host IO where
  read path := attempt (IO.FS.readFile path)
  isFile := isFileOnMachine
  write path text := attempt (IO.FS.writeFile path text)
  printLine := IO.println
  printError := IO.eprintln
  now := IO.monoNanosNow
  showsTiming := showsTiming

end YulInline.Cli

/-- Runs the program and tells the system whether it succeeded. -/
def main (arguments : List String) : IO UInt32 := do
  let timing ← IO.getEnv "YUL_TRACE_TIMING"
  let succeeded ← YulInline.Cli.run (YulInline.Cli.machine (timing == some "1")) arguments
  return if succeeded then 0 else 1
