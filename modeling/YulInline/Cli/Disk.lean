import YulInline.Cli.Host

/-!
# Files in memory

A disk is a list of files below the directory that the program runs in; a directory exists when a
file is below it. A path is walked part by part: every part but the last has to be a directory. What
lies outside of that directory, by an absolute path or by stepping up too far, is a directory with
nothing in it, where nothing can be put.
-/

namespace YulInline.Cli

/-- Files by the parts of their paths, with their contents. -/
structure Disk where
  /-- The files; each path occurs once. -/
  files : List (List String × String)
deriving DecidableEq, Repr

namespace Disk

/-- A directory. -/
inductive Place where
  /-- A directory of the disk, by the parts of its path. -/
  | inside (parts : List String)
  /-- A directory that is not on the disk. -/
  | outside
deriving DecidableEq, Repr

/-- The content of a file. -/
def content? (disk : Disk) (parts : List String) : Option String :=
  disk.files.lookup parts

/-- Whether a path leads to a directory of the disk. -/
def isDirectory (disk : Disk) (parts : List String) : Bool :=
  parts.isEmpty || disk.files.any fun (path, _) => parts.isPrefixOf path && parts ≠ path

/-- Whether a part of a path is a name, and not a step on the spot or upwards. -/
def isName (part : String) : Bool :=
  part ≠ "" && part ≠ "." && part ≠ ".."

/-- The directory that one part of a path leads to. -/
def enter (disk : Disk) (place : Place) (part : String) : Except FileError Place :=
  if isName part then
    match place with
    | .outside => .error .notFound
    | .inside parts =>
      if disk.isDirectory (parts ++ [part]) then .ok (.inside (parts ++ [part]))
      else if (disk.content? (parts ++ [part])).isSome then .error .notDirectory
      else .error .notFound
  else if part = ".." then
    match place with
    | .inside (first :: parts) => .ok (.inside (first :: parts).dropLast)
    | _ => .ok .outside
  else .ok place

/-- The directory that the parts of a path lead to. -/
def enterAll (disk : Disk) (place : Place) (parts : List String) : Except FileError Place :=
  parts.foldlM disk.enter place

/-- Where a path starts. -/
def startOf (path : String) : Place :=
  if path.toList.head? = some '/' then .outside else .inside []

/-- Reads the file that a path leads to. -/
def read (disk : Disk) (path : String) : Except FileError String := do
  if path = "" then throw .notFound
  let parts := path.splitOn "/"
  let place ← disk.enterAll (startOf path) parts.dropLast
  let part := parts.getLastD ""
  if isName part then
    match place with
    | .outside => throw .notFound
    | .inside parents =>
      match disk.content? (parents ++ [part]) with
      | some text => return text
      | none => if disk.isDirectory (parents ++ [part]) then throw .isDirectory else throw .notFound
  else throw .isDirectory

/-- The disk in which a file has a given content. -/
def put (disk : Disk) (parts : List String) (text : String) : Disk :=
  if (disk.content? parts).isSome then
    ⟨disk.files.map fun (path, old) => if path = parts then (path, text) else (path, old)⟩
  else ⟨disk.files ++ [(parts, text)]⟩

/-- Writes the file that a path leads to, which comes about if need be. A path that ends in a slash
names a directory in any case. -/
def write (disk : Disk) (path text : String) : Except FileError Disk := do
  if path = "" then throw .notFound
  let parts := path.splitOn "/"
  let named := (parts.reverse.dropWhile fun part => part = "").reverse
  let place ← disk.enterAll (startOf path) named.dropLast
  let part := named.getLastD ""
  if isName part && named.length = parts.length then
    match place with
    | .outside => throw .notFound
    | .inside parents =>
      if disk.isDirectory (parents ++ [part]) then throw .isDirectory
      else return disk.put (parents ++ [part]) text
  else if isName part then throw .isDirectory
  else
    let _ ← disk.enter place part
    throw .isDirectory

end Disk

/-- A program run on files in memory: the files, and what was printed so far. -/
structure Session where
  /-- The files. -/
  disk : Disk
  /-- What was printed on the standard output. -/
  output : String := ""
  /-- What was printed on the error output. -/
  errors : String := ""

/-- The host of a program that runs on files in memory, where no time passes. -/
def Session.host (showsTiming : Bool) : Host (StateM Session) where
  read path := do return (← get).disk.read path
  isFile path := do return ((← get).disk.read path).isOk
  write path text := do
    let session ← get
    match session.disk.write path text with
    | .ok disk =>
      set { session with disk }
      return .ok ()
    | .error cause => return .error cause
  printLine text := modify fun session => { session with output := session.output ++ text ++ "\n" }
  printError text := modify fun session => { session with errors := session.errors ++ text ++ "\n" }
  now := pure 0
  showsTiming := showsTiming

end YulInline.Cli
