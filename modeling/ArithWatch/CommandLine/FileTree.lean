import ArithWatch.CommandLine.Standing

namespace ArithWatch

/-!
# Files in memory

A tree of files with a working directory, for runs that touch no disk.  A directory exists if the
working directory, a device or a file is in it, or if every machine has it.

* `FileTree.locate` finds the place of a path: its names are followed one by one.
* `FileTree.read` says what a path gives, `FileTree.target` where a text goes that is written to a
  path, and both why there is nothing of the kind.
-/

/-- What is at a place. -/
inductive Entry
  | file (text : String)
  | directory
  | device (d : Device)
  deriving DecidableEq, Repr

/-- The files of a machine; of two at one place the first counts. -/
structure FileTree where
  workingDirectory : Place
  files : List (Place × String)
  deriving DecidableEq, Repr

namespace FileTree

/-- The place of a file with the given path from a directory. -/
def below (here : Place) (path : String) : Place :=
  here ++ (Path.namesIn path).filter (· ≠ ".")

/-- The tree with the given files in its working directory; of two of one path the last counts.  The
    working directory has an empty name, which no path spells, so that the way to it from outside
    stays unknown. -/
def ofFiles (files : List (String × String)) : FileTree :=
  let here := ["tmp", ""]
  ⟨here, (files.reverse.map fun (path, text) => (below here path, text)) ++ Standing.files⟩

/-- Is a directory there? -/
def hasDirectory (t : FileTree) (l : Place) : Bool :=
  l.isPrefixOf t.workingDirectory || Standing.directories.any l.isPrefixOf ||
    Standing.devices.any (fun (device, _) => l.isPrefixOf device.dropLast) ||
    t.files.any fun (file, _) => l.isPrefixOf file.dropLast

/-- What is at a place. -/
def lookup? (t : FileTree) (l : Place) : Option Entry :=
  match Standing.devices.lookup l with
  | some device => some (.device device)
  | none =>
    match t.files.lookup l with
    | some text => some (.file text)
    | none => if t.hasDirectory l then some .directory else none

/-- Puts a file at a place. -/
def put (t : FileTree) (l : Place) (text : String) : FileTree :=
  { t with files := (l, text) :: t.files.filter (·.1 ≠ l) }

/-! ### Following paths -/

/-- Where a place leads, if it is a link. -/
def follow (t : FileTree) (l : Place) : Place :=
  if l = Standing.workingDirectoryLink then t.workingDirectory
  else (Standing.links.lookup l).getD l

/-- The place that a name in a directory leads to. -/
def step (t : FileTree) (here : Place) (name : String) : Except FileError Place :=
  (here.step name).map t.follow

/-- Goes from one directory into another. -/
def enter (t : FileTree) (here : Place) (name : String) : Except FileError Place := do
  let there ← t.step here name
  match t.lookup? there with
  | none => .error .notFound
  | some .directory => .ok there
  | some _ => .error .notDirectory

/-- The directory in which the last name of a path is looked up. -/
def parent (t : FileTree) (path : Path) : Except FileError Place :=
  path.names.dropLast.foldlM t.enter (if path.fromRoot then [] else t.workingDirectory)

/-- The place of a path, whether something is there or not. -/
def locate (t : FileTree) (path : Path) : Except FileError Place := do
  let parent ← t.parent path
  match path.names.getLast? with
  | none => .ok parent
  | some name => t.step parent name

/-! ### Reading and writing -/

/-- The text in a device. -/
def deviceText : Device → Except FileError String
  | .terminal => .error .noDevice
  | .program => .error .notText
  | .null | .full | .stream _ => .ok ""

/-- The text of a file. -/
def read (t : FileTree) (path : String) : Except FileError String := do
  let path ← Path.ofText path
  match t.lookup? (← t.locate path), path.endsInSlash with
  | none, _ => .error .notFound
  | some .directory, _ => .error .isDirectory
  | some _, true => .error .notDirectory
  | some (.file text), false => .ok text
  | some (.device d), false => deviceText d

/-- Where a text goes. -/
inductive Target
  | place (l : Place)
  | device (d : Device)
  deriving DecidableEq, Repr

/-- Where a text goes that is written to a path.  What the system keeps in its own directories can
    be opened, but takes no text. -/
def target (t : FileTree) (path : String) : Except FileError Target := do
  let path ← Path.ofText path
  if path.asksForDirectory then
    let _ ← t.parent path
    .error .isDirectory
  else
    let l ← t.locate path
    match t.lookup? l, Standing.refusal? l with
    | some .directory, _ => .error .isDirectory
    | some (.device d), _ => .ok (.device d)
    | some (.file _), some _ => .error .inputOutput
    | none, some e => .error e
    | _, none => .ok (.place l)

end FileTree

end ArithWatch
