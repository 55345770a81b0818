namespace ArithWatch

/-!
# Paths

* `FileError` says why a file cannot be read or written.
* `Path` is a path taken apart into its names.
* `Place` is where a path leads, spelled from the root.
-/

/-- Why a file cannot be read or written. -/
inductive FileError
  | notFound
  | inputOutput
  | noDevice
  | notPermitted
  | notDirectory
  | isDirectory
  | busy
  | noSpace
  | tooLong
  /-- The bytes of the file are no text. -/
  | notText
  deriving DecidableEq, Repr

namespace FileError

def all : List FileError :=
  [.notFound, .inputOutput, .noDevice, .notPermitted, .notDirectory, .isDirectory, .busy, .noSpace,
    .tooLong, .notText]

/-- The number of the system for an error, if the error is one of the system. -/
def number? : FileError → Option Nat
  | .notFound => some 2
  | .inputOutput => some 5
  | .noDevice => some 6
  | .notPermitted => some 13
  | .notDirectory => some 20
  | .isDirectory => some 21
  | .busy => some 26
  | .noSpace => some 28
  | .tooLong => some 36
  | .notText => none

/-- The words for an error. -/
def words : FileError → String
  | .notFound => "No such file or directory"
  | .inputOutput => "Input/output error"
  | .noDevice => "No such device or address"
  | .notPermitted => "Permission denied"
  | .notDirectory => "Not a directory"
  | .isDirectory => "Is a directory"
  | .busy => "Text file busy"
  | .noSpace => "No space left on device"
  | .tooLong => "File name too long"
  | .notText => "stream did not contain valid UTF-8"

/-- The words for an error with its number. -/
def message (e : FileError) : String :=
  match e.number? with
  | some number => e.words ++ " (os error " ++ toString number ++ ")"
  | none => e.words

/-- The error of a number. -/
def ofNumber? (number : Nat) : Option FileError := all.find? (·.number? == some number)

end FileError

/-! ### Paths -/

/-- A path taken apart: the names between its slashes, and whether it starts or ends in a slash. -/
structure Path where
  fromRoot : Bool
  names : List String
  endsInSlash : Bool
  deriving DecidableEq, Repr

namespace Path

/-- The number of bytes that a path may not reach. -/
def sizeLimit : Nat := 4096

/-- The most bytes in a single name. -/
def maxNameSize : Nat := 255

/-- The names on a path. -/
def namesIn (text : String) : List String := (text.splitOn "/").filter (· ≠ "")

/-- Takes a path apart. -/
def ofText (text : String) : Except FileError Path :=
  if text = "" then .error .notFound
  else if sizeLimit ≤ text.utf8ByteSize then .error .tooLong
  else .ok ⟨text.startsWith "/", namesIn text, text.endsWith "/"⟩

/-- Is it clear from the path alone that it asks for a directory? -/
def asksForDirectory (path : Path) : Bool :=
  path.endsInSlash ||
    match path.names.getLast? with
    | none | some "." | some ".." => true
    | some _ => false

end Path

/-! ### Places -/

/-- The names on the way from the root, none of them `.` or `..`. -/
abbrev Place := List String

namespace Place

/-- The place that a path from the root spells. -/
def ofText (path : String) : Place := Path.namesIn path

/-- Where a name leads.  Above the root is the root. -/
def step (here : Place) (name : String) : Except FileError Place :=
  if name = "." then .ok here
  else if name = ".." then .ok here.dropLast
  else if Path.maxNameSize < name.utf8ByteSize then .error .tooLong
  else .ok (here ++ [name])

end Place

end ArithWatch
