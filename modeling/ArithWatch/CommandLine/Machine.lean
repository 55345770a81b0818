import ArithWatch.CommandLine.FileTree

namespace ArithWatch

/-!
# A machine in memory

What a run can touch: a tree of files and the two streams that it prints to.  A stream is also a
device, so that a text can be written to it by a path.

* `Machine.print` prints on a stream.
* `Machine.read` and `Machine.write` read and write by a path.
-/

/-- A tree of files, and what has been printed on the two streams. -/
structure Machine where
  tree : FileTree
  stdout : String := ""
  stderr : String := ""
  deriving DecidableEq, Repr

namespace Machine

/-- The machine with the given files in its working directory. -/
def ofFiles (files : List (String × String)) : Machine := { tree := .ofFiles files }

/-- Prints on a stream. -/
def print (m : Machine) (text : String) : Stream → Machine
  | .stdout => { m with stdout := m.stdout ++ text }
  | .stderr => { m with stderr := m.stderr ++ text }

/-- The text of a file. -/
def read (m : Machine) (path : String) : Except FileError String := m.tree.read path

/-- Sends a text to a device. -/
def send (m : Machine) (text : String) : Device → Except FileError Machine
  | .null => .ok m
  | .full => .error .noSpace
  | .terminal => .error .noDevice
  | .program => .error .busy
  | .stream s => .ok (m.print text s)

/-- Writes a file, in place of an earlier one at the same place. -/
def write (m : Machine) (path text : String) : Except FileError Machine := do
  match ← m.tree.target path with
  | .place l => return { m with tree := m.tree.put l text }
  | .device d => m.send text d

end Machine

end ArithWatch
