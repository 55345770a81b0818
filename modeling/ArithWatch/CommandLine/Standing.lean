import ArithWatch.CommandLine.Path

namespace ArithWatch

/-!
# What every machine has

The devices, links, directories and files that are there before any run, and the directories in
which no file can be made.

* `Device` is a file that is no text.
* `Standing` lists what is there, by place.
-/

/-- A stream that a run prints to. -/
inductive Stream
  | stdout
  | stderr
  deriving DecidableEq, Repr

/-- A file that is no text. -/
inductive Device
  /-- Nothing can be read from it, and nothing is kept of what is written to it.  The standard input
      of a run is such a device. -/
  | null
  /-- It has no room. -/
  | full
  /-- A terminal, which a run does not have. -/
  | terminal
  /-- A program that is running. -/
  | program
  | stream (s : Stream)
  deriving DecidableEq, Repr

namespace Standing

/-- Entries by the places that their paths spell. -/
def byPlace {α : Type} (entries : List (String × α)) : List (Place × α) :=
  entries.map fun (path, a) => (Place.ofText path, a)

/-- The devices.  The streams of a run have a number among its open files. -/
def devices : List (Place × Device) :=
  byPlace [("/dev/null", .null), ("/dev/full", .full), ("/dev/tty", .terminal),
    ("/proc/self/fd/0", .null), ("/proc/self/fd/1", .stream .stdout),
    ("/proc/self/fd/2", .stream .stderr), ("/proc/self/exe", .program), ("/usr/bin/sh", .program)]

/-- The links and where they lead, which is never a link. -/
def links : List (Place × Place) :=
  byPlace [("/bin", ["usr", "bin"]), ("/lib", ["usr", "lib"]), ("/sbin", ["usr", "sbin"]),
    ("/dev/fd", ["proc", "self", "fd"]), ("/dev/stdin", ["proc", "self", "fd", "0"]),
    ("/dev/stdout", ["proc", "self", "fd", "1"]), ("/dev/stderr", ["proc", "self", "fd", "2"]),
    ("/proc/self/root", [])]

/-- The link to the working directory. -/
def workingDirectoryLink : Place := Place.ofText "/proc/self/cwd"

/-- The directories. -/
def directories : List Place :=
  ["/boot", "/dev/pts", "/dev/shm", "/etc", "/home", "/media", "/mnt", "/opt", "/proc/sys/kernel",
    "/root", "/run", "/srv", "/sys/kernel", "/tmp", "/usr/bin", "/usr/lib", "/usr/local",
    "/usr/sbin", "/usr/share", "/var/lib", "/var/log", "/var/tmp"].map Place.ofText

/-- The files. -/
def files : List (Place × String) :=
  byPlace [("/etc/group", "root:x:0:\n"), ("/etc/hostname", "work\n"),
    ("/etc/hosts", "127.0.0.1 localhost\n"), ("/etc/passwd", "root:x:0:0:root:/root:/bin/sh\n"),
    ("/proc/cpuinfo", "processor : 0\n"), ("/proc/meminfo", "MemTotal: 0 kB\n"),
    ("/proc/self/status", "Name: work\n"), ("/proc/version", "Linux\n")]

/-- The directories that hold only what the system puts there, with the error for a new file. -/
def sealed : List (Place × FileError) :=
  byPlace [("/proc", .notFound), ("/sys", .notPermitted), ("/dev/pts", .notPermitted)]

/-- Why no file can be made at a place, if none can. -/
def refusal? (l : Place) : Option FileError :=
  (sealed.find? fun (directory, _) => directory.isPrefixOf l).map (·.2)

end Standing

end ArithWatch
