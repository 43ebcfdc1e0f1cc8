import WordMachine.Files.SystemError
import WordMachine.Word

/-!
# Files by path

A tree of directories and files, and what reading the file at a path gives. A path is a list of
names with slashes between them, each of which is looked up in the directory reached by those
before it; the first name that cannot be looked up decides how reading fails.

This is no part of the program. It stands for the system around it: the program asks that system for
the image and hands the outcome to a run, and here the outcome can be had without one, for running
the program on arguments that name no file. Nothing of the machine or of a run is defined by it, and
what is proved of a run is proved whatever the outcome is.

* `enterAll_append`: a path is walked name by name, wherever it is cut.
* `read_of_pathLimit_le`: a path that is too long is refused whatever there is.
-/

namespace WordMachine.Files

/-! ## Trees -/

/-- Something that has a name in a directory. -/
inductive Node where
  | file (content : Array Byte)
  /-- a file that may not be read -/
  | locked
  | directory (entries : List (String × Node))

/-- A node with the directories on the way to it, the nearest one first. -/
structure Place where
  node : Node
  above : List Node

/-- The files of a system. -/
structure FileSystem where
  root : Node
  /-- the names that lead from the root to the directory at which relative paths begin -/
  working : List String

/-! ## Limits -/

/-- The greatest number of bytes in a name. -/
def nameLimit : Nat := 255

/-- The number of bytes from which on a path is too long. -/
def pathLimit : Nat := 4096

/-! ## Walking -/

namespace Place

/-- The place that a name leads to. In every directory the empty name and a single dot stand for
    the directory itself and two dots for the one above, which for the root is the root. -/
def enter (place : Place) (name : String) : Except SystemError Place :=
  match place.node with
  | .directory entries =>
    if name = "" ∨ name = "." then
      .ok place
    else if name = ".." then
      match place.above with
      | [] => .ok place
      | parent :: above => .ok ⟨parent, above⟩
    else if nameLimit < name.utf8ByteSize then
      .error .nameTooLong
    else
      match entries.lookup name with
      | some node => .ok ⟨node, place.node :: place.above⟩
      | none => .error .missing
  | _ => .error .notDirectory

/-- The place that names lead to, one after the other. -/
def enterAll (place : Place) : List String → Except SystemError Place
  | [] => .ok place
  | name :: rest =>
    match place.enter name with
    | .ok place => place.enterAll rest
    | .error error => .error error

theorem enterAll_append (place : Place) (names more : List String) :
    place.enterAll (names ++ more) =
      match place.enterAll names with
      | .ok place => place.enterAll more
      | .error error => .error error := by
  induction names generalizing place with
  | nil => rfl
  | cons name rest ih =>
    simp only [List.cons_append, enterAll]
    cases place.enter name with
    | ok next => exact ih next
    | error error => rfl

end Place

/-! ## Reading -/

namespace FileSystem

/-- The names on a path. A slash at either end, or next to another, has an empty name beside
    it. -/
def names (path : String) : List String := (path.toList.splitOn '/').map String.ofList

/-- The names that lead from the root to the file at a path. -/
def fromRoot (files : FileSystem) (path : String) : List String :=
  if path.toList.head? = some '/' then names path else files.working ++ names path

/-- The content of the file at a path. -/
def read (files : FileSystem) (path : String) : Except SystemError (Array Byte) :=
  if path = "" then
    .error .missing
  else if pathLimit ≤ path.utf8ByteSize then
    .error .nameTooLong
  else
    match (⟨files.root, []⟩ : Place).enterAll (files.fromRoot path) with
    | .error error => .error error
    | .ok ⟨.file content, _⟩ => .ok content
    | .ok ⟨.locked, _⟩ => .error .forbidden
    | .ok ⟨.directory _, _⟩ => .error .isDirectory

theorem read_of_pathLimit_le (files : FileSystem) {path : String}
    (h : pathLimit ≤ path.utf8ByteSize) : files.read path = .error .nameTooLong := by
  have hne : path ≠ "" := by
    intro he
    rw [he] at h
    exact absurd h (by decide)
  rw [read, if_neg hne, if_pos h]

/-! ## A bare system -/

/-- A directory without entries. -/
def empty : Node := .directory []

/-- A system with no more than every system has: the top of the directory hierarchy and some files
    in it, of which only the null device can be read. Relative paths begin at an empty
    directory. It stands for any system that has none of the files that arguments name. -/
def bare : FileSystem where
  root := .directory [
    ("bin", .directory [("ls", .locked), ("sh", .locked)]),
    ("boot", empty),
    ("dev", .directory [("fd", empty), ("full", .locked), ("null", .file #[]), ("pts", empty),
      ("random", .locked), ("shm", empty), ("tty", .locked), ("urandom", .locked),
      ("zero", .locked)]),
    ("etc", .directory [("group", .locked), ("hostname", .locked), ("hosts", .locked),
      ("passwd", .locked), ("resolv.conf", .locked), ("shadow", .locked)]),
    ("home", empty),
    ("lib", empty),
    ("media", empty),
    ("mnt", empty),
    ("opt", empty),
    ("proc", .directory [("cpuinfo", .locked), ("meminfo", .locked), ("version", .locked)]),
    ("root", empty),
    ("run", empty),
    ("sbin", empty),
    ("srv", empty),
    ("sys", empty),
    ("tmp", .directory [("work", empty)]),
    ("usr", .directory [("bin", .directory [("env", .locked), ("ls", .locked)]), ("include", empty),
      ("lib", empty), ("local", .directory [("bin", empty), ("lib", empty), ("share", empty)]),
      ("sbin", empty), ("share", empty), ("src", empty)]),
    ("var", .directory [("cache", empty), ("lib", empty), ("log", empty), ("run", empty),
      ("tmp", empty)])]
  working := ["tmp", "work"]

end FileSystem

end WordMachine.Files
