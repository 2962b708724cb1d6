import PrivateHistogram.CommandLine

/-!
The command on a directory that is a value: what it does to files can be told without a disk.

A path is followed from the directory part by part, and each part but the last has to lead to a directory.
Directories are those with files below them, and those on the way up. A path that starts at the root leads
nowhere, since nothing is known of the root.
-/

namespace PrivateHistogram.CommandLine

/-- A place among directories: so many directories up, and from there down by the given names. -/
structure Place where
  up : Nat
  down : List String
deriving DecidableEq

namespace Place

def here : Place := ⟨0, []⟩

/-- Whether a part of a path stays in the directory it is in. -/
def isIdle (part : String) : Bool := part = "" || part = "."

/-- The place that a part of a path leads to. -/
def enter (p : Place) (part : String) : Place :=
  if isIdle part then p
  else if part = ".." then if p.down = [] then ⟨p.up + 1, []⟩ else ⟨p.up, p.down.dropLast⟩
  else ⟨p.up, p.down ++ [part]⟩

def isBelow (p q : Place) : Bool := p.up = q.up && q.down.length < p.down.length && q.down.isPrefixOf p.down

end Place

/-- Files by their places. -/
abbrev Directory := List (Place × Bytes)

namespace Directory

def pathLimit : Nat := 4096

def maxNameSize : Nat := 255

def parts (path : String) : List String := (path.toList.splitOn '/').map String.ofList

/-- Whether there is a directory at a place. -/
def hasDirectory (d : Directory) (p : Place) : Bool := p.down = [] || d.any fun file => file.1.isBelow p

/-- The place of the file that the parts of a path lead to. -/
def follow (d : Directory) (p : Place) : List String → Option Place
  | [] => none
  | [name] =>
    let file := p.enter name
    if Place.isIdle name || name = ".." || d.hasDirectory file then none else some file
  | part :: rest =>
    let next := p.enter part
    if d.hasDirectory next then d.follow next rest else none

/-- The place of the file that a path leads to, whether or not the file is there. -/
def resolve (d : Directory) (path : String) : Option Place :=
  if path.startsWith "/" || pathLimit ≤ path.utf8ByteSize then none
  else if (parts path).any fun part => maxNameSize < part.utf8ByteSize then none
  else d.follow .here (parts path)

/-- Access to the files of a directory. -/
def files : Files (StateM Directory) where
  read? path := do
    let d ← get
    return (d.resolve path).bind fun place => List.lookup place d
  write path content := do
    let d ← get
    let some place := d.resolve path | return false
    set ((place, content) :: d.filter fun file => file.1 ≠ place)
    return true

def ofFiles (files : List (String × Bytes)) : Directory :=
  files.map fun (name, content) => (⟨0, (parts name).filter fun part => !Place.isIdle part⟩, content)

/-- The files in a directory and below it. -/
def toFiles (d : Directory) : List (String × Bytes) :=
  (d.filter fun file => file.1.up = 0).map fun (place, content) => ("/".intercalate place.down, content)

/-- Runs a command line in a directory with some files: the exit code, and the files that are new. -/
def run (files : List (String × Bytes)) (tape : RandomTape) (arguments : List String) :
    UInt32 × List (String × Bytes) :=
  let before := ofFiles files
  let (result, after) := (CommandLine.run Directory.files tape arguments).run before
  let made := after.filter fun file => (before.lookup file.1).isNone
  match result with
  | .ok () => (0, toFiles made)
  | .error problem => (problem.exitCode, toFiles made)

end Directory

end PrivateHistogram.CommandLine
