import DeliveryRules.Files

/-!
# Disks

A disk holds a tree of directories, with texts and other files in them, and a current directory. A
path is walked from left to right: each step needs a directory to start from, so `..` behind a name
that does not exist leads nowhere.

* `Disk.walk`: the place a path leads to.
* `Disk.files`: a disk as `Files`.
* `Disk.write`: puts a text into a file of a directory that exists.
* `Disk.ofFiles`: the smallest disk with given directories and files.
-/

namespace DeliveryRules

/-- The names that lead to a file from the root, from the last to the first. -/
abbrev Place := List String

namespace Disk

inductive Content where
  | directory
  | text (text : String)
  /-- A file that holds no text. -/
  | binary
deriving DecidableEq, Repr

end Disk

structure Disk where
  entries : List (Place × Disk.Content)
  current : Place
deriving Repr

namespace Disk

/-- What is at a place. The root is a directory, and so is what anything lies below. -/
def content? (d : Disk) (place : Place) : Option Content :=
  match d.entries.lookup place with
  | some content => some content
  | none =>
    if place.isEmpty || d.entries.any (fun e => place.isSuffixOf e.1) then some .directory
    else none

/-- No name on a disk has more bytes. -/
def maxNameSize : Nat := 255

/-- One step of a walk. -/
def step (d : Disk) (here : Place) (piece : String) : Except ReadFailure Place :=
  if d.content? here ≠ some .directory then .error .notDirectory
  else if Path.isIdle piece then .ok here
  else if piece = ".." then .ok here.tail
  else if maxNameSize < piece.utf8ByteSize then .error .nameTooLong
  else if (d.content? (piece :: here)).isNone then .error .noSuchFile
  else .ok (piece :: here)

/-- Where a walk starts. -/
def start (d : Disk) (p : Path) : Place := if p.isAbsolute then [] else d.current

/-- The place a path leads to. -/
def walk (d : Disk) (p : Path) : Except ReadFailure Place :=
  if p.text.isEmpty then .error .noSuchFile
  else if p.text.contains '\x00' then .error .nulInPath
  else p.pieces.foldlM d.step (d.start p)

def read (d : Disk) (p : Path) : Except ReadFailure String := do
  match d.content? (← d.walk p) with
  | some (.text text) => return text
  | some .binary => throw .notText
  | some .directory => throw .isDirectory
  | none => throw .noSuchFile

/-- The name of an entry that is a file of a directory. -/
private def nameIn? (directory : Place) : Place × Content → Option String
  | (_, .directory) => none
  | ([], _) => none
  | (name :: above, _) => if above = directory then some name else none

def list (d : Disk) (p : Path) : Except ReadFailure (List Path) := do
  let place ← d.walk p
  if d.content? place ≠ some .directory then throw .notDirectory
  return Path.sorted ((d.entries.filterMap (nameIn? place)).map fun name => p.join ⟨name⟩)

/-- The files of a disk. A file has no more than four normal paths: from the root or from the
current directory, and with or without `..` at its start. -/
def files (d : Disk) : Files where
  read := d.read
  list := d.list
  count := 4 * d.entries.length

/-- Puts a text into a file, if its directory exists and the path does not lead to a directory. -/
def write? (d : Disk) (p : Path) (text : String) : Option Disk :=
  match p.pieces.reverse with
  | [] => none
  | name :: above =>
    if Path.isIdle name || name = ".." || maxNameSize < name.utf8ByteSize then none
    else
      match above.reverse.foldlM d.step (d.start p) with
      | .error _ => none
      | .ok directory =>
        let place := name :: directory
        if d.content? directory ≠ some .directory || d.content? place = some .directory then none
        else some { d with entries := (place, .text text) :: d.entries.filter (·.1 ≠ place) }

/-- The place of a path if nothing on the disk matters to it. -/
def placeOf (start : Place) (p : Path) : Place :=
  p.names.foldl (fun here piece => if piece = ".." then here.tail else piece :: here)
    (if p.isAbsolute then [] else start)

/-- A directory at each path with nothing, a file at the others, and all directories above them.
Relative paths start from `base`, in which `current` is. -/
def ofFiles (base current : Path) (contents : List (Path × Content)) : Disk :=
  let root := placeOf [] base
  let place (p : Path) : Place := placeOf root p
  { entries := (contents.map fun c => (place c.1, c.2)) ++ [(place current, .directory)]
    current := place current }

/-- The current directory as a path. -/
def currentPath (d : Disk) : Path := ⟨"/" ++ String.intercalate "/" d.current.reverse⟩

end Disk

end DeliveryRules
