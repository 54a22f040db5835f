import DeliveryRules.Text.Basic

/-!
# Paths of files

A path is a text of names with slashes between them. Nothing here asks a file system.

* `join`: a path seen from a directory.
* `parent?`, `extension?`, `stem?`: parts of a path.
* `normal`: the path with `.` and, where a name precedes it, `..` folded.
* `resolve`: the normal path of an expression seen from a directory.
-/

namespace DeliveryRules

structure Path where
  text : String
deriving DecidableEq, Repr, Inhabited

namespace Path

def separator : Char := '/'

def isAbsolute (p : Path) : Bool :=
  p.text.toList.head? = some separator

/-- `p` seen from `base`: an absolute path is what it is, and nothing stands before a relative one
where `base` is empty. -/
def join (base p : Path) : Path :=
  if p.isAbsolute || base.text.isEmpty then p
  else if base.text.toList.getLast? = some separator then ⟨base.text ++ p.text⟩
  else ⟨base.text ++ "/" ++ p.text⟩

def pieces (p : Path) : List String :=
  (Text.cut separator p.text.toList).map String.ofList

/-- Pieces that lead nowhere. -/
def isIdle (piece : String) : Bool := piece = "" || piece = "."

/-- The names and `..` of a path, in order. -/
def names (p : Path) : List String :=
  p.pieces.filter (!isIdle ·)

/-- Pieces of a path from the last to the first, without those at its end that lead nowhere. The
first piece of all stays: it says that a path is absolute, or is the `.` it starts with. -/
def dropIdle : List String → List String
  | [] => []
  | [first] => [first]
  | last :: p :: ps => if isIdle last then dropIdle (p :: ps) else last :: p :: ps

private def ofPieces (absolute : Bool) (reversed : List String) : Path :=
  if absolute && reversed.length ≤ 1 then ⟨"/"⟩
  else ⟨String.intercalate "/" reversed.reverse⟩

/-- The directory of a path. The root and the empty path have none. -/
def parent? (p : Path) : Option Path :=
  match dropIdle p.pieces.reverse with
  | [] => none
  | [first] => if first = "" then none else some ⟨""⟩
  | _ :: above => some (ofPieces p.isAbsolute (dropIdle above))

/-- The last name of a path, unless that is `..`. -/
def fileName? (p : Path) : Option String :=
  p.names.getLast?.filter (· ≠ "..")

/-- A file name split at its last dot. A dot that starts the name does not count. -/
def splitName (name : String) : String × Option String :=
  match (Text.cut '.' name.toList).reverse with
  | [] => (name, none)
  | [_] => (name, none)
  | last :: before =>
    let stem := Text.glue ['.'] before.reverse
    if stem.isEmpty then (name, none) else (String.ofList stem, some (String.ofList last))

def stem? (p : Path) : Option String := p.fileName?.map fun n => (splitName n).1

def extension? (p : Path) : Option String := p.fileName?.bind fun n => (splitName n).2

/-- One more step: `..` takes back the step before it and stays where there is none. -/
def descend (steps : List String) (name : String) : List String :=
  if name = ".." then
    match steps with
    | [] => [".."]
    | _ :: above => above
  else name :: steps

/-- The path with its steps folded from left to right. -/
def normal (p : Path) : Path :=
  let steps := (p.names.foldl descend []).reverse
  ⟨(if p.isAbsolute then "/" else "") ++ String.intercalate "/" steps⟩

/-- The path that `expression` stands for in a file of the directory `origin`. -/
def resolve (origin : Path) (expression : String) : Path :=
  (origin.join ⟨expression⟩).normal

end Path

end DeliveryRules
