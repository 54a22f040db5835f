import DeliveryRules.CompileError

/-!
# Files

What fragments and schemas are read from.

* `Files.read`: the text of the file with a path, or why there is none.
* `Files.list`: the files directly in a directory, in the order of their paths.
* `Files.ofTexts`: a store of texts under their paths. Here a path finds what has exactly its text,
  and a directory is there if anything is in it.
-/

namespace DeliveryRules

structure Files where
  read : Path → Except ReadFailure String
  list : Path → Except ReadFailure (List Path)
  /-- No more paths than this can be read without one leading to what another does. -/
  count : Nat

/-- Sorted by their texts, each once. -/
def Path.sorted (paths : List Path) : List Path :=
  (paths.mergeSort fun p q => p.text ≤ q.text).eraseDups

namespace Files

/-- What is directly in a directory has its path, a slash and a name. -/
def isDirectlyIn (directory path : String) : Bool :=
  match Text.afterPrefix? (directory ++ "/").toList path.toList with
  | some name => !name.contains '/'
  | none => false

def ofTexts (texts : List (String × String)) : Files where
  read p :=
    match texts.lookup p.text with
    | some text => .ok text
    | none => .error .noEntry
  list directory :=
    match texts.filter fun t => isDirectlyIn directory.text t.1 with
    | [] => .error .noEntry
    | inside => .ok (Path.sorted (inside.map fun t => ⟨t.1⟩))
  count := texts.length

end Files

end DeliveryRules
