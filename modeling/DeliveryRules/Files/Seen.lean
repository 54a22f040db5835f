import DeliveryRules.Files

/-!
# Files that were looked at

Files of which only those are known that somebody has looked at. Whoever needs another one gets
`ReadFailure.unseen`, can have it looked at, and start again.

* `Seen.files`: what was looked at, as `Files`.
* `Glance`: what to look at next.
-/

namespace DeliveryRules

/-- What was found at the paths looked at. -/
structure Seen where
  texts : List (Path × Except ReadFailure String) := []
  lists : List (Path × Except ReadFailure (List Path)) := []

/-- A look at a file or into a directory. -/
inductive Glance where
  | text (path : Path)
  | list (path : Path)
deriving DecidableEq, Repr

namespace Seen

def files (s : Seen) : Files where
  read p := (s.texts.lookup p).getD (.error .unseen)
  list p := (s.lists.lookup p).getD (.error .unseen)
  count := s.texts.length

end Seen

end DeliveryRules
