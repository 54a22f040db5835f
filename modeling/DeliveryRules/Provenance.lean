import DeliveryRules.Path

/-!
# Where a rule or a capability came from

`file:line` for a call, the path for a fragment as a whole, `path:line` for an entry inside one.
-/

namespace DeliveryRules

structure Provenance where
  text : String
deriving DecidableEq, Repr, Inhabited

/-- The place of a call in a source file. -/
structure Site where
  file : String
  line : Nat
deriving DecidableEq, Repr

namespace Provenance

/-- Backslashes are written as slashes, so that a place reads the same on every system. -/
def slashes (s : String) : String :=
  String.ofList (Text.replaceChar '\\' ['/'] s.toList)

def ofPath (p : Path) : Provenance := ⟨slashes p.text⟩

def atLine (p : Path) (line : Nat) : Provenance := ⟨s!"{slashes p.text}:{line}"⟩

def ofSite (s : Site) : Provenance := atLine ⟨s.file⟩ s.line

end Provenance

/-- The directory of the file of a call. Relative files lie below `sourceRoot`. -/
def Site.directory (sourceRoot : Path) (s : Site) : Path :=
  (sourceRoot.join ⟨s.file⟩).parent?.getD sourceRoot

end DeliveryRules
