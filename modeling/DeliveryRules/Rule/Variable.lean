import DeliveryRules.Provenance

/-!
# Variables of a rule tree

A tree has one table of variables, in the order in which they were declared. A name is declared
once: the first declaration counts.
-/

namespace DeliveryRules

structure Variable where
  name : String
  description : String
  hidden : Bool
  sensitive : Bool
  provenance : Provenance
deriving DecidableEq, Repr

namespace Variable

/-- How a variable is described that was found where it is used. -/
def foundAt (p : Provenance) : String := s!"defined at {p.text}"

/-- A variable that was found at `p`. -/
def found (name : String) (p : Provenance) : Variable where
  name := name
  description := foundAt p
  hidden := false
  sensitive := false
  provenance := p

end Variable

abbrev VariableTable := List Variable

namespace VariableTable

def find? (t : VariableTable) (name : String) : Option Variable :=
  List.find? (·.name = name) t

def knows (t : VariableTable) (name : String) : Bool :=
  List.any t (·.name = name)

def declare (t : VariableTable) (v : Variable) : VariableTable :=
  if t.knows v.name then t else t ++ [v]

end VariableTable

end DeliveryRules
