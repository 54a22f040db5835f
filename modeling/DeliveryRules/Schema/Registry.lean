import DeliveryRules.Schema.Basic

/-!
# Schemas by version

A registry knows one schema for each version: registering a version again replaces it.
-/

namespace DeliveryRules

structure Registry where
  entries : List (String × Schema)

namespace Registry

def empty : Registry := ⟨[]⟩

def find? (r : Registry) (version : String) : Option Schema := r.entries.lookup version

def insert (r : Registry) (version : String) (schema : Schema) : Registry :=
  ⟨(version, schema) :: r.entries.filter (·.1 ≠ version)⟩

def register (r : Registry) (version : String) (schema : Json) : Except SchemaFault Registry :=
  (Schema.ofJson schema).map (r.insert version)

end Registry

end DeliveryRules
