import DeliveryRules.Json.Decode
import DeliveryRules.Provenance

/-!
# Capabilities

A capability is a match condition (criteria) or an effect (behavior) that a rule may use.

* `Descriptor`: what is known of a capability: the schema of its options, their defaults, and which
  of them hold names of variables.
* `Capability`: a use of a capability on a rule, with its options laid over the defaults.
-/

namespace DeliveryRules

inductive Capability.Kind where
  | criteria
  | behavior
deriving DecidableEq, Repr

namespace Capability.Kind

def name : Kind → String
  | criteria => "criteria"
  | behavior => "behavior"

def decode : Decoder Kind :=
  Decoder.variant [(criteria.name, criteria), (behavior.name, behavior)]

end Capability.Kind

structure Capability where
  name : String
  options : Members
  provenance : Provenance

/-- The options of a capability that have to do with variables. -/
structure VariableHandling where
  /-- Options in whose strings variables may be referred to. -/
  inline : List String := []
  /-- Options whose value is the name of a variable. -/
  names : List String := []
  /-- Options whose value is a list of names of variables. -/
  lists : List String := []
deriving DecidableEq, Repr

namespace VariableHandling

def isEmpty (h : VariableHandling) : Bool :=
  h.inline.isEmpty && h.names.isEmpty && h.lists.isEmpty

def toJson (h : VariableHandling) : Json :=
  .object [("inline", .strings h.inline), ("names", .strings h.names), ("lists", .strings h.lists)]

def shape : RecordShape VariableHandling where
  name := "VariableHandling"
  fields := ["inline", "names", "lists"]
  required := 0
  put h field j := do
    let names ← Decoder.listOf Decoder.string j
    return match field with
      | "inline" => { h with inline := names }
      | "names" => { h with names := names }
      | _ => { h with lists := names }

def decode : Decoder VariableHandling := shape.decode {}

end VariableHandling

structure Descriptor where
  name : String
  optionSchema : Json
  defaults : Members
  variableHandling : VariableHandling

namespace Descriptor

/-- A descriptor that says nothing but a name: any object will do for the options. -/
def bare (name : String) : Descriptor where
  name := name
  optionSchema := .object [("type", .string "object")]
  defaults := []
  variableHandling := {}

def toJson (d : Descriptor) : Json :=
  .object [("name", .string d.name), ("optionSchema", d.optionSchema),
    ("defaults", .object d.defaults), ("variableHandling", d.variableHandling.toJson)]

def shape : RecordShape Descriptor where
  name := "CapabilityDescriptor"
  fields := ["name", "optionSchema", "defaults", "variableHandling"]
  required := 1
  put d field j :=
    match field with
    | "name" => do return { d with name := ← Decoder.string j }
    | "optionSchema" => .ok { d with optionSchema := j }
    | "defaults" => do return { d with defaults := ← Decoder.members j }
    | _ => do return { d with variableHandling := ← VariableHandling.decode j }

def decode : Decoder Descriptor := shape.decode (bare "")

end Descriptor

end DeliveryRules
