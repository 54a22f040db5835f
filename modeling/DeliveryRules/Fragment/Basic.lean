import DeliveryRules.Fragment.Format
import DeliveryRules.Rule.Basic

/-!
# Fragments

A fragment is a rule that was written down in a file of its own. A child of it is a rule, or the
mention of another fragment.

* `FragmentRule.decode`: reads a fragment from a JSON value. The schema of fragments asks more than
  this does; a schema from elsewhere may ask less.
-/

namespace DeliveryRules

structure FragmentEntry where
  name : String
  options : Json

namespace FragmentEntry

def shape : RecordShape FragmentEntry where
  name := "FragmentCapability"
  fields := ["name", "options"]
  required := 1
  put e field j :=
    match field with
    | "name" => do return { e with name := ← Decoder.string j }
    | _ => .ok { e with options := j }

def decode : Decoder FragmentEntry := shape.decode ⟨"", .null⟩

end FragmentEntry

structure FragmentVariable where
  name : String
  description : Option String := none
  hidden : Bool := false
  sensitive : Bool := false

namespace FragmentVariable

def shape : RecordShape FragmentVariable where
  name := "FragmentVariable"
  fields := ["name", "description", "hidden", "sensitive"]
  required := 1
  put v field j :=
    match field with
    | "name" => do return { v with name := ← Decoder.string j }
    | "description" => do return { v with description := ← Decoder.optional Decoder.string j }
    | "hidden" => do return { v with hidden := ← Decoder.bool j }
    | _ => do return { v with sensitive := ← Decoder.bool j }

def decode : Decoder FragmentVariable := shape.decode { name := "" }

end FragmentVariable

/-- What a fragment says of a rule itself. -/
structure FragmentHead where
  name : Option String := none
  comment : Option String := none
  policy : Option MatchPolicy := none
  criteria : List FragmentEntry := []
  behaviors : List FragmentEntry := []
  declared : List FragmentVariable := []

mutual

inductive FragmentRule where
  | mk (head : FragmentHead) (children : List FragmentChild)

inductive FragmentChild where
  | mention (text : String)
  | rule (r : FragmentRule)

end

namespace FragmentRule

def head : FragmentRule → FragmentHead
  | .mk h _ => h

def children : FragmentRule → List FragmentChild
  | .mk _ cs => cs

def decodeChild (rule : Decoder FragmentRule) : Decoder FragmentChild
  | .string s => .ok (.mention s)
  | j =>
    match rule j with
    | .ok r => .ok (.rule r)
    | .error _ => .error (.noForm "FragmentChild")

def shape (rule : Decoder FragmentRule) : RecordShape FragmentRule where
  name := "FragmentRule"
  fields := ["name", "comment", "matchPolicy", "criteria", "behaviors", "variables", "children"]
  required := 0
  put r field j :=
    let of (h : FragmentHead) : FragmentRule := .mk h r.children
    match field with
    | "name" => do return of { r.head with name := ← Decoder.optional Decoder.string j }
    | "comment" => do return of { r.head with comment := ← Decoder.optional Decoder.string j }
    | "matchPolicy" => do
      return of { r.head with policy := ← Decoder.optional MatchPolicy.decode j }
    | "criteria" => do
      return of { r.head with criteria := ← Decoder.listOf FragmentEntry.decode j }
    | "behaviors" => do
      return of { r.head with behaviors := ← Decoder.listOf FragmentEntry.decode j }
    | "variables" => do
      return of { r.head with declared := ← Decoder.listOf FragmentVariable.decode j }
    | _ => do return .mk r.head (← Decoder.listOf (decodeChild rule) j)

/-- Rules nest no deeper than the value they are read from. -/
def decodeWithin : Nat → Decoder FragmentRule
  | 0, j => .error (.wrongType j "struct FragmentRule")
  | fuel + 1, j => (shape (decodeWithin fuel)).decode (.mk {} []) j

def decode : Decoder FragmentRule := fun j => decodeWithin (j.depth + 1) j

end FragmentRule

end DeliveryRules
