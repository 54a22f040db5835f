import DeliveryRules.Rule.Outline
import DeliveryRules.Json.Printer

/-!
# Trees as documents

A document holds the rules of a tree in the shape in which they are sent away, with the version of
this shape. Empty lists are left out. The variables stand on the root.
-/

namespace DeliveryRules

structure Document where
  ruleFormat : String
  rules : Json

namespace Document

def toJson (d : Document) : Json :=
  .object [("ruleFormat", .string d.ruleFormat), ("rules", d.rules)]

def text (d : Document) : String := d.toJson.pretty

end Document

namespace Capability

def toJson (c : Capability) : Json :=
  .object [("name", .string c.name), ("options", .object c.options),
    ("provenance", .string c.provenance.text)]

end Capability

namespace Variable

def toJson (v : Variable) : Json :=
  .object [("name", .string v.name), ("value", .string ""),
    ("description", .string v.description), ("hidden", .bool v.hidden),
    ("sensitive", .bool v.sensitive), ("provenance", .string v.provenance.text)]

end Variable

/-- A member that is there only if its list has items. -/
def unlessEmpty (name : String) (items : List Json) : Members :=
  if items.isEmpty then [] else [(name, .array items)]

/-- The members of a rule in the order of the document. -/
def Rule.toMembers (r : Rule) (declared children : List Json) : Members :=
  [("name", .string r.label), ("comment", .string r.remark)] ++
    (r.provenance.map fun p => ("provenance", Json.string p.text)).toList ++
    unlessEmpty "criteria" (r.criteria.map Capability.toJson) ++
    (r.policy.map fun p => ("matchPolicy", Json.string p.name)).toList ++
    unlessEmpty "variables" declared ++
    unlessEmpty "behaviors" (r.behaviors.map Capability.toJson) ++
    unlessEmpty "children" children

/-- A rule with those below it, and with variables. -/
def Outline.toJson (declared : List Json) : Outline → Json
  | .node _ r children => .object (r.toMembers declared (below children))
where
  below : List Outline → List Json
    | [] => []
    | o :: os => toJson [] o :: below os

namespace RuleTree

def rules (t : RuleTree) : Json :=
  t.outline.toJson (t.declared.map Variable.toJson)

def document (t : RuleTree) (ruleFormat : String) : Document := ⟨ruleFormat, t.rules⟩

end RuleTree

end DeliveryRules
