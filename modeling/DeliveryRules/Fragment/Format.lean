import DeliveryRules.Capability.Catalog

/-!
# The schema of fragments

`Catalog.ruleSchema` describes the rules that a fragment may hold: names of capabilities are those
of the catalog, and options fit the option schema of their capability. A child is a rule, or a
string that says which fragment stands in its place.
-/

namespace DeliveryRules

/-- The version of rules that name none, where settings name none either. -/
def defaultRuleFormat : String := "v2024-02-12"

/-- What a child that stands for another fragment starts with. -/
def includeMark : String := "#include:"

namespace Catalog

def typed (name : String) : Json := .object [("type", .string name)]

def ref (name : String) : Json :=
  .object [("$ref", .string s!"#/definitions/{name}")]

def listed (item : Json) : Json :=
  .object [("type", .string "array"), ("items", item)]

/-- A child: a string with the mark and something after it, or a rule. -/
def childSchema : Json :=
  .object [("if", typed "string"),
    ("then", .object [("pattern", .string ("^" ++ includeMark ++ ".+"))]),
    ("else", ref "rule")]

def ruleShape : Json :=
  .object [("type", .string "object"),
    ("properties", .object
      [("ruleFormat", typed "string"), ("name", typed "string"), ("comment", typed "string"),
        ("provenance", typed "string"),
        ("matchPolicy", .object [("enum", .strings ["any", "all"])]),
        ("criteria", listed (ref "criteria")), ("behaviors", listed (ref "behavior")),
        ("variables", listed (ref "variable")), ("children", listed childSchema)]),
    ("additionalProperties", .bool false)]

def variableShape : Json :=
  .object [("type", .string "object"), ("required", .strings ["name"]),
    ("properties", .object
      [("name", .object [("type", .string "string"), ("minLength", .int 1)]),
        ("value", typed "string"), ("description", typed "string"), ("hidden", typed "boolean"),
        ("sensitive", typed "boolean"), ("provenance", typed "string")]),
    ("additionalProperties", .bool false)]

/-- What the options of one capability have to be. -/
def optionsOf (d : Descriptor) : Json :=
  .object [("if", .object
      [("properties", .object [("name", .object [("const", .string d.name)])]),
        ("required", .strings ["name"])]),
    ("then", .object [("properties", .object [("options", d.optionSchema)])])]

/-- A use of a capability. Where the catalog has none of a kind, any name will do. -/
def capabilityShape (descriptors : List Descriptor) : Json :=
  let name :=
    if descriptors.isEmpty then typed "string"
    else .object [("enum", .strings (descriptors.map (·.name)))]
  .object ([("type", .string "object"), ("required", .strings ["name"]),
    ("properties", .object
      [("name", name), ("options", typed "object"), ("provenance", typed "string")]),
    ("additionalProperties", .bool false)] ++
    (if descriptors.isEmpty then [] else [("allOf", .array (descriptors.map optionsOf))]))

def ruleSchema (c : Catalog) : Json :=
  .object [("$schema", .string "http://json-schema.org/draft-07/schema#"),
    ("title", .string "Rule fragment"),
    ("definitions", .object
      [("rule", ruleShape), ("variable", variableShape),
        ("criteria", capabilityShape c.criteria), ("behavior", capabilityShape c.behaviors)]),
    ("$ref", .string "#/definitions/rule")]

end Catalog

end DeliveryRules
