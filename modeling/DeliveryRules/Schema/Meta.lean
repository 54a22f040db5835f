import DeliveryRules.Schema.Draft

/-!
# Schemas of schemas

`Draft.meta d` is the schema that every schema of draft `d` has to fit. It lists what the members of
a schema may be, in the order of the published drafts; other members are free. The members of the
later drafts, which are published in several parts, are put together here.
-/

namespace DeliveryRules.Schema

namespace Meta

def kind (name : String) : Json := .object [("type", .string name)]

def text : Json := kind "string"

def flag : Json := kind "boolean"

def anything : Json := .bool true

/-- A schema again. -/
def schema : Json := .object [("$ref", .string "#")]

def count : Json := .object [("type", .string "integer"), ("minimum", .int 0)]

def number : Json := kind "number"

def positive : Json := .object [("type", .string "number"), ("exclusiveMinimum", .int 0)]

def listOf (item : Json) : Json := .object [("type", .string "array"), ("items", item)]

def schemas : Json :=
  .object [("type", .string "array"), ("minItems", .int 1), ("items", schema)]

def texts : Json :=
  .object [("type", .string "array"), ("items", text), ("uniqueItems", .bool true)]

def textsNotNone : Json :=
  .object [("type", .string "array"), ("items", text), ("minItems", .int 1),
    ("uniqueItems", .bool true)]

def valuesNotNone : Json :=
  .object [("type", .string "array"), ("minItems", .int 1), ("uniqueItems", .bool true)]

def anyOf (options : List Json) : Json := .object [("anyOf", .array options)]

def membersOf (member : Json) : Json :=
  .object [("type", .string "object"), ("additionalProperties", member)]

def pattern : Json := .object [("type", .string "string"), ("format", .string "regex")]

def patternMembers : Json :=
  .object [("type", .string "object"), ("additionalProperties", schema),
    ("propertyNames", .object [("format", .string "regex")])]

def matching (p : String) : Json :=
  .object [("type", .string "string"), ("pattern", .string p)]

def kindName : Json :=
  .object [("enum",
    .strings ["array", "boolean", "integer", "null", "number", "object", "string"])]

def kinds : Json :=
  anyOf [kindName, .object [("type", .string "array"), ("items", kindName), ("minItems", .int 1),
    ("uniqueItems", .bool true)]]

def schemaOrSchemas : Json := anyOf [schema, schemas]

def schemaOrFlag : Json := anyOf [flag, schema]

/-- The limits on numbers where a limit is excluded by a number of its own. -/
def limits : Members :=
  [("multipleOf", positive), ("maximum", number), ("exclusiveMaximum", number),
    ("minimum", number), ("exclusiveMinimum", number)]

def textLimits : Members := [("maxLength", count), ("minLength", count), ("pattern", pattern)]

def listLimits : Members := [("maxItems", count), ("minItems", count), ("uniqueItems", flag)]

def containedLimits : Members := [("maxContains", count), ("minContains", count)]

def memberLimits (names : Json) : Members :=
  [("maxProperties", count), ("minProperties", count), ("required", names)]

def memberSchemas : Members :=
  [("definitions", membersOf schema), ("properties", membersOf schema),
    ("patternProperties", patternMembers)]

def combinations : Members :=
  [("allOf", schemas), ("anyOf", schemas), ("oneOf", schemas), ("not", schema)]

def conditions : Members := [("if", schema), ("then", schema), ("else", schema)]

def remarks : Members :=
  [("title", text), ("description", text), ("default", anything), ("deprecated", flag),
    ("readOnly", flag), ("writeOnly", flag), ("examples", listOf anything)]

def d4 : Members :=
  [("id", text), ("$schema", text), ("title", text), ("description", text), ("default", anything),
    ("multipleOf", .object [("type", .string "number"), ("minimum", .int 0),
      ("exclusiveMinimum", .bool true)]),
    ("maximum", number), ("exclusiveMaximum", flag), ("minimum", number),
    ("exclusiveMinimum", flag)] ++ textLimits ++
  [("additionalItems", schemaOrFlag), ("items", schemaOrSchemas)] ++ listLimits ++
  memberLimits textsNotNone ++ [("additionalProperties", schemaOrFlag)] ++ memberSchemas ++
  [("dependencies", membersOf (anyOf [schema, textsNotNone])), ("enum", valuesNotNone),
    ("type", kinds)] ++ combinations

/-- From the limits on numbers to the schemas of members, in the sixth and the seventh draft. -/
private def middle : Members :=
  limits ++ textLimits ++ [("additionalItems", schema), ("items", schemaOrSchemas)] ++
  listLimits ++ [("contains", schema)] ++ memberLimits texts ++
  [("additionalProperties", schema)] ++ memberSchemas ++
  [("dependencies", membersOf (anyOf [schema, texts])), ("propertyNames", schema),
    ("const", anything)]

def d6 : Members :=
  [("$id", text), ("$schema", text), ("$ref", text), ("title", text), ("description", text),
    ("default", anything), ("examples", listOf anything)] ++ middle ++
  [("enum", valuesNotNone), ("type", kinds), ("format", text)] ++ combinations

def d7 : Members :=
  [("$id", text), ("$schema", text), ("$ref", text), ("$comment", text), ("title", text),
    ("description", text), ("default", anything), ("readOnly", flag),
    ("examples", listOf anything)] ++ middle ++
  [("enum", listOf anything), ("type", kinds), ("format", text), ("contentMediaType", text),
    ("contentEncoding", text)] ++ conditions ++ combinations

private def content : Members :=
  [("format", text), ("contentEncoding", text), ("contentMediaType", text),
    ("contentSchema", schema)]

private def nestedMembers : Members :=
  [("properties", membersOf schema), ("patternProperties", patternMembers),
    ("dependentSchemas", membersOf schema), ("propertyNames", schema)]

private def earlierMembers : Members :=
  [("definitions", membersOf schema), ("dependencies", membersOf (anyOf [schema, texts]))]

private def vocabulary : Json :=
  .object [("type", .string "object"), ("propertyNames", text), ("additionalProperties", flag)]

def d201909 : Members :=
  [("$id", matching "^[^#]*#?$"), ("$schema", text),
    ("$anchor", matching "^[A-Za-z][-A-Za-z0-9.:_]*$"), ("$ref", text), ("$recursiveRef", text),
    ("$recursiveAnchor", flag), ("$vocabulary", vocabulary), ("$comment", text),
    ("$defs", membersOf schema)] ++
  [("additionalItems", schema), ("unevaluatedItems", schema), ("items", schemaOrSchemas),
    ("contains", schema), ("additionalProperties", schema), ("unevaluatedProperties", schema)] ++
  nestedMembers ++ conditions ++ combinations ++ limits ++ textLimits ++ listLimits ++
  containedLimits ++ memberLimits texts ++
  [("dependentRequired", membersOf texts), ("const", anything), ("enum", listOf anything),
    ("type", kinds)] ++ remarks ++ content ++ earlierMembers

private def anchor : Json := matching "^[A-Za-z_][-A-Za-z0-9._]*$"

def d202012 : Members :=
  [("$id", matching "^[^#]*#?$"), ("$schema", text), ("$ref", text), ("$anchor", anchor),
    ("$dynamicRef", text), ("$dynamicAnchor", anchor), ("$vocabulary", vocabulary),
    ("$comment", text), ("$defs", membersOf schema)] ++
  [("prefixItems", schemas), ("items", schema), ("contains", schema),
    ("additionalProperties", schema)] ++ nestedMembers ++ conditions ++ combinations ++
  [("unevaluatedItems", schema), ("unevaluatedProperties", schema), ("type", kinds),
    ("const", anything), ("enum", listOf anything)] ++ limits ++ textLimits ++ listLimits ++
  containedLimits ++ memberLimits texts ++ [("dependentRequired", membersOf texts)] ++ remarks ++
  content ++ earlierMembers ++ [("$recursiveAnchor", anchor), ("$recursiveRef", text)]

/-- In the fourth draft a flag excludes a limit, which has to be there too. -/
private def limitOfFlag : Json :=
  .object [("exclusiveMaximum", .strings ["maximum"]), ("exclusiveMinimum", .strings ["minimum"])]

end Meta

def Draft.meta : Draft → Json
  | .d4 => .object [("type", .string "object"), ("properties", .object Meta.d4),
      ("dependencies", Meta.limitOfFlag)]
  | .d6 => whole Meta.d6
  | .d7 => whole Meta.d7
  | .d201909 => whole Meta.d201909
  | .d202012 => whole Meta.d202012
where
  whole (members : Members) : Json :=
    .object [("type", .strings ["object", "boolean"]), ("properties", .object members)]

end DeliveryRules.Schema
