import DeliveryRules.Schema.Check

/-!
# Schemas that can be used

`Schema.ofJson` takes a value for a schema if it fits the schema of its draft and all patterns and
references that a check can reach are sound. Registered schemas, and they only, check values.

* `SchemaFault`: why a value is no schema.
* `Part`: what a member of a schema brings along that can be unsound.
* `sound`: goes through the parts of a schema, and through each reference once.
-/

namespace DeliveryRules

inductive SchemaFault where
  | unknownDraft (uri : String)
  | misshapen (violation : Schema.Violation)
  | badPattern (value : Json)
  | deadReference (cause : Schema.DeadReference)

namespace SchemaFault

def message : SchemaFault → String
  | unknownDraft uri => s!"Unknown specification: {uri}"
  | misshapen v => v.message
  | badPattern v => (Schema.Complaint.badFormat v "regex").message
  | deadReference cause => cause.message

end SchemaFault

/-- A value that was found to be a schema. -/
structure Schema where
  json : Json
  draft : Schema.Draft

namespace Schema

inductive Part where
  | schema (j : Json)
  | pattern (text : String) (blamed : Json)
  | reference (text : String)

/-- The values of an object or an array, as schemas. -/
def schemasIn : Json → List Part
  | .object entries => entries.map fun e => .schema e.2
  | .array items => items.map .schema
  | _ => []

/-- The names and values of an object, as patterns and schemas. -/
def patternsIn : Json → List Part
  | .object entries => entries.flatMap fun e => [.pattern e.1 e.2, .schema e.2]
  | _ => []

/-- The parts of a member beside the one at hand. -/
def siblingParts (siblings : Members) (name : String) (parts : Json → List Part) :
    List Part :=
  (Members.get? siblings name).elim [] parts

/-- The parts of a member `(keyword, operand)` of a schema, in the order in which they are looked
at. -/
def partsOf (d : Draft) (siblings : Members) (keyword : String) (operand : Json) : List Part :=
  match keyword, operand with
  | "$ref", .string r => [.reference r]
  | "pattern", .string p => [.pattern p operand]
  | "properties", _ => if takesMembers siblings then [] else schemasIn operand
  | "patternProperties", _ => if takesMembers siblings then [] else patternsIn operand
  | "additionalProperties", .bool true => siblingParts siblings "patternProperties" patternsIn
  | "additionalProperties", _ =>
    siblingParts siblings "patternProperties" patternsIn ++
      siblingParts siblings "properties" schemasIn ++ [.schema operand]
  | "items", .array _ => if d.since .d202012 then [] else schemasIn operand
  | "items", _ => [.schema operand]
  | "prefixItems", _ => if d.since .d202012 then schemasIn operand else []
  | "additionalItems", .object _ =>
    match Members.get? siblings "items" with
    | some (.array _) => if d.since .d202012 then [] else [.schema operand]
    | _ => []
  | "contains", _ => if d.since .d6 then [.schema operand] else []
  | "propertyNames", .object _ => if d.since .d6 then [.schema operand] else []
  | "dependencies", .object entries => ofDependencies entries
  | "dependentSchemas", .object entries => if d.since .d201909 then ofDependencies entries else []
  | "allOf", _ => schemasIn operand
  | "anyOf", _ => schemasIn operand
  | "oneOf", _ => schemasIn operand
  | "not", _ => [.schema operand]
  | "if", _ =>
    let branches := siblingParts siblings "then" (fun j => [.schema j]) ++
      siblingParts siblings "else" (fun j => [.schema j])
    if d.since .d7 && !branches.isEmpty then .schema operand :: branches else []
  | _, _ => []
where
  ofDependencies (entries : Members) : List Part :=
    (entries.filter fun e => match e.2 with
      | .array _ => false
      | _ => true).map fun e => .schema e.2

/-- Goes through the parts of a schema. The result is the references that were met, those that are
given included: they need not be followed again, so schemas that refer to themselves come to an end
as others do. What lies deeper than `fuel` is not looked at. -/
def sound : Nat → Scope → Json → List String → Except SchemaFault (List String)
  | 0, _, _, met => .ok met
  | fuel + 1, s, schema, met =>
    match schema with
    | .object members =>
      let parts := (conditions s.draft members).flatMap fun (keyword, operand) =>
        partsOf s.draft members keyword operand
      parts.foldlM (fun met part =>
        match part with
        | .schema j => sound fuel (s.nested j) j met
        | .pattern text blamed =>
          if (Pattern.parse? text).isSome then .ok met else .error (.badPattern blamed)
        | .reference text =>
          if met.contains text then .ok met
          else
            match s.lookup text with
            | .ok (t, target) => sound fuel t target (text :: met)
            | .error cause => .error (.deadReference cause)) met
    | _ => .ok met

def ofJson (j : Json) : Except SchemaFault Schema := do
  let draft ← match Draft.named j with
    | .ok named => pure (named.getD .latest)
    | .error uri => throw (.unknownDraft uri)
  let shape := draft.meta
  match check (enough shape) (Scope.top shape draft) shape j [] with
  | some violation => throw (.misshapen violation)
  | none =>
    let _ ← sound ((j.size + 1) * (j.size + 1)) (Scope.top j draft) j []
    return ⟨j, draft⟩

/-- The first violation of a schema by a value. -/
def violation? (s : Schema) (value : Json) : Option Violation :=
  check (enough s.json) (Scope.top s.json s.draft) s.json value []

end Schema

end DeliveryRules
