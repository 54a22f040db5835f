import DeliveryRules.Json.Order
import DeliveryRules.Pattern.Parser
import DeliveryRules.Schema.Reference
import DeliveryRules.Schema.Violation

/-!
# Checking a value against a schema

The members of a schema are conditions, taken in the order in which the schema lists them. `check`
gives the first violation. Members that no draft knows, or not the draft at hand, do not matter.

* `condition`: a single member of a schema. It is given what checks the same value against schemas
  nested in it (`here`), and what checks the parts of the value (`below`).
* `checkWithin`: a whole schema. References may lead back to where they stand, so a bound is needed
  on how deep the checks of one value enclose one another.
* `check`: a whole schema, and the parts of the value in turn.
* `enough`: how deep the checks of one value enclose one another at most.

A schema that goes round in circles on one value accepts it here: when the bound is reached, nothing
is found wrong. The drafts give such a schema no meaning. To schemas that come to an end within the
bound (`Schema.Grounded`) it makes no difference.

Of what the drafts take as conditions, this is left out, so members with these names accept every
value:
* all formats but `regex`, and `contentMediaType` and `contentEncoding` of the sixth and the seventh
  draft;
* `unevaluatedItems` and `unevaluatedProperties`, which look at what other members have checked;
* `$dynamicRef` and `$recursiveRef`.

References do not find a schema by a mark in `$id`, as the drafts up to the seventh have it, and a
draft is always taken with all of its vocabularies.
-/

namespace DeliveryRules.Schema

/-- What checks a value, which `way` leads to, against a schema of the given scope. -/
abbrev Checker := Scope → Json → Json → List String → Option Violation

/-- The kinds that a value has. An integer is also a number; since the sixth draft `1.0` is an
integer. -/
def Kind.holds (d : Draft) (k : Kind) (j : Json) : Bool :=
  match j, k with
  | .array _, .array => true
  | .bool _, .boolean => true
  | .null, .null => true
  | .object _, .object => true
  | .string _, .string => true
  | .number _, .number => true
  | .number (.int _), .integer => true
  | .number n, .integer => d.since .d6 && n.isWhole
  | _, _ => false

/-- The kinds that are named, each once and in alphabetical order. -/
def namedKinds (value : Json) : List Kind :=
  let names := match value with
    | .string s => [s]
    | .array items => items.filterMap Json.asString?
    | _ => []
  Kind.all.filter fun k => names.contains k.name

/-- Binary64 numbers nearer than this count as equal. -/
def tolerance : Float := Float.ofScientific 1 false 0 / Float.ofNat (Nat.pow 2 52)

/-- Numbers are compared as binary64 values here, all else exactly. -/
def isConst (expected value : Json) : Bool :=
  match expected, value with
  | .number a, .number b => Float.abs (a.toFloat - b.toFloat) < tolerance
  | _, _ => expected.same value

/-- What is left of `x` without its integer part. -/
def fraction (x : Float) : Float := x - (if x < 0 then x.ceil else x.floor)

/-- A divisor that is an integer divides integers only. With any other divisor the quotient may be
off by the tolerance, and any negative quotient will do. -/
def isMultiple (n divisor : Number) : Bool :=
  if divisor.isWhole then n.isWhole && n.toFloat.isFinite && n.exact.num % divisor.exact.num = 0
  else
    let rest := fraction (n.toFloat / divisor.toFloat)
    if rest.isNaN then (n.exact / divisor.exact).den = 1 else rest < tolerance

def Bound.holds (n limit : Number) : Bound → Bool
  | .atLeast => !n.lt limit
  | .atMost => !limit.lt n
  | .above => limit.lt n
  | .below => n.lt limit

/-- How much there is to count in a value of the right kind. -/
def Counted.count? : Counted → Json → Option Nat
  | .characters, .string s => some s.length
  | .items, .array xs => some xs.length
  | .properties, .object ms => some ms.length
  | _, _ => none

section Conditions

variable (way : List String)

def complain (c : Complaint) : Option Violation := some ⟨c, way⟩

def ensure (holds : Bool) (c : Complaint) : Option Violation :=
  if holds then none else complain way c

def ensureBound (bound : Bound) (limit value : Json) : Option Violation :=
  match limit, value with
  | .number l, .number n => ensure way (bound.holds n l) (.outOfBounds value bound limit)
  | _, _ => none

def ensureLeast (counted : Counted) (limit value : Json) : Option Violation :=
  match limit, counted.count? value with
  | .number l, some n =>
    l.natural?.bind fun least => ensure way (least ≤ n) (.tooFew value counted least)
  | _, _ => none

def ensureMost (counted : Counted) (limit value : Json) : Option Violation :=
  match limit, counted.count? value with
  | .number l, some n =>
    l.natural?.bind fun most => ensure way (n ≤ most) (.tooMany value counted most)
  | _, _ => none

/-- The first of the names that the object does not have. -/
def ensureMembers (names : List Json) (value : Json) : Option Violation :=
  match value with
  | .object members =>
    (names.filterMap Json.asString?).findSome? fun n =>
      ensure way (Members.has members n) (.missing n)
  | _ => none

def matchesPattern (pattern text : String) : Bool :=
  match Pattern.parse? pattern with
  | some p => p.occursIn text
  | none => false

end Conditions

/-- The items after the first `start`, each checked against one schema. -/
def checkItems (check : Json → List String → Option Violation) (items : List Json) (start : Nat)
    (way : List String) : Option Violation :=
  (items.zipIdx.drop start).findSome? fun (item, i) => check item (way ++ [toString i])

/-- The first items, each checked against the schema at its place. -/
def checkTuple (check : Json → Json → List String → Option Violation) (schemas items : List Json)
    (way : List String) : Option Violation :=
  ((schemas.zip items).zipIdx).findSome? fun ((schema, item), i) =>
    check schema item (way ++ [toString i])

/-- The schemas of `properties` and `patternProperties` that a member called `name` has to fit. -/
def memberSchemas (siblings : Members) (name : String) : List Json :=
  let own := match Members.get? siblings "properties" with
    | some (.object schemas) => (Members.get? schemas name).toList
    | _ => []
  let byPattern := match Members.get? siblings "patternProperties" with
    | some (.object schemas) => (schemas.filter fun s => matchesPattern s.1 name).map (·.2)
    | _ => []
  own ++ byPattern

/-- Whether `additionalProperties` looks at the members of an object one by one, which then also
does the work of `properties` and `patternProperties`. -/
def takesMembers (siblings : Members) : Bool :=
  match Members.get? siblings "additionalProperties" with
  | some (.bool false) => true
  | some (.object _) => true
  | _ => false

/-- Members in the order of the object; those that no schema is meant for are reported last. -/
def checkMembers (check : Json → Json → List String → Option Violation) (siblings : Members)
    (additional : Json) (members : Members) (way : List String) : Option Violation :=
  let known := members.findSome? fun (name, value) =>
    let way := way ++ [name]
    match memberSchemas siblings name, additional with
    | [], .bool _ => none
    | [], schema => check schema value way
    | schemas, _ => schemas.findSome? fun schema => check schema value way
  let unexpected := match additional with
    | .bool false => (members.filter fun m => (memberSchemas siblings m.1).isEmpty).map (·.1)
    | _ => []
  known.or (ensure way unexpected.isEmpty (.unexpectedMembers unexpected))

/-- What a member `(keyword, operand)` of a schema asks of an object. -/
def memberCondition (here below : Json → Json → List String → Option Violation) (d : Draft)
    (siblings : Members) (keyword : String) (operand : Json) (object : Members)
    (way : List String) : Option Violation :=
  let whole := Json.object object
  match keyword, operand with
  | "properties", .object schemas =>
    if takesMembers siblings then none
    else schemas.findSome? fun (name, schema) =>
      (Members.get? object name).bind fun member => below schema member (way ++ [name])
  | "patternProperties", .object schemas =>
    if takesMembers siblings then none
    else schemas.findSome? fun (pattern, schema) =>
      object.findSome? fun (name, member) =>
        if matchesPattern pattern name then below schema member (way ++ [name]) else none
  | "additionalProperties", .bool false =>
    if Members.has siblings "properties" || Members.has siblings "patternProperties" then
      checkMembers below siblings operand object way
    else
      match object with
      | [] => none
      | (_, member) :: _ => complain way (.nothingAllowed member)
  | "additionalProperties", .object _ => checkMembers below siblings operand object way
  | "propertyNames", .bool false =>
    ensure way object.isEmpty (.nothingAllowed whole)
  | "propertyNames", .object _ =>
    if d.since .d6 then object.findSome? fun (name, _) => below operand (.string name) way
    else none
  | "required", .array names => ensureMembers way names whole
  | "dependencies", .object entries => dependent entries whole
  | "dependentRequired", .object entries =>
    if d.since .d201909 then dependent entries whole else none
  | "dependentSchemas", .object entries =>
    if d.since .d201909 then dependent entries whole else none
  | "minProperties", _ => ensureLeast way .properties operand whole
  | "maxProperties", _ => ensureMost way .properties operand whole
  | _, _ => none
where
  dependent (entries : Members) (whole : Json) : Option Violation :=
    entries.findSome? fun (name, need) =>
      if Members.has object name then
        match need with
        | .array names => ensureMembers way names whole
        | schema => here schema whole way
      else none

/-- What a member `(keyword, operand)` of a schema asks of an array. -/
def itemCondition (check : Json → Json → List String → Option Violation) (d : Draft)
    (siblings : Members) (keyword : String) (operand : Json) (items : List Json)
    (way : List String) : Option Violation :=
  let whole := Json.array items
  match keyword, operand with
  | "items", .array schemas => if d.since .d202012 then none else checkTuple check schemas items way
  | "items", schema =>
    let start := match Members.get? siblings "prefixItems" with
      | some (.array schemas) => if d.since .d202012 then schemas.length else 0
      | _ => 0
    checkItems (check schema) items start way
  | "prefixItems", .array schemas =>
    if d.since .d202012 then checkTuple check schemas items way else none
  | "additionalItems", schema =>
    match Members.get? siblings "items", schema with
    | some (.array schemas), .bool false =>
      let rest := items.drop schemas.length
      if d.since .d202012 then none else ensure way rest.isEmpty (.unexpectedItems rest)
    | some (.array schemas), .object _ =>
      if d.since .d202012 then none else checkItems (check schema) items schemas.length way
    | _, _ => none
  | "contains", schema =>
    let fitting := (items.filter fun item => (check schema item way).isNone).length
    let least := if d.since .d201909 then (limit "minContains").getD 1 else 1
    let most := if d.since .d201909 then limit "maxContains" else none
    let holds := least ≤ fitting && (most.all (fitting ≤ ·))
    if d.since .d6 then ensure way holds (.noItemFits whole) else none
  | "uniqueItems", .bool true => ensure way (Json.allDistinct items) (.repeatedItems whole)
  | "minItems", _ => ensureLeast way .items operand whole
  | "maxItems", _ => ensureMost way .items operand whole
  | _, _ => none
where
  limit (name : String) : Option Nat :=
    match Members.get? siblings name with
    | some (.number n) => n.natural?
    | _ => none

/-- In the fourth draft a flag beside a limit excludes the limit. -/
def limitBound (d : Draft) (siblings : Members) (flag : String) (closed strict : Bound) : Bound :=
  match d, Members.get? siblings flag with
  | .d4, some (.bool true) => strict
  | _, _ => closed

/-- What a member `(keyword, operand)` of a schema asks of a number. -/
def numberCondition (d : Draft) (siblings : Members) (keyword : String) (operand value : Json)
    (way : List String) : Option Violation :=
  match keyword, operand, value with
  | "minimum", _, _ =>
    ensureBound way (limitBound d siblings "exclusiveMinimum" .atLeast .above) operand value
  | "maximum", _, _ =>
    ensureBound way (limitBound d siblings "exclusiveMaximum" .atMost .below) operand value
  | "exclusiveMinimum", _, _ => ensureBound way .above operand value
  | "exclusiveMaximum", _, _ => ensureBound way .below operand value
  | "multipleOf", .number divisor, .number n =>
    ensure way (isMultiple n divisor) (.notMultiple value divisor.toFloat)
  | _, _, _ => none

/-- What a member `(keyword, operand)` of a schema asks of a string. Formats other than `regex`, and
what is said of encoded contents, are left out. -/
def stringCondition (d : Draft) (keyword : String) (operand : Json) (text : String)
    (way : List String) : Option Violation :=
  match keyword, operand with
  | "minLength", _ => ensureLeast way .characters operand (.string text)
  | "maxLength", _ => ensureMost way .characters operand (.string text)
  | "pattern", .string p => ensure way (matchesPattern p text) (.noMatch (.string text) p)
  | "format", .string "regex" =>
    ensure way (!d.checksFormat || (Pattern.parse? text).isSome) (.badFormat (.string text) "regex")
  | _, _ => none

/-- What a member `(keyword, operand)` of a schema asks of any value. -/
def anyCondition (check : Json → Json → List String → Option Violation) (d : Draft)
    (siblings : Members) (keyword : String) (operand value : Json) (way : List String) :
    Option Violation :=
  let fits (schema : Json) : Bool := (check schema value way).isNone
  match keyword, operand with
  | "type", _ =>
    let kinds := namedKinds operand
    ensure way (kinds.any (Kind.holds d · value)) (.wrongKind value kinds)
  | "enum", .array options =>
    ensure way (options.any (Json.same · value)) (.notAmong value operand)
  | "const", expected =>
    ensure way (!d.since .d6 || isConst expected value) (.notEqual expected)
  | "allOf", .array schemas => schemas.findSome? fun schema => check schema value way
  | "anyOf", .array schemas => ensure way (schemas.any fits) (.noneOfAny value)
  | "oneOf", .array schemas =>
    match (schemas.filter fits).length with
    | 0 => complain way (.noneOfOne value)
    | 1 => none
    | _ => complain way (.severalOfOne value)
  | "not", schema => ensure way (!fits schema) (.excluded value schema)
  | "if", schema =>
    let branch := Members.get? siblings (if fits schema then "then" else "else")
    if d.since .d7 then branch.bind fun b => check b value way else none
  | _, _ => none

/-- What a member `(keyword, operand)` of a schema asks of values of one kind. -/
def kindCondition (here below : Json → Json → List String → Option Violation) (d : Draft)
    (siblings : Members) (keyword : String) (operand value : Json) (way : List String) :
    Option Violation :=
  match value with
  | .object members => memberCondition here below d siblings keyword operand members way
  | .array items => itemCondition below d siblings keyword operand items way
  | .number _ => numberCondition d siblings keyword operand value way
  | .string text => stringCondition d keyword operand text way
  | _ => none

/-- What a member of a schema asks of a value. -/
def condition (here below : Checker) (s : Scope) (siblings : Members) (keyword : String)
    (operand value : Json) (way : List String) : Option Violation :=
  match keyword, operand with
  | "$ref", .string reference =>
    match s.lookup reference with
    | .ok (t, schema) => here t schema value way
    | .error _ => none
  | _, _ =>
    let same (schema : Json) : Json → List String → Option Violation :=
      here (s.nested schema) schema
    let part (schema : Json) : Json → List String → Option Violation :=
      below (s.nested schema) schema
    (anyCondition same s.draft siblings keyword operand value way).or
      (kindCondition same part s.draft siblings keyword operand value way)

/-- The members of a schema that count. -/
def conditions (d : Draft) (members : Members) : Members :=
  if d.referenceStandsAlone && Members.has members "$ref" then
    members.filter (·.1 == "$ref")
  else members

/-- The check of one value, in which at most `fuel` schemas enclose one another; those further in
accept it. `below` checks the parts of the value. -/
def checkWithin (below : Checker) : Nat → Checker
  | 0, _, _, _, _ => none
  | fuel + 1, s, schema, value, way =>
    match schema with
    | .bool false => complain way (.nothingAllowed value)
    | .object members =>
      (conditions s.draft members).findSome? fun (keyword, operand) =>
        condition (checkWithin below fuel) below s members keyword operand value way
    | _ => none

/-- The check of values that are at most `depth` deep. Each of their parts gets the same `fuel`. -/
def checkDeep (fuel : Nat) : Nat → Checker
  | 0 => checkWithin (fun _ _ _ _ => none) fuel
  | depth + 1 => checkWithin (checkDeep fuel depth) fuel

def check (fuel : Nat) : Checker := fun s schema value => checkDeep fuel value.depth s schema value

/-- Enough for the checks of one value to pass through each part of the schema, and of that of all
schemas, once. -/
def enough (whole : Json) : Nat := whole.size + Draft.latest.meta.size

end DeliveryRules.Schema
