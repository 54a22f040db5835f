import DeliveryRules.Json.Printer
import DeliveryRules.Pointer.Basic

/-!
# What a schema can find wrong with a value

* `Complaint`: the causes, with the value or the limit that each concerns.
* `Violation`: a complaint and the way to the value it was raised for.
* `Violation.pointer`: the way to the value at fault; a member that should not be there is at fault
  itself, not the object that has it.
-/

namespace DeliveryRules.Schema

inductive Kind where
  | array
  | boolean
  | integer
  | null
  | number
  | object
  | string
deriving DecidableEq, Repr

namespace Kind

/-- The kinds in alphabetical order. -/
def all : List Kind := [.array, .boolean, .integer, .null, .number, .object, .string]

def name : Kind → String
  | .array => "array"
  | .boolean => "boolean"
  | .integer => "integer"
  | .null => "null"
  | .number => "number"
  | .object => "object"
  | .string => "string"

end Kind

/-- A limit and the side on which a value has to be. -/
inductive Bound where
  | atLeast
  | atMost
  | above
  | below
deriving DecidableEq, Repr

/-- What is counted in a value. -/
inductive Counted where
  | characters
  | items
  | properties
deriving DecidableEq, Repr

namespace Counted

/-- The words for `n` of what is counted. -/
def words : Counted → Nat → String
  | .characters, n => s!"{n} character" ++ if n = 1 then "" else "s"
  | .items, n => s!"{n} item" ++ if n = 1 then "" else "s"
  | .properties, n => s!"{n} " ++ if n = 1 then "property" else "properties"

end Counted

inductive Complaint where
  | wrongKind (value : Json) (allowed : List Kind)
  | notAmong (value options : Json)
  | notEqual (expected : Json)
  | missing (name : String)
  | unexpectedMembers (names : List String)
  | unexpectedItems (items : List Json)
  | noMatch (value : Json) (pattern : String)
  | outOfBounds (value : Json) (bound : Bound) (limit : Json)
  | notMultiple (value : Json) (divisor : Float)
  | tooFew (value : Json) (counted : Counted) (limit : Nat)
  | tooMany (value : Json) (counted : Counted) (limit : Nat)
  | repeatedItems (value : Json)
  | nothingAllowed (value : Json)
  | noItemFits (value : Json)
  | excluded (value schema : Json)
  | noneOfAny (value : Json)
  | noneOfOne (value : Json)
  | severalOfOne (value : Json)
  | badFormat (value : Json) (format : String)

namespace Complaint

private def quotedList (ss : List String) : String :=
  ", ".intercalate (ss.map fun s => "\"" ++ s ++ "\"")

private def wasUnexpected (listed : List String) : String :=
  let were := if listed.length = 1 then "was" else "were"
  "(" ++ ", ".intercalate listed ++ s!" {were} unexpected)"

def message : Complaint → String
  | wrongKind v [k] => s!"{v.compact} is not of type \"{k.name}\""
  | wrongKind v ks => s!"{v.compact} is not of types {quotedList (ks.map Kind.name)}"
  | notAmong v options => s!"{v.compact} is not one of {options.compact}"
  | notEqual expected => s!"{expected.compact} was expected"
  | missing name => s!"{Json.quoted name} is a required property"
  | unexpectedMembers names =>
    "Additional properties are not allowed " ++
      wasUnexpected (names.map fun n => "'" ++ n ++ "'")
  | unexpectedItems items =>
    "Additional items are not allowed " ++ wasUnexpected (items.map Json.compact)
  | noMatch v pattern => s!"{v.compact} does not match \"{pattern}\""
  | outOfBounds v .atLeast limit => s!"{v.compact} is less than the minimum of {limit.compact}"
  | outOfBounds v .atMost limit => s!"{v.compact} is greater than the maximum of {limit.compact}"
  | outOfBounds v .above limit =>
    s!"{v.compact} is less than or equal to the minimum of {limit.compact}"
  | outOfBounds v .below limit =>
    s!"{v.compact} is greater than or equal to the maximum of {limit.compact}"
  | notMultiple v divisor => s!"{v.compact} is not a multiple of {Number.plainText divisor}"
  | tooFew v .characters n => s!"{v.compact} is shorter than {Counted.characters.words n}"
  | tooMany v .characters n => s!"{v.compact} is longer than {Counted.characters.words n}"
  | tooFew v counted n => s!"{v.compact} has less than {counted.words n}"
  | tooMany v counted n => s!"{v.compact} has more than {counted.words n}"
  | repeatedItems v => s!"{v.compact} has non-unique elements"
  | nothingAllowed v => s!"False schema does not allow {v.compact}"
  | noItemFits v => s!"None of {v.compact} are valid under the given schema"
  | excluded v schema => s!"{schema.compact} is not allowed for {v.compact}"
  | noneOfAny v =>
    s!"{v.compact} is not valid under any of the schemas listed in the 'anyOf' keyword"
  | noneOfOne v =>
    s!"{v.compact} is not valid under any of the schemas listed in the 'oneOf' keyword"
  | severalOfOne v =>
    s!"{v.compact} is valid under more than one of the schemas listed in the 'oneOf' keyword"
  | badFormat v format => s!"{v.compact} is not a \"{format}\""

end Complaint

structure Violation where
  complaint : Complaint
  /-- The tokens on the way to the value that the complaint was raised for. -/
  way : List String

namespace Violation

def message (v : Violation) : String := v.complaint.message

/-- The tokens on the way to the value at fault. -/
def tokens (v : Violation) : List String :=
  match v.complaint with
  | .unexpectedMembers (name :: _) => v.way ++ [name]
  | _ => v.way

def pointer (v : Violation) : String := Pointer.text v.tokens

end Violation

end DeliveryRules.Schema
