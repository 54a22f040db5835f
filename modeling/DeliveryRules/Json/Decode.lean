import DeliveryRules.Json.Printer
import DeliveryRules.Pointer.Basic
import DeliveryRules.Text.Category

/-!
# Reading typed values from JSON values

A decoder takes a JSON value for a value of some type or says why it cannot.

* `DecodeError`: the causes.
* `RecordShape`: a record may be written as an object or as the array of its fields in order.
  Members are taken in the order of the object, then it is seen whether a required one is missing;
  members that are not fields do not matter.
-/

namespace DeliveryRules

inductive DecodeError where
  | wrongType (found : Json) (expected : String)
  | wrongValue (found : Json) (expected : String)
  | missingField (name : String)
  | unknownVariant (name : String) (known : List String)
  | wrongLength (length : Nat) (expected : String)
  /-- None of the forms of a type fits. -/
  | noForm (type : String)

namespace DecodeError

/-- A string in quotes. Its quotes and backslashes are escaped, and what is not plain. -/
def debugQuoted (s : String) : String :=
  String.ofList ('"' :: (s.toList.flatMap escaped ++ ['"']))
where
  escaped (c : Char) : List Char :=
    if c = '"' then ['\\', '"']
    else if c = '\\' then ['\\', '\\']
    else if c = '\n' then ['\\', 'n']
    else if c = '\r' then ['\\', 'r']
    else if c = '\t' then ['\\', 't']
    else if c.toNat = 0 then ['\\', '0']
    else if Text.isPlain c then [c]
    else ['\\', 'u', '\x7b'] ++ Nat.toDigits 16 c.toNat ++ ['\x7d']

/-- What a value is called where something else is expected. -/
def describe : Json → String
  | .null => "null"
  | .bool b => s!"boolean \x60{b}\x60"
  | .number (.int n) => s!"integer \x60{n}\x60"
  | .number (.float x) => s!"floating point \x60{Number.text (.float x)}\x60"
  | .string s => s!"string {debugQuoted s}"
  | .array _ => "sequence"
  | .object _ => "map"

private def ticked (name : String) : String := "\x60" ++ name ++ "\x60"

private def alternatives : List String → String
  | [a, b] => s!"{ticked a} or {ticked b}"
  | [a] => ticked a
  | names => "one of " ++ ", ".intercalate (names.map ticked)

def message : DecodeError → String
  | wrongType found expected => s!"invalid type: {describe found}, expected {expected}"
  | wrongValue found expected => s!"invalid value: {describe found}, expected {expected}"
  | missingField name => s!"missing field {ticked name}"
  | unknownVariant name known =>
    s!"unknown variant {ticked name}, expected {alternatives known}"
  | wrongLength n expected => s!"invalid length {n}, expected {expected}"
  | noForm type => s!"data did not match any variant of untagged enum {type}"

end DecodeError

abbrev Decoder (α : Type) := Json → Except DecodeError α

namespace Decoder

def string : Decoder String
  | .string s => .ok s
  | j => .error (.wrongType j "a string")

/-- A string that is meant as a path. -/
def pathText : Decoder String
  | .string s => .ok s
  | j => .error (.wrongType j "path string")

def bool : Decoder Bool
  | .bool b => .ok b
  | j => .error (.wrongType j "a boolean")

def members : Decoder Members
  | .object ms => .ok ms
  | j => .error (.wrongType j "a map")

/-- A natural number that fits 64 bits. -/
def natural : Decoder Nat
  | .number (.int n) =>
    if 0 ≤ n then .ok n.toNat else .error (.wrongValue (.int n) "usize")
  | j => .error (.wrongType j "usize")

def listOf {α : Type} (item : Decoder α) : Decoder (List α)
  | .array items => items.mapM item
  | j => .error (.wrongType j "a sequence")

def optional {α : Type} (value : Decoder α) : Decoder (Option α)
  | .null => .ok none
  | j => (value j).map some

/-- One of some names: as a string, or as the name of the only member of an object, whose value is
then null. -/
def variant {α : Type} (known : List (String × α)) : Decoder α
  | .string s => named s
  | .object [(name, operand)] =>
    match named name, operand with
    | .ok x, .null => .ok x
    | .ok _, j => .error (.wrongType j "unit")
    | .error e, _ => .error e
  | .object members => .error (.wrongValue (.object members) "map with a single key")
  | j => .error (.wrongType j "string or map")
where
  named (name : String) : Except DecodeError α :=
    match known.lookup name with
    | some x => .ok x
    | none => .error (.unknownVariant name (known.map (·.1)))

end Decoder

/-- How a record is put together from its fields. -/
structure RecordShape (α : Type) where
  name : String
  fields : List String
  /-- How many of the fields, from the first one on, have to be there. -/
  required : Nat
  put : α → String → Decoder α

namespace RecordShape

variable {α : Type}

private def inArray (s : RecordShape α) : String :=
  s!"struct {s.name} with {s.fields.length} element" ++ if s.fields.length = 1 then "" else "s"

/-- A record, from one without any field. -/
def decode (s : RecordShape α) (blank : α) : Decoder α
  | .object members => do
    let x ← members.foldlM (fun x m =>
      if s.fields.contains m.1 then s.put x m.1 m.2 else .ok x) blank
    match (s.fields.take s.required).find? (!Members.has members ·) with
    | some name => throw (.missingField name)
    | none => return x
  | .array items => do
    let x ← (s.fields.zip items).foldlM (fun x m => s.put x m.1 m.2) blank
    if items.length < s.required then throw (.wrongLength items.length s.inArray)
    if s.fields.length < items.length then
      throw (.wrongLength items.length "fewer elements in array")
    return x
  | j => .error (.wrongType j s!"struct {s.name}")

end RecordShape

end DeliveryRules
