import DeliveryRules.Json.Decode

/-!
# TOML values

* `Toml`: the values, tables as lists of members in order.
* `Toml.readString`, `Toml.readCount`: a value as a string or as a natural number, or what it is
  instead.
-/

namespace DeliveryRules

inductive Toml where
  | string (s : String)
  | integer (n : Int)
  | float (x : Float)
  | bool (b : Bool)
  | dateTime
  | array (items : List Toml)
  | table (members : List (String × Toml))
deriving Inhabited

namespace Toml

/-- The name of the type of a value. -/
def typeName : Toml → String
  | string _ => "string"
  | integer _ => "integer"
  | float _ => "float"
  | bool _ => "boolean"
  | dateTime => "datetime"
  | array _ => "array"
  | table _ => "inline table"

/-- A floating point value without exponent and always with a point. -/
def floatText (x : Float) : String :=
  if x.isNaN then "NaN"
  else if x.isFinite then
    let text := Number.plainText x
    if text.toList.contains '.' then text else text ++ ".0"
  else if x < 0 then "-inf"
  else "inf"

/-- What a value is called where something else is expected. -/
def describe : Toml → String
  | string s => s!"string {DecodeError.debugQuoted s}"
  | integer n => s!"integer \x60{n}\x60"
  | float x => s!"floating point \x60{floatText x}\x60"
  | bool b => s!"boolean \x60{b}\x60"
  | dateTime => "map"
  | array _ => "sequence"
  | table _ => "map"

end Toml

/-- What a member of a table should have been. -/
inductive TomlMismatch where
  | wrongType (found : Toml) (expected : String)
  | negative (n : Int)

namespace TomlMismatch

def message : TomlMismatch → String
  | wrongType found expected => s!"invalid type: {found.describe}, expected {expected}"
  | negative n => s!"invalid value: integer \x60{n}\x60, expected usize"

end TomlMismatch

namespace Toml

def readString (expected : String) : Toml → Except TomlMismatch String
  | string s => .ok s
  | v => .error (.wrongType v expected)

def readCount : Toml → Except TomlMismatch Nat
  | integer n => if 0 ≤ n then .ok n.toNat else .error (.negative n)
  | v => .error (.wrongType v "usize")

end Toml

end DeliveryRules
