import DeliveryRules.Json.Basic

/-!
# JSON values with their places in a text

A `Located` value is what was written: each part knows the text from its first character on, and an
object lists all its members, also those whose name is repeated. `toJson` forgets the places and
lets the last of the members with one name count.
-/

namespace DeliveryRules

inductive Located where
  | scalar (start : List Char) (value : Json)
  | array (start : List Char) (items : List Located)
  | object (start : List Char) (members : List (String × Located))
deriving Inhabited

namespace Located

/-- The text from the first character of the value on. -/
def start : Located → List Char
  | .scalar s _ => s
  | .array s _ => s
  | .object s _ => s

def toJson : Located → Json
  | .scalar _ v => v
  | .array _ items => .array (ofItems items)
  | .object _ members => .object (Members.ofWritten (ofMembers members))
where
  ofItems : List Located → List Json
    | [] => []
    | j :: js => toJson j :: ofItems js
  ofMembers : List (String × Located) → List (String × Json)
    | [] => []
    | (n, j) :: ms => (n, toJson j) :: ofMembers ms

end Located

end DeliveryRules
