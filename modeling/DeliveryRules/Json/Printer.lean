import DeliveryRules.Json.Basic
import DeliveryRules.Decimal.Shortest

/-!
# JSON values as text

* `Number.text`: an integer in decimal; a floating point value with the fewest digits that read
  back, positional from `10 ^ (-5)` up to below `10 ^ 16` and always with a point, else with an
  exponent.
* `Json.compact`: no space at all.
* `Json.pretty`: a line for each item and member, two more spaces for each level; empty arrays and
  objects stay on their line.

In strings only the quote, the backslash and the characters below U+0020 are escaped.
-/

namespace DeliveryRules

namespace Decimal

/-- The decimals with an exponent in this range are written positionally. -/
def positionalFrom : Int := -5

@[inherit_doc positionalFrom]
def positionalTo : Int := 15

private def zeros (n : Nat) : String :=
  String.ofList (List.replicate n '0')

/-- `d.ddd` of the digits, without the point where there is a single digit. -/
private def pointAfterFirst : List Char → String
  | [] => ""
  | [d] => String.ofList [d]
  | d :: ds => String.ofList (d :: '.' :: ds)

/-- Positional text, with `whole` written after an integer. -/
def positional (d : Decimal) (whole : String) : String :=
  let ds := (toString d.digits).toList
  if 0 ≤ d.exponent then String.ofList ds ++ zeros d.exponent.toNat ++ whole
  else
    let places := (-d.exponent).toNat
    if places < ds.length then
      String.ofList (ds.take (ds.length - places)) ++ "." ++
        String.ofList (ds.drop (ds.length - places))
    else "0." ++ zeros (places - ds.length) ++ String.ofList ds

def text (d : Decimal) : String :=
  let ds := (toString d.digits).toList
  let lead := d.exponent + (ds.length - 1 : Nat)
  if positionalFrom ≤ lead && lead ≤ positionalTo then d.positional ".0"
  else
    pointAfterFirst ds ++ "e" ++ (if lead < 0 then "-" else "+") ++ toString lead.natAbs

end Decimal

namespace Number

private def signed (x : Float) (zero : String) (write : Decimal → String) : String :=
  let sign := if Nat.pow 2 63 ≤ x.toBits.toNat then "-" else ""
  if x.toBits.toNat % Nat.pow 2 63 = 0 then sign ++ zero
  else sign ++ write (Decimal.Binary.ofFloat x).shortest

def text : Number → String
  | .int n => toString n
  | .float x => signed x "0.0" Decimal.text

/-- A floating point value without exponent, and without a point where it is an integer. -/
def plainText (x : Float) : String :=
  signed x "0" (Decimal.positional · "")

end Number

namespace Json

private def hexDigit (n : Nat) : Char :=
  Char.ofNat (if n < 10 then '0'.toNat + n else 'a'.toNat + (n - 10))

/-- How a character is written inside a string. -/
def escaped (c : Char) : List Char :=
  if c = '"' then ['\\', '"']
  else if c = '\\' then ['\\', '\\']
  else if c.toNat < 0x20 then
    if c = '\n' then ['\\', 'n']
    else if c = '\t' then ['\\', 't']
    else if c = '\r' then ['\\', 'r']
    else if c.toNat = 8 then ['\\', 'b']
    else if c.toNat = 12 then ['\\', 'f']
    else ['\\', 'u', '0', '0', hexDigit (c.toNat / 16), hexDigit (c.toNat % 16)]
  else [c]

def quoted (s : String) : String :=
  String.ofList ('"' :: (s.toList.flatMap escaped ++ ['"']))

def compact : Json → String
  | .null => "null"
  | .bool true => "true"
  | .bool false => "false"
  | .number n => n.text
  | .string s => quoted s
  | .array items => "[" ++ ofItems items ++ "]"
  | .object members => "\x7b" ++ ofMembers members ++ "\x7d"
where
  ofItems : List Json → String
    | [] => ""
    | [j] => compact j
    | j :: k :: js => compact j ++ "," ++ ofItems (k :: js)
  ofMembers : List (String × Json) → String
    | [] => ""
    | [(n, j)] => quoted n ++ ":" ++ compact j
    | (n, j) :: m :: ms => quoted n ++ ":" ++ compact j ++ "," ++ ofMembers (m :: ms)

private def indent (level : Nat) : String :=
  "\n" ++ String.ofList (List.replicate (2 * level) ' ')

/-- The pretty text of a value whose line is indented by `level`. -/
def prettyAt (level : Nat) : Json → String
  | .array [] => "[]"
  | .array items => "[" ++ ofItems level items ++ indent level ++ "]"
  | .object [] => "\x7b\x7d"
  | .object members => "\x7b" ++ ofMembers level members ++ indent level ++ "\x7d"
  | .null => "null"
  | .bool true => "true"
  | .bool false => "false"
  | .number n => n.text
  | .string s => quoted s
where
  ofItems (level : Nat) : List Json → String
    | [] => ""
    | [j] => indent (level + 1) ++ prettyAt (level + 1) j
    | j :: k :: js => indent (level + 1) ++ prettyAt (level + 1) j ++ "," ++ ofItems level (k :: js)
  ofMembers (level : Nat) : List (String × Json) → String
    | [] => ""
    | [(n, j)] => indent (level + 1) ++ quoted n ++ ": " ++ prettyAt (level + 1) j
    | (n, j) :: m :: ms =>
      indent (level + 1) ++ quoted n ++ ": " ++ prettyAt (level + 1) j ++ "," ++
        ofMembers level (m :: ms)

def pretty (j : Json) : String := prettyAt 0 j

end Json

end DeliveryRules
