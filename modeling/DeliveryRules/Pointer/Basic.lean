import DeliveryRules.Json.Basic
import DeliveryRules.Text.Basic

/-!
# Pointers into JSON values

A pointer is a list of tokens, the names and indices on the way to a part of a value.

* `parse`: the tokens of a pointer text, which may start with `#` and need not start with `/`.
* `render`: the text of a list of tokens.
* `ancestry`: the values on the way, as far as it goes.
* `nearestProvenance`: the provenance recorded on the way, nearest to its end.
-/

namespace DeliveryRules.Pointer

open Text

/-- A token with `~1` read as a slash, then `~0` as a tilde. -/
def unescape (token : List Char) : List Char :=
  replacePair '~' '0' ['~'] (replacePair '~' '1' ['/'] token)

/-- A token with the tilde written `~0`, then the slash `~1`. -/
def escape (token : List Char) : List Char :=
  replaceChar '/' ['~', '1'] (replaceChar '~' ['~', '0'] token)

/-- `cs` without a first character `c`. -/
def dropLead (c : Char) (cs : List Char) : List Char :=
  (afterPrefix? [c] cs).getD cs

/-- The tokens of a pointer text. Blanks at its ends do not count. -/
def parse (pointer : List Char) : List (List Char) :=
  match dropLead '/' (dropLead '#' (trim pointer)) with
  | [] => []
  | cs => (cut '/' cs).map unescape

def render (tokens : List (List Char)) : List Char :=
  tokens.flatMap fun t => '/' :: escape t

def tokens (pointer : String) : List String :=
  (parse pointer.toList).map String.ofList

def text (tokens : List String) : String :=
  String.ofList (render (tokens.map String.toList))

/-- The greatest index. -/
def maxIndex : Nat := Nat.pow 2 64 - 1

/-- The index that a token stands for: decimal digits, perhaps after a plus sign. -/
def index? (token : String) : Option Nat :=
  let digits := dropLead '+' token.toList
  if digits.isEmpty || !digits.all Char.isDigit then none
  else
    let n := digits.foldl (fun n c => 10 * n + (c.toNat - '0'.toNat)) 0
    if n ≤ maxIndex then some n else none

/-- The part of `j` that one token leads to. -/
def step? (j : Json) (token : String) : Option Json :=
  match j with
  | .object members => Members.get? members token
  | .array items => (index? token).bind fun i => items[i]?
  | _ => none

/-- `j` and the parts of it that the tokens lead through, up to the first one that leads nowhere. -/
def ancestry (j : Json) : List String → List Json
  | [] => [j]
  | t :: ts =>
    match step? j t with
    | none => [j]
    | some k => j :: ancestry k ts

/-- The name of the member that records where a part of a document came from. -/
def provenanceName : String := "provenance"

def nearestProvenance (document : Json) (tokens : List String) : Option String :=
  (ancestry document tokens).reverse.findSome? (·.memberString? provenanceName)

end DeliveryRules.Pointer
