/-!
# JSON values

Numbers keep the difference between an integer and a floating point value: `1` and `1.0` are two
values. An object keeps its members in order, and no reader or operation here gives it a name
twice.

* `Members.set`: a known name keeps its place and takes the new value; a new name comes last.
* `Members.merge`: the members of one object laid over those of another.
-/

namespace DeliveryRules

/-- An integer that fits 64 bits, signed or unsigned, or a finite binary64 value. -/
inductive Number where
  | int (n : Int)
  | float (x : Float)
deriving DecidableEq, Repr

inductive Json where
  | null
  | bool (b : Bool)
  | number (n : Number)
  | string (s : String)
  | array (items : List Json)
  | object (members : List (String × Json))
deriving Inhabited, Repr

abbrev Members := List (String × Json)

namespace Members

def get? (ms : Members) (name : String) : Option Json :=
  ms.lookup name

def has (ms : Members) (name : String) : Bool :=
  ms.any (·.1 == name)

def names (ms : Members) : List String :=
  ms.map (·.1)

def set (ms : Members) (name : String) (value : Json) : Members :=
  match ms with
  | [] => [(name, value)]
  | (n, v) :: rest => if n = name then (n, value) :: rest else (n, v) :: set rest name value

/-- `upper` laid on `base`: where both have a name, `upper` gives the value and `base` the place. -/
def merge (base upper : Members) : Members :=
  upper.foldl (fun ms m => set ms m.1 m.2) base

/-- The members of an object as written: of a repeated name the last value counts, at the first
place. -/
def ofWritten (written : List (String × Json)) : Members :=
  merge [] written

end Members

namespace Json

def int (n : Int) : Json := .number (.int n)

def strings (ss : List String) : Json := .array (ss.map .string)

def isObject : Json → Bool
  | .object _ => true
  | _ => false

def asString? : Json → Option String
  | .string s => some s
  | _ => none

def asObject? : Json → Option Members
  | .object ms => some ms
  | _ => none

/-- The member called `name` of an object; no other value has members. -/
def member? (j : Json) (name : String) : Option Json :=
  j.asObject?.bind (Members.get? · name)

def memberString? (j : Json) (name : String) : Option String :=
  (j.member? name).bind asString?

/-- The strings among the values nested in `j`, in the order in which they are written. Names of
members are not among them. -/
def texts : Json → List String
  | .string s => [s]
  | .array items => ofItems items
  | .object members => ofMembers members
  | _ => []
where
  ofItems : List Json → List String
    | [] => []
    | j :: js => texts j ++ ofItems js
  ofMembers : List (String × Json) → List String
    | [] => []
    | (_, j) :: ms => texts j ++ ofMembers ms

/-- How many arrays and objects enclose one another at most. -/
def depth : Json → Nat
  | .array items => ofItems items + 1
  | .object members => ofMembers members + 1
  | _ => 0
where
  ofItems : List Json → Nat
    | [] => 0
    | j :: js => max (depth j) (ofItems js)
  ofMembers : List (String × Json) → Nat
    | [] => 0
    | (_, j) :: ms => max (depth j) (ofMembers ms)

/-- The number of values in `j`, itself included. -/
def size : Json → Nat
  | .array items => ofItems items + 1
  | .object members => ofMembers members + 1
  | _ => 1
where
  ofItems : List Json → Nat
    | [] => 0
    | j :: js => size j + ofItems js
  ofMembers : List (String × Json) → Nat
    | [] => 0
    | (_, j) :: ms => size j + ofMembers ms

end Json

end DeliveryRules
