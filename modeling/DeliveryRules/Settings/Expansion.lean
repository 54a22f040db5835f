import DeliveryRules.Path
import DeliveryRules.Text.Category

/-!
# Variables in paths

* `Environment`: the variables of the environment.
* `expandVariables`: a text with the values of `$NAME` and of what stands in braces behind the sign.
  In braces a default may follow the name. One variable that is not set, and has no default, leaves
  the whole text as it is.
* `Path.expanded`: a path with its variables, and with the home directory for a tilde at its start.
-/

namespace DeliveryRules

/-- The variables of the environment. Of two with one name the last counts. -/
abbrev Environment := List (String × String)

namespace Environment

def find? (e : Environment) (name : String) : Option String :=
  (List.reverse e).lookup name

/-- The home directory. -/
def home? (e : Environment) : Option String :=
  (e.find? "HOME").filter fun h => !h.isEmpty

end Environment

/-- What may stand in the name of a variable that has no braces. -/
def isVariableChar (c : Char) : Bool := Text.isAlphanumeric c || c = '_'

/-- What is in braces, split into the name and what follows `:-`. A name has at least one
character. -/
def splitDefault : List Char → List Char × Option (List Char)
  | [] => ([], none)
  | ':' :: '-' :: rest => ([], some rest)
  | c :: rest =>
    let (name, value) := splitDefault rest
    (c :: name, value)

/-- The name and the default in braces. -/
def bracedVariable (inside : List Char) : List Char × Option (List Char) :=
  match splitDefault inside with
  | ([], some _) => (inside, none)
  | split => split

/-- The value of a variable in braces. One that is set to nothing is as it was written, unless it
has a default. -/
def bracedValue? (e : Environment) (inside : List Char) : Option (List Char) :=
  let (name, value) := bracedVariable inside
  match (e.find? (String.ofList name)).filter (!·.isEmpty), value with
  | some v, _ => some v.toList
  | none, some d => some d
  | none, none =>
    if (e.find? (String.ofList name)).isSome then some ('$' :: '\x7b' :: inside ++ ['\x7d'])
    else none

/-- The text with its variables replaced; `fuel` bounds its length. -/
def expandVariables (e : Environment) : Nat → List Char → Option (List Char)
  | 0, cs => some cs
  | fuel + 1, cs =>
    match cs with
    | [] => some []
    | '$' :: '\x7b' :: rest =>
      match rest.span (· ≠ '\x7d') with
      | (inside, _ :: after) => do
        let value ← bracedValue? e inside
        return value ++ (← expandVariables e fuel after)
      | (_, []) => (expandVariables e fuel ('\x7b' :: rest)).map ('$' :: ·)
    | '$' :: '$' :: rest => (expandVariables e fuel rest).map ('$' :: ·)
    | '$' :: rest =>
      match rest.span isVariableChar with
      | ([], _) => (expandVariables e fuel rest).map ('$' :: ·)
      | (name, after) => do
        let value ← e.find? (String.ofList name)
        return value.toList ++ (← expandVariables e fuel after)
    | c :: rest => (expandVariables e fuel rest).map (c :: ·)

/-- The home directory in the place of a tilde that stands alone or before a slash. -/
def expandHome (e : Environment) (cs : List Char) : List Char :=
  match cs, e.home? with
  | '~' :: rest, some home =>
    if rest.isEmpty || rest.head? = some '/' then home.toList ++ rest else cs
  | _, _ => cs

/-- A path with its variables and its home directory. A tilde that comes from a variable is none. -/
def Path.expanded (e : Environment) (p : Path) : Path :=
  let cs := p.text.toList
  match expandVariables e cs.length cs with
  | none => p
  | some value =>
    if value.head? = some '~' && cs.head? ≠ some '~' then ⟨String.ofList value⟩
    else ⟨String.ofList (expandHome e value)⟩

end DeliveryRules
