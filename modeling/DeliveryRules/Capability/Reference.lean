import DeliveryRules.CompileError

/-!
# Variables that options refer to

* `inlineReferences`: the names in the references that a text holds, from left to right.
* `Descriptor.references`: the names that options mention: first those of the options that are names
  or lists of names, then those referred to in strings.
-/

namespace DeliveryRules

/-- What may stand in the name of a variable: ASCII letters, digits and the low line. -/
def isNameChar (c : Char) : Bool := c.isAlphanum || c = '_'

/-- What a reference to a variable starts with. -/
def referenceOpening : List Char := ['\x7b', '\x7b', 'u', 's', 'e', 'r', '.']

def referenceClosing : List Char := ['\x7d', '\x7d']

/-- The name in a reference that starts here. -/
def referenceHere? (cs : List Char) : Option (List Char) := do
  let rest ← Text.afterPrefix? referenceOpening cs
  let name := rest.takeWhile isNameChar
  let _ ← Text.afterPrefix? referenceClosing (rest.dropWhile isNameChar)
  if name.isEmpty then none else some name

/-- The names in the references in a text from left to right, where the first `skip` characters are
passed over. The search goes on after the end of a reference, which has nine characters apart from
the name. -/
def referencesAfter : Nat → List Char → List String
  | _, [] => []
  | skip + 1, _ :: cs => referencesAfter skip cs
  | 0, c :: cs =>
    match referenceHere? (c :: cs) with
    | some name => String.ofList name :: referencesAfter (name.length + 8) cs
    | none => referencesAfter 0 cs

/-- The names in the references in a text. -/
def inlineReferences (cs : List Char) : List String := referencesAfter 0 cs

namespace Descriptor

private def mismatch {α : Type} (d : Descriptor) (option : String) (expected : OptionShape) :
    Except CompileError α :=
  .error (.typeMismatch d.name option expected)

/-- The name that an option is. Absent and empty names count for nothing. -/
def nameReference (d : Descriptor) (options : Members) (option : String) :
    Except CompileError (List String) :=
  match Members.get? options option with
  | none => .ok []
  | some .null => .ok []
  | some (.string s) => .ok (if s.isEmpty then [] else [s])
  | some _ => d.mismatch option .string

/-- The names in an option that is a list. Other than in `nameReference`, empty names are not passed
over here, although no variable should have one. -/
def listReferences (d : Descriptor) (options : Members) (option : String) :
    Except CompileError (List String) :=
  match Members.get? options option with
  | none => .ok []
  | some .null => .ok []
  | some (.array items) =>
    items.mapM fun
      | .string s => .ok s
      | _ => d.mismatch option .strings
  | some _ => d.mismatch option .array

/-- The names referred to in the strings of an option. -/
def textReferences (options : Members) (option : String) : List String :=
  ((Members.get? options option).elim [] Json.texts).flatMap fun s => inlineReferences s.toList

def references (d : Descriptor) (options : Members) : Except CompileError (List String) := do
  let names ← d.variableHandling.names.mapM (d.nameReference options)
  let lists ← d.variableHandling.lists.mapM (d.listReferences options)
  let inTexts := d.variableHandling.inline.flatMap (textReferences options)
  return names.flatten ++ lists.flatten ++ inTexts

/-- The options laid over the defaults. No options are as good as none given. -/
def resolve (d : Descriptor) (options : Json) : Except CompileError Members :=
  match options with
  | .null => .ok d.defaults
  | .object given => .ok (Members.merge d.defaults given)
  | _ => d.mismatch "options" .object

end Descriptor

end DeliveryRules
