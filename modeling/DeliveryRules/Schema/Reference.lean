import DeliveryRules.Schema.Meta
import DeliveryRules.Pointer.Basic

/-!
# References between schemas

A reference is looked up in the schema that is the whole for the place where it stands: the
outermost one, or the nearest around it that has a name of its own.

* `Scope`: what a schema has to know of the schemas around it.
* `Scope.lookup`: the schema that a reference leads to.
-/

namespace DeliveryRules.Schema

structure Scope where
  /-- The schema in which references are looked up. -/
  whole : Json
  /-- The draft of `whole`. -/
  wholeDraft : Draft
  /-- The draft of the schema at hand. -/
  draft : Draft

namespace Scope

/-- A schema that stands for itself. -/
def top (whole : Json) (draft : Draft) : Scope := ⟨whole, draft, draft⟩

/-- A name other than a mark within the schema around it. Where a reference stands alone, the name
beside it does not count. -/
def ownName? (d : Draft) (schema : Json) : Option String :=
  if d.referenceStandsAlone && (schema.member? "$ref").isSome then none
  else (schema.memberString? d.idName).filter fun id => id.toList.head? ≠ some '#'

/-- The scope of a schema that is nested directly in one of scope `s`. -/
def nested (s : Scope) (schema : Json) : Scope :=
  let draft := s.draft.nested schema
  match ownName? draft schema with
  | some _ => top schema draft
  | none => { s with draft }

end Scope

/-- Why a reference leads nowhere. -/
inductive DeadReference where
  | noPointer (pointer : String)
  | noAnchor (anchor : String)
  | noDocument (reference : String)
deriving DecidableEq, Repr

namespace DeadReference

def message : DeadReference → String
  | noPointer p => s!"Pointer '{p}' does not exist"
  | noAnchor a => s!"Anchor '{a}' does not exist"
  | noDocument r => s!"Resource '{r}' is not present in a registry and retrieving it failed"

end DeadReference

namespace Reference

private def hexPart? (c : Char) : Option Nat :=
  if c.isDigit then some (c.toNat - '0'.toNat)
  else if 'a' ≤ c && c ≤ 'f' then some (c.toNat - 'a'.toNat + 10)
  else if 'A' ≤ c && c ≤ 'F' then some (c.toNat - 'A'.toNat + 10)
  else none

private def bytesOf : List Char → List UInt8
  | [] => []
  | '%' :: a :: b :: rest =>
    match hexPart? a, hexPart? b with
    | some x, some y => UInt8.ofNat (16 * x + y) :: bytesOf rest
    | _, _ => (String.singleton '%').toUTF8.toList ++ bytesOf (a :: b :: rest)
  | c :: rest => (String.singleton c).toUTF8.toList ++ bytesOf rest

/-- The text in which bytes may be written as a percent sign and two hexadecimal digits. -/
def decoded (text : List Char) : String :=
  (String.fromUTF8? (bytesOf text).toByteArray).getD (String.ofList text)

/-- The part of `j` that tokens lead to. -/
def follow (j : Json) : List String → Option Json
  | [] => some j
  | t :: ts =>
    match Pointer.step? j t with
    | some k => follow k ts
    | none => none

/-- The name of the member by which a schema is marked for references. -/
def isMarked (anchor : String) (members : Members) : Bool :=
  Members.get? members "$anchor" |>.bind Json.asString? |>.any (· = anchor)

/-- The first schema among the values in `j` that is marked with `anchor`. -/
def marked? (anchor : String) : Json → Option Json
  | .object members =>
    if isMarked anchor members then some (.object members) else inMembers members
  | .array items => inItems items
  | _ => none
where
  inItems : List Json → Option Json
    | [] => none
    | j :: js => (marked? anchor j).or (inItems js)
  inMembers : List (String × Json) → Option Json
    | [] => none
    | (_, j) :: ms => (marked? anchor j).or (inMembers ms)

end Reference

/-- The schema that `reference` leads to, and its scope: that of the whole it lies in. -/
def Scope.lookup (s : Scope) (reference : String) : Except DeadReference (Scope × Json) :=
  let found (j : Json) := Except.ok (Scope.top s.whole s.wholeDraft, j)
  match reference.toList with
  | [] => found s.whole
  | ['#'] => found s.whole
  | '#' :: '/' :: cs =>
    let tokens := (Text.cut '/' (Reference.decoded cs).toList).map Pointer.unescape
    match Reference.follow s.whole (tokens.map String.ofList) with
    | some j => found j
    | none => .error (.noPointer (String.ofList ('/' :: cs)))
  | '#' :: anchor =>
    match Reference.marked? (String.ofList anchor) s.whole with
    | some j => found j
    | none => .error (.noAnchor (String.ofList anchor))
  | _ =>
    match Draft.ofUri? reference with
    | some d => .ok (Scope.top d.meta d, d.meta)
    | none => .error (.noDocument reference)

end DeliveryRules.Schema
