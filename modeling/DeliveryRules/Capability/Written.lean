import DeliveryRules.Capability.Catalog
import DeliveryRules.Json.Reader

/-!
# Catalogs as texts

The last of two members with one name counts in a JSON value. In a text of a catalog no field may be
written twice, so the text is looked at before it is a value.

* `RecordShape.written`: the fields of a record as they were written.
* `CatalogFile.ofText?`: what a text says, if it is a catalog in which no field is repeated.
-/

namespace DeliveryRules

/-- The items of an array as they were written. -/
def Located.items : Located → List Located
  | .array _ items => items
  | _ => []

/-- The fields of a record as they were written, without the members that are none. -/
def RecordShape.written {α : Type} (s : RecordShape α) : Located → List (String × Located)
  | .object _ members => members.filter (s.fields.contains ·.1)
  | .array _ items => s.fields.zip items
  | .scalar .. => []

/-- No field is written twice. -/
def RecordShape.isClear {α : Type} (s : RecordShape α) (l : Located) : Bool :=
  decide ((s.written l).map (·.1)).Nodup

def Descriptor.isClear (l : Located) : Bool :=
  Descriptor.shape.isClear l && (Descriptor.shape.written l).all fun field =>
    field.1 ≠ "variableHandling" || VariableHandling.shape.isClear field.2

namespace CatalogFile

def isClear (l : Located) : Bool :=
  shape.isClear l && (shape.written l).all fun field => field.2.items.all Descriptor.isClear

def ofText? (text : String) : Option CatalogFile :=
  match Json.readLocated text with
  | .error _ => none
  | .ok l => if isClear l then (decode l.toJson).toOption else none

end CatalogFile

end DeliveryRules
