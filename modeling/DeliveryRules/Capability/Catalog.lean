import DeliveryRules.Capability.Reference

/-!
# The catalog of capabilities

A catalog knows the descriptors of each kind by name, in the order of the names. A descriptor is
checked before it is taken in, so what holds of a checked descriptor can be relied on.

* `Descriptor.check`: what a descriptor has to be.
* `Catalog.register`: takes in a descriptor; a known name gets the new one.
* `Catalog.require`: the descriptor of a name, or an error.
-/

namespace DeliveryRules

namespace Descriptor

/-- The type that the option schema declares for an option. -/
private def declaredType? (property : Json) : Option String := property.memberString? "type"

/-- An option that has to do with variables is declared, and as what it has to be. -/
def checkOption (properties : Members) (option : String) (expected : Option String) :
    Except DescriptorFault Unit :=
  match Members.get? properties option with
  | none => .error (.undeclared option)
  | some property =>
    match expected, declaredType? property with
    | some e, some actual => if e = actual then .ok () else .error (.declaredAs option actual e)
    | _, _ => .ok ()

/-- The options that have to do with variables, with what each has to be. -/
def variableOptions (d : Descriptor) : List (String × Option String) :=
  let h := d.variableHandling
  h.inline.map (·, none) ++ h.names.map (·, some "string") ++ h.lists.map (·, some "array")

def check (d : Descriptor) : Except DescriptorFault Unit := do
  if d.name.isEmpty then throw .emptyName
  if !d.optionSchema.isObject then throw .schemaNotObject
  let _ ← (Schema.ofJson d.optionSchema).mapError .badSchema
  match (d.optionSchema.member? "properties").bind Json.asObject? with
  | none => return
  | some properties => d.variableOptions.forM fun o => checkOption properties o.1 o.2

end Descriptor

/-- What a catalog is made from. -/
structure CatalogFile where
  criteria : List Descriptor := []
  behaviors : List Descriptor := []

namespace CatalogFile

def shape : RecordShape CatalogFile where
  name := "CatalogFile"
  fields := ["criteria", "behaviors"]
  required := 0
  put f field j := do
    let descriptors ← Decoder.listOf Descriptor.decode j
    return match field with
      | "criteria" => { f with criteria := descriptors }
      | _ => { f with behaviors := descriptors }

def decode : Decoder CatalogFile := shape.decode {}

end CatalogFile

structure Catalog where
  criteria : List Descriptor := []
  behaviors : List Descriptor := []

namespace Catalog

def descriptors (c : Catalog) : Capability.Kind → List Descriptor
  | .criteria => c.criteria
  | .behavior => c.behaviors

def size (c : Catalog) : Nat := c.criteria.length + c.behaviors.length

/-- Puts a descriptor in its place in the order of names, instead of one of the same name. -/
def place (d : Descriptor) : List Descriptor → List Descriptor
  | [] => [d]
  | e :: es =>
    if d.name < e.name then d :: e :: es
    else if d.name = e.name then d :: es
    else e :: place d es

def insert (c : Catalog) (kind : Capability.Kind) (d : Descriptor) : Catalog :=
  match kind with
  | .criteria => { c with criteria := place d c.criteria }
  | .behavior => { c with behaviors := place d c.behaviors }

def register (c : Catalog) (kind : Capability.Kind) (d : Descriptor) :
    Except CompileError Catalog :=
  match d.check with
  | .ok () => .ok (c.insert kind d)
  | .error fault => .error (.invalidDescriptor kind d.name fault)

def ofFile (f : CatalogFile) : Except CompileError Catalog := do
  let c ← f.criteria.foldlM (register · .criteria) {}
  f.behaviors.foldlM (register · .behavior) c

def find? (c : Catalog) (kind : Capability.Kind) (name : String) : Option Descriptor :=
  (c.descriptors kind).find? (·.name = name)

def require (c : Catalog) (kind : Capability.Kind) (name : String) :
    Except CompileError Descriptor :=
  match c.find? kind name with
  | some d => .ok d
  | none => .error (.unknownCapability kind name)

end Catalog

end DeliveryRules
