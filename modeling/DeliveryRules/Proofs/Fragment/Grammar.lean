import DeliveryRules.Fragment.Format
import DeliveryRules.Proofs.Schema.Keywords

/-!
# The grammar of fragments

What a fragment looks like, said without a schema.

- **Mentions** (`IsMention`): the strings that stand for another fragment.
- **Variables and capabilities** (`IsVariable`, `IsEntry`): objects with members of a fixed set of
  names. The options of a capability are left to its own schema (`Catalog.AcceptsOptions`).
- **Rules** (`IsRule`): objects that may have rules among their children.
-/

namespace DeliveryRules

namespace Catalog

/-- What stands around the parts of the schema of fragments. -/
def scope (c : Catalog) : Schema.Scope := .top c.ruleSchema .d7

/-- The option schema of a capability accepts the options, where it stands in the schema of
fragments. -/
def AcceptsOptions (c : Catalog) (d : Descriptor) (options : Json) : Prop :=
  Schema.Fits (Schema.enough c.ruleSchema) (c.scope.nested d.optionSchema) d.optionSchema options

end Catalog

namespace Grammar

/-- The mark, and something in the same line after it. -/
def IsMention (text : String) : Prop :=
  ∃ c cs, text.toList = includeMark.toList ++ c :: cs ∧ c ≠ '\n'

inductive IsVariableMember : String → Json → Prop where
  | name {text : String} : text ≠ "" → IsVariableMember "name" (.string text)
  | text {name text : String} : name ∈ ["value", "description", "provenance"] →
      IsVariableMember name (.string text)
  | flag {name : String} {b : Bool} : name ∈ ["hidden", "sensitive"] →
      IsVariableMember name (.bool b)

/-- What declares a variable. -/
inductive IsVariable : Json → Prop where
  | object {members : Members} : (∀ m ∈ members, IsVariableMember m.1 m.2) →
      Members.has members "name" → IsVariable (.object members)

/-- Where there are no descriptors, any name will do. -/
inductive IsEntryMember (descriptors : List Descriptor) : String → Json → Prop where
  | name {text : String} : descriptors = [] ∨ text ∈ descriptors.map (·.name) →
      IsEntryMember descriptors "name" (.string text)
  | options {members : Members} : IsEntryMember descriptors "options" (.object members)
  | provenance {text : String} : IsEntryMember descriptors "provenance" (.string text)

/-- The use of a capability. -/
inductive IsEntry (c : Catalog) (kind : Capability.Kind) : Json → Prop where
  | object {members : Members} :
      (∀ m ∈ members, IsEntryMember (c.descriptors kind) m.1 m.2) →
      Members.has members "name" →
      (∀ d ∈ c.descriptors kind, Members.get? members "name" = some (.string d.name) →
        ∀ options, Members.get? members "options" = some options → c.AcceptsOptions d options) →
      IsEntry c kind (.object members)

mutual

inductive IsRule (c : Catalog) : Json → Prop where
  | object {members : Members} : (∀ m ∈ members, IsRuleMember c m.1 m.2) →
      IsRule c (.object members)

inductive IsRuleMember (c : Catalog) : String → Json → Prop where
  | text {name text : String} : name ∈ ["ruleFormat", "name", "comment", "provenance"] →
      IsRuleMember c name (.string text)
  | matchPolicy {text : String} : text ∈ ["any", "all"] →
      IsRuleMember c "matchPolicy" (.string text)
  | criteria {items : List Json} : (∀ j ∈ items, IsEntry c .criteria j) →
      IsRuleMember c "criteria" (.array items)
  | behaviors {items : List Json} : (∀ j ∈ items, IsEntry c .behavior j) →
      IsRuleMember c "behaviors" (.array items)
  | declarations {items : List Json} : (∀ j ∈ items, IsVariable j) →
      IsRuleMember c "variables" (.array items)
  | children {items : List Json} : (∀ j ∈ items, IsChild c j) →
      IsRuleMember c "children" (.array items)

inductive IsChild (c : Catalog) : Json → Prop where
  | mention {text : String} : IsMention text → IsChild c (.string text)
  | rule {j : Json} : IsRule c j → IsChild c j

end

end Grammar

end DeliveryRules
