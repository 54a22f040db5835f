import DeliveryRules.Fragment.Format

/-!
# Settings

What can be set, and what holds where nothing is set.
-/

namespace DeliveryRules

structure Settings where
  /-- The version of rules in fragments that name none. -/
  ruleFormat : String := defaultRuleFormat
  /-- The directory with a schema for each version of rules. -/
  schemaDirectory : Option Path := none
  catalog : Option Path := none
  /-- The directory in which source files with relative names are. -/
  sourceRoot : Path := ⟨"."⟩
  /-- The width of the line shown with an error in a fragment. -/
  excerptWidth : Nat := 80
deriving DecidableEq, Repr

namespace Settings

private def pathOfText : Decoder Path := fun j => (Decoder.pathText j).map (⟨·⟩)

def shape : RecordShape Settings where
  name := "Settings"
  fields := ["rule_format", "schema_dir", "catalog", "source_root", "excerpt_width"]
  required := 0
  put s field j :=
    match field with
    | "rule_format" => do return { s with ruleFormat := ← Decoder.string j }
    | "schema_dir" => do return { s with schemaDirectory := ← Decoder.optional pathOfText j }
    | "catalog" => do return { s with catalog := ← Decoder.optional pathOfText j }
    | "source_root" => do return { s with sourceRoot := ← pathOfText j }
    | _ => do return { s with excerptWidth := ← Decoder.natural j }

def decode : Decoder Settings := shape.decode {}

end Settings

end DeliveryRules
