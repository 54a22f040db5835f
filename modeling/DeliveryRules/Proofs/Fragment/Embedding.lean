import DeliveryRules.Proofs.Capability.Catalog
import DeliveryRules.Proofs.Fragment.Accepted
import DeliveryRules.Proofs.Fragment.Construction

/-!
# Option schemas inside the schema of fragments

A descriptor is checked with its option schema standing on its own. In the schema of fragments the
same option schema is a part of a larger one, of the seventh draft.

- **Portable schemas** (`Schema.IsPortable`): schemas of the seventh draft too, which take no part
  in references and use no rule that has changed since.
- **Sole uses** (`Catalog.isRule_soleUse`): a fragment with one use of a capability is accepted just
  if its options are, where the option schema stands.
- `Registry.builtIn_registered`: with portable option schemas there is a schema of fragments, and it
  accepts what each of them accepts on its own.
-/

namespace DeliveryRules

/-! ## Portable schemas -/

namespace Schema

theorem SameRules.symm {d d' : Draft} {members : Members} (h : SameRules d d' members) :
    SameRules d' d members := by
  rcases h with rfl | ⟨hd, hd', h⟩
  · exact .inl rfl
  · exact .inr ⟨hd', hd, h⟩

theorem Timeless.symm {d d' : Draft} {schema : Json} (h : Timeless d d' schema) :
    Timeless d' d schema := by
  induction h with
  | plain h => exact .plain h
  | object hnone hearly hrules _ ih => exact .object hnone hearly hrules.symm ih

/-- A schema that means the same on its own and nested in one of the seventh draft. -/
def IsSettled (schema : Json) : Prop :=
  Timeless (Draft.d7.nested schema) (Draft.latest.nested schema) schema

/-- A schema that can be nested in one of the seventh draft, and means the same there. -/
structure IsPortable (schema : Json) : Prop where
  isSchema : IsSchema schema
  settled : IsSettled schema

/-- On its own a schema is of the draft that it names, or else of the latest. -/
theorem latest_nested {j : Json} {named : Option Draft} (h : Draft.named j = .ok named) :
    Draft.latest.nested j = named.getD .latest := by
  rw [Draft.nested, h]
  cases named <;> rfl

end Schema

namespace Catalog

open Schema

variable {c : Catalog} {d : Descriptor}

/-- An option schema is part of the schema of fragments, so it is smaller. -/
theorem size_optionSchema_le {kind : Capability.Kind} (hd : d ∈ c.descriptors kind) :
    d.optionSchema.size ≤ enough c.ruleSchema := by
  have hoptions : d.optionSchema.size < (optionsOf d).size := calc
    d.optionSchema.size
    _ < (Json.object [("options", d.optionSchema)]).size :=
      Json.size_lt_of_member List.mem_cons_self
    _ < (Json.object [("properties", .object [("options", d.optionSchema)])]).size :=
      Json.size_lt_of_member List.mem_cons_self
    _ < (optionsOf d).size :=
      Json.size_lt_of_member (List.mem_cons_of_mem _ List.mem_cons_self)
  have hne : (c.descriptors kind).isEmpty = false := List.isEmpty_eq_false_iff.mpr
    (List.ne_nil_of_mem hd)
  have hshape : (optionsOf d).size < (capabilityShape (c.descriptors kind)).size := by
    have hmem : ("allOf", Json.array ((c.descriptors kind).map optionsOf)) ∈
        if (c.descriptors kind).isEmpty then [] else
          [("allOf", Json.array ((c.descriptors kind).map optionsOf))] := by
      rw [hne]
      exact List.mem_cons_self
    exact Nat.lt_trans (Json.size_lt_of_item (List.mem_map_of_mem hd))
      (Json.size_lt_of_member (List.mem_append_right _ hmem))
  have hwhole : (capabilityShape (c.descriptors kind)).size < c.ruleSchema.size := by
    have hdefinition : ∃ name, (name, capabilityShape (c.descriptors kind)) ∈
        [("rule", ruleShape), ("variable", variableShape),
          ("criteria", capabilityShape c.criteria), ("behavior", capabilityShape c.behaviors)] := by
      cases kind with
      | criteria => exact ⟨"criteria", by simp [descriptors]⟩
      | behavior => exact ⟨"behavior", by simp [descriptors]⟩
    obtain ⟨name, hname⟩ := hdefinition
    exact Nat.lt_trans (Json.size_lt_of_member hname)
      (Json.size_lt_of_member (List.mem_cons_of_mem _ (List.mem_cons_of_mem _ List.mem_cons_self)))
  exact Nat.le_trans (Nat.le_of_lt (Nat.lt_trans hoptions (Nat.lt_trans hshape hwhole)))
    (Nat.le_add_right _ _)

theorem acceptsOptions_iff_of_settled {kind : Capability.Kind} (hd : d ∈ c.descriptors kind)
    {own : Schema} (hown : Schema.ofJson d.optionSchema = .ok own)
    (hsettled : IsSettled d.optionSchema) (options : Json) :
    c.AcceptsOptions d options ↔ own.violation? options = none := by
  obtain ⟨named, hnamed, -, -, rfl⟩ := ofJson_eq_ok.mp hown
  rw [← Option.isNone_iff_eq_none]
  refine fits_iff_of_timeless ?_ (size_optionSchema_le hd) (Nat.le_add_right _ _)
  rw [nested_draft, ← latest_nested hnamed]
  exact hsettled

theorem isSound_of_settled {own : Schema} (hown : Schema.ofJson d.optionSchema = .ok own)
    (hsettled : IsSettled d.optionSchema) (n : Nat) :
    IsSound n (c.scope.nested d.optionSchema) d.optionSchema := by
  obtain ⟨named, hnamed, -, ⟨met, hsound⟩, -⟩ := ofJson_eq_ok.mp hown
  have htimeless : Timeless (Scope.top d.optionSchema (named.getD .latest)).draft
      (c.scope.nested d.optionSchema).draft d.optionSchema := by
    rw [nested_draft, Scope.top, ← latest_nested hnamed]
    exact hsettled.symm
  have hsize : d.optionSchema.size ≤
      (d.optionSchema.size + 1) * (d.optionSchema.size + 1) :=
    Nat.le_trans (Nat.le_succ _) (Nat.le_mul_of_pos_right _ (Nat.succ_pos _))
  exact fun met' => ⟨met', sound_of_timeless htimeless hsize hsound⟩

/-! ## Sole uses -/

/-- The member of a rule in which the uses of capabilities of a kind are listed. -/
def usesMember : Capability.Kind → String
  | .criteria => "criteria"
  | .behavior => "behaviors"

/-- A fragment that uses one capability, and says nothing else. -/
def soleUse (kind : Capability.Kind) (name : String) (options : Members) : Json :=
  .object [(usesMember kind,
    .array [.object [("name", .string name), ("options", .object options)]])]

theorem isEntry_soleUse {kind : Capability.Kind} (hordered : Ordered (c.descriptors kind))
    (hd : d ∈ c.descriptors kind) (options : Members) :
    Grammar.IsEntry c kind (.object [("name", .string d.name), ("options", .object options)]) ↔
      c.AcceptsOptions d (.object options) := by
  constructor
  · rintro ⟨-, -, h⟩
    exact h d hd rfl _ rfl
  · intro h
    refine .object ?_ rfl fun e he hname j hj => ?_
    · refine List.forall_mem_cons.mpr ⟨.name (.inr (List.mem_map_of_mem hd)),
        List.forall_mem_singleton.mpr .options⟩
    · obtain rfl := hordered.eq_of_name hd he (Json.string.inj (Option.some.inj hname))
      obtain rfl : Json.object options = j := Option.some.inj hj
      exact h

theorem isRule_soleUse {kind : Capability.Kind} (hordered : Ordered (c.descriptors kind))
    (hd : d ∈ c.descriptors kind) (options : Members) :
    Grammar.IsRule c (soleUse kind d.name options) ↔ c.AcceptsOptions d (.object options) := by
  rw [← isEntry_soleUse hordered hd options]
  constructor
  · rintro ⟨h⟩
    have hitems := (h _ List.mem_cons_self).items
    cases kind with
    | criteria => exact hitems.1 rfl _ List.mem_cons_self
    | behavior => exact hitems.2.1 rfl _ List.mem_cons_self
  · intro h
    refine .object (List.forall_mem_singleton.mpr ?_)
    cases kind with
    | criteria => exact .criteria (List.forall_mem_singleton.mpr h)
    | behavior => exact .behaviors (List.forall_mem_singleton.mpr h)

end Catalog

namespace Registry

variable {c : Catalog}

/-- Of a catalog that was put together by registering, a schema of fragments can be made if all
option schemas are portable. Where there is such a schema, it accepts the use of a capability if
the option schema accepts the options where it stands; and if the option schema means the same
there, this is what it accepts on its own. -/
theorem builtIn_registered (hc : c.IsRegistered) :
    ((∀ kind, ∀ d ∈ c.descriptors kind, Schema.IsPortable d.optionSchema) →
      ∀ version, ∃ r, builtIn c version = .ok r) ∧
    ∀ version r, builtIn c version = .ok r → ∃ schema, r.find? version = some schema ∧
      ∀ kind, ∀ d ∈ c.descriptors kind, ∃ own, Schema.ofJson d.optionSchema = .ok own ∧
        ∀ options : Members,
          (schema.violation? (Catalog.soleUse kind d.name options) = none ↔
            c.AcceptsOptions d (.object options)) ∧
          (Schema.IsSettled d.optionSchema →
            (schema.violation? (Catalog.soleUse kind d.name options) = none ↔
              own.violation? (.object options) = none)) := by
  have hown (kind : Capability.Kind) (d : Descriptor) (hd : d ∈ c.descriptors kind) :
      ∃ own, Schema.ofJson d.optionSchema = .ok own :=
    Descriptor.schema_of_check ((hc.descriptors kind).2 d hd)
  refine ⟨fun hportable => builtIn_eq_ok (fun kind d hd => (hportable kind d hd).isSchema)
    fun kind d hd => ?_, fun version r hr => ?_⟩
  · obtain ⟨own, hschema⟩ := hown kind d hd
    exact Catalog.isSound_of_settled hschema (hportable kind d hd).settled
  · refine ⟨_, find?_builtIn hr, fun kind d hd => ?_⟩
    obtain ⟨own, hschema⟩ := hown kind d hd
    refine ⟨own, hschema, fun options => ?_⟩
    have hstands := Catalog.violation?_ruleSchema.trans
      (Catalog.isRule_soleUse (hc.descriptors kind).1 hd options)
    exact ⟨hstands, fun hsettled =>
      hstands.trans (Catalog.acceptsOptions_iff_of_settled hd hschema hsettled _)⟩

/-- Whether all option schemas of a catalog are portable, by evaluation. -/
def isPortableCatalog (c : Catalog) : Bool :=
  [Capability.Kind.criteria, .behavior].all fun kind => (c.descriptors kind).all fun d =>
    decide (Schema.IsSchema d.optionSchema) &&
      Schema.isTimeless 10 (Schema.Draft.d7.nested d.optionSchema)
        (Schema.Draft.latest.nested d.optionSchema) d.optionSchema

theorem isPortable_of_catalog (h : isPortableCatalog c = true) (kind : Capability.Kind)
    (d : Descriptor) (hd : d ∈ c.descriptors kind) : Schema.IsPortable d.optionSchema := by
  simp only [isPortableCatalog, List.all_eq_true, Bool.and_eq_true, decide_eq_true_eq] at h
  obtain ⟨hschema, htimeless⟩ := h kind (by cases kind <;> decide) d hd
  exact ⟨hschema, Schema.timeless_of_isTimeless htimeless⟩

set_option maxRecDepth 20000 in
/-- The option schemas of the sample catalog are portable, so each accepts in fragments what it
accepts on its own. -/
theorem builtIn_registered_sample :
    ∃ c r schema, Catalog.sample = .ok c ∧ builtIn c "v1" = .ok r ∧ r.find? "v1" = some schema ∧
      ∀ kind, ∀ d ∈ c.descriptors kind, ∃ own, Schema.ofJson d.optionSchema = .ok own ∧
        ∀ options : Members, schema.violation? (Catalog.soleUse kind d.name options) = none ↔
          own.violation? (.object options) = none := by
  have hok : (Catalog.sample.toOption.any isPortableCatalog) = true := by decide +kernel
  obtain ⟨c, hc, hportable⟩ := (Option.any_eq_true _ _).mp hok
  have hsample := eq_ok_of_toOption hc
  obtain ⟨hbuilds, haccepts⟩ := builtIn_registered (Catalog.isRegistered_ofFile hsample)
  obtain ⟨r, hr⟩ := hbuilds (isPortable_of_catalog hportable) "v1"
  obtain ⟨schema, hfind, hall⟩ := haccepts "v1" r hr
  refine ⟨c, r, schema, hsample, hr, hfind, fun kind d hd => ?_⟩
  obtain ⟨own, hown, hoptions⟩ := hall kind d hd
  exact ⟨own, hown, fun options =>
    (hoptions options).2 (isPortable_of_catalog hportable kind d hd).settled⟩

/-- A behavior whose option schema has the given members. -/
def withOptions (members : Members) : Descriptor where
  name := "x"
  optionSchema := .object members
  defaults := []
  variableHandling := {}

/-- An option schema with a definition of its own, to which it refers. -/
def referring : Descriptor := withOptions
  [("type", .string "object"),
    ("properties", .object [("a", .object [("$ref", .string "#/$defs/t")])]),
    ("$defs", .object [("t", .object [("type", .string "string")])])]

/-- An option schema by which one option asks for another, in the words of a later draft. -/
def dependent : Descriptor := withOptions
  [("dependentRequired", .object [("a", .strings ["b"])])]

theorem isRegistered_withOptions {members : Members} (h : (withOptions members).check.isOk) :
    Catalog.IsRegistered { behaviors := [withOptions members] } := by
  suffices hregister : Catalog.register {} .behavior (withOptions members) =
      .ok { behaviors := [withOptions members] } from .register .empty hregister
  cases hcheck : (withOptions members).check with
  | error fault =>
    rw [hcheck] at h
    cases h
  | ok _ =>
    rw [Catalog.register, hcheck]
    rfl

theorem isOk_of_builtIn {version : String} {r : Registry} (h : builtIn c version = .ok r) :
    (Schema.ofJson c.ruleSchema).isOk := by
  rw [builtIn, register] at h
  cases hschema : Schema.ofJson c.ruleSchema with
  | error fault =>
    rw [hschema] at h
    cases h
  | ok schema => rfl

set_option maxRecDepth 20000 in
/-- What an option schema refers to on its own is not found in the schema of fragments, and what it
asks for in a later draft is not asked for there. -/
theorem builtIn_registered_embedded :
    (∃ c, c.IsRegistered ∧ c.behaviors = [referring] ∧ ∀ version r, builtIn c version ≠ .ok r) ∧
    ∃ c r schema own, c.IsRegistered ∧ c.behaviors = [dependent] ∧
      builtIn c defaultRuleFormat = .ok r ∧ r.find? defaultRuleFormat = some schema ∧
      Schema.ofJson dependent.optionSchema = .ok own ∧
      schema.violation? (Catalog.soleUse .behavior dependent.name [("a", .null)]) = none ∧
      own.violation? (.object [("a", .null)]) ≠ none := by
  constructor
  · have hfails :
        (Schema.ofJson (Catalog.ruleSchema { behaviors := [referring] })).isOk = false := by
      decide +kernel
    refine ⟨{ behaviors := [referring] }, isRegistered_withOptions (by decide +kernel), rfl, ?_⟩
    intro version r hr
    exact Bool.eq_false_iff.mp hfails (isOk_of_builtIn hr)
  · have hok : ((builtIn { behaviors := [dependent] } defaultRuleFormat).toOption.bind fun r =>
        (r.find? defaultRuleFormat).bind fun schema =>
          (Schema.ofJson dependent.optionSchema).toOption.bind fun own =>
            if (schema.violation?
                (Catalog.soleUse .behavior dependent.name [("a", .null)])).isNone ∧
              (own.violation? (.object [("a", .null)])).isSome then some () else none).isSome := by
      decide +kernel
    obtain ⟨_, hall⟩ := Option.isSome_iff_exists.mp hok
    obtain ⟨r, hr, hall⟩ := Option.bind_eq_some_iff.mp hall
    obtain ⟨schema, hschema, hall⟩ := Option.bind_eq_some_iff.mp hall
    obtain ⟨own, hown, hall⟩ := Option.bind_eq_some_iff.mp hall
    obtain ⟨haccepted, hrejected⟩ := (Option.ite_none_right_eq_some.mp hall).1
    exact ⟨_, r, schema, own, isRegistered_withOptions (by decide +kernel), rfl,
      eq_ok_of_toOption hr, hschema, eq_ok_of_toOption hown, Option.isNone_iff_eq_none.mp haccepted,
      Option.isSome_iff_ne_none.mp hrejected⟩

end Registry

end DeliveryRules
