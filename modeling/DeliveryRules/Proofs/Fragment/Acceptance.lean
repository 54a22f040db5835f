import DeliveryRules.Capability.Sample
import DeliveryRules.Compiler.Setup
import DeliveryRules.Proofs.Fragment.Grammar
import DeliveryRules.Proofs.Pattern.Ends

/-!
# What the schema of fragments accepts

- **Definitions** (`lookup_definition`): where the references in the schema of fragments lead.
- **Shapes** (`fits_variable`, `fits_entry`, `fits_child`): one part of the grammar for each
  definition.
- **Rules** (`fitsWithin_ruleShape_iff`): by induction on the depth of the value, since a rule may
  have rules among its children.
- `Registry.builtIn_violation?_eq_none`: the schema that is registered accepts the grammar.
-/

namespace DeliveryRules

namespace Catalog

open Schema Grammar

variable {c : Catalog} {fuel k : Nat} {s : Scope} {j : Json}

/-! ## Definitions -/

theorem nested_scope {members : Members} (hdraft : Members.get? members "$schema" = none)
    (hid : Members.get? members "$id" = none) : c.scope.nested (.object members) = c.scope :=
  nested_eq_self hdraft hid

/-- The names of definitions have no marks in them. -/
theorem tokens_definition : ∀ name ∈ ["rule", "variable", "criteria", "behavior"],
    ((Text.cut '/' (Reference.decoded ("definitions/" ++ name).toList).toList).map
      Pointer.unescape).map String.ofList = ["definitions", name] := by
  decide +kernel

theorem lookup_definition (name : String) {shape : Json}
    (hname : name ∈ ["rule", "variable", "criteria", "behavior"])
    (hfollow : Reference.follow c.ruleSchema ["definitions", name] = some shape) :
    c.scope.lookup s!"#/definitions/{name}" = .ok (c.scope, shape) := by
  have hchars : s!"#/definitions/{name}".toList =
      '#' :: '/' :: ("definitions/" ++ name).toList := by
    simp [toString]
  exact Scope.lookup_pointer hchars (tokens_definition name hname) hfollow

theorem fitsWithin_ref {name : String} {shape : Json}
    (h : c.scope.lookup s!"#/definitions/{name}" = .ok (c.scope, shape)) :
    FitsWithin fuel (k + 1) c.scope (ref name) j ↔ FitsWithin fuel k c.scope shape j := by
  have hconditions : conditions c.scope.draft [("$ref", .string s!"#/definitions/{name}")] =
      [("$ref", .string s!"#/definitions/{name}")] := rfl
  rw [ref, fitsWithin_object, hconditions, List.forall_mem_singleton, meets_ref h]

theorem lookup_rule : c.scope.lookup "#/definitions/rule" = .ok (c.scope, ruleShape) :=
  lookup_definition "rule" (by decide) rfl

theorem lookup_variable : c.scope.lookup "#/definitions/variable" = .ok (c.scope, variableShape) :=
  lookup_definition "variable" (by decide) rfl

theorem lookup_criteria :
    c.scope.lookup "#/definitions/criteria" = .ok (c.scope, capabilityShape c.criteria) :=
  lookup_definition "criteria" (by decide) rfl

theorem lookup_behavior :
    c.scope.lookup "#/definitions/behavior" = .ok (c.scope, capabilityShape c.behaviors) :=
  lookup_definition "behavior" (by decide) rfl

/-! ## Parts of shapes -/

theorem fitsWithin_typed (kind : Kind) :
    FitsWithin fuel (k + 1) s (typed kind.name) j ↔ kind.holds s.draft j := by
  rw [typed, fitsWithin_one rfl, meets_type]

/-- One of some texts. -/
theorem fitsWithin_enum (names : List String) :
    FitsWithin fuel (k + 1) s (.object [("enum", .strings names)]) j ↔
      ∃ name ∈ names, j = .string name := by
  rw [fitsWithin_one rfl, Json.strings, meets_enum]
  constructor
  · rintro ⟨option, hoption, hsame⟩
    obtain ⟨name, hname, rfl⟩ := List.mem_map.mp hoption
    exact ⟨name, hname, same_string.mp hsame⟩
  · rintro ⟨name, hname, rfl⟩
    exact ⟨_, List.mem_map_of_mem hname, same_string.mpr rfl⟩

theorem fitsWithin_listed (hd : s.draft = .d7) (item : Members) :
    FitsWithin fuel (k + 1) s (listed (.object item)) j ↔
      ∃ items, j = .array items ∧
        ∀ i ∈ items, Fits fuel (s.nested (.object item)) (.object item) i := by
  have htype : Meets fuel k s [("type", .string "array"), ("items", .object item)]
      ("type", .string "array") j ↔ ∃ items, j = .array items :=
    (meets_type .array).trans Kind.holds_array
  rw [listed, fitsWithin_two rfl, htype]
  constructor
  · rintro ⟨⟨items, rfl⟩, h⟩
    exact ⟨items, rfl, (meets_items hd item items).mp h⟩
  · rintro ⟨items, rfl, h⟩
    exact ⟨⟨items, rfl⟩, (meets_items hd item items).mpr h⟩

/-- A text that is not empty. -/
theorem fitsWithin_named :
    FitsWithin fuel (k + 1) s (.object [("type", .string "string"), ("minLength", .int 1)]) j ↔
      ∃ text, text ≠ "" ∧ j = .string text := by
  have htype : Meets fuel k s [("type", .string "string"), ("minLength", .int 1)]
      ("type", .string "string") j ↔ ∃ text, j = .string text :=
    (meets_type .string).trans Kind.holds_string
  rw [fitsWithin_two rfl, htype]
  constructor
  · rintro ⟨⟨text, rfl⟩, h⟩
    exact ⟨text, (meets_minLength_one text).mp h, rfl⟩
  · rintro ⟨text, hne, rfl⟩
    exact ⟨⟨text, rfl⟩, (meets_minLength_one text).mpr hne⟩

theorem fits_text (h : 1 ≤ fuel) : Fits fuel s (typed "string") j ↔ ∃ text, j = .string text :=
  (fits_iff_of_le h).trans ((fitsWithin_typed .string).trans Kind.holds_string)

theorem fits_flag (h : 1 ≤ fuel) : Fits fuel s (typed "boolean") j ↔ ∃ b, j = .bool b :=
  (fits_iff_of_le h).trans ((fitsWithin_typed .boolean).trans Kind.holds_boolean)

/-! ## Variables -/

theorem isVariableMember_iff (h : 1 ≤ fuel) {name : String} :
    (∃ schema, (name, schema) ∈
      [("name", .object [("type", .string "string"), ("minLength", .int 1)]),
        ("value", typed "string"), ("description", typed "string"), ("hidden", typed "boolean"),
        ("sensitive", typed "boolean"), ("provenance", typed "string")] ∧
      Fits fuel (s.nested schema) schema j) ↔ IsVariableMember name j := by
  simp only [List.mem_cons, Prod.mk.injEq, List.not_mem_nil, or_false]
  constructor
  · rintro ⟨schema, hschema, hfits⟩
    rcases hschema with ⟨rfl, rfl⟩ | ⟨rfl, rfl⟩ | ⟨rfl, rfl⟩ | ⟨rfl, rfl⟩ | ⟨rfl, rfl⟩ | ⟨rfl, rfl⟩
    · obtain ⟨text, hne, rfl⟩ := fitsWithin_named.mp ((fits_iff_of_le h).mp hfits)
      exact .name hne
    · obtain ⟨text, rfl⟩ := (fits_text h).mp hfits
      exact .text (by simp)
    · obtain ⟨text, rfl⟩ := (fits_text h).mp hfits
      exact .text (by simp)
    · obtain ⟨b, rfl⟩ := (fits_flag h).mp hfits
      exact .flag (by simp)
    · obtain ⟨b, rfl⟩ := (fits_flag h).mp hfits
      exact .flag (by simp)
    · obtain ⟨text, rfl⟩ := (fits_text h).mp hfits
      exact .text (by simp)
  · intro hmember
    cases hmember with
    | @name text hne =>
      exact ⟨_, .inl ⟨rfl, rfl⟩, (fits_iff_of_le h).mpr (fitsWithin_named.mpr ⟨text, hne, rfl⟩)⟩
    | @text _ text hname =>
      refine ⟨typed "string", ?_, (fits_text h).mpr ⟨text, rfl⟩⟩
      simp only [List.mem_cons, List.not_mem_nil, or_false] at hname
      rcases hname with rfl | rfl | rfl <;> simp
    | @flag _ b hname =>
      refine ⟨typed "boolean", ?_, (fits_flag h).mpr ⟨b, rfl⟩⟩
      simp only [List.mem_cons, List.not_mem_nil, or_false] at hname
      rcases hname with rfl | rfl <;> simp

theorem fitsWithin_variableShape (h : 1 ≤ fuel) :
    FitsWithin fuel (k + 1) s variableShape j ↔ IsVariable j := by
  rw [variableShape, fitsWithin_members rfl]
  refine (meets_recordWith [] rfl rfl rfl (by decide)).trans ?_
  simp only [Closed, isVariableMember_iff h]
  constructor
  · rintro ⟨members, rfl, hrequired, hmembers, -⟩
    exact .object hmembers (hrequired _ List.mem_cons_self)
  · rintro ⟨hmembers, hname⟩
    exact ⟨_, rfl, by simpa using hname, hmembers, fun _ hm => absurd hm List.not_mem_nil⟩

/-! ## Capabilities -/

theorem fits_entryName (h : 1 ≤ fuel) (descriptors : List Descriptor) :
    Fits fuel s (if descriptors.isEmpty then typed "string"
        else .object [("enum", .strings (descriptors.map (·.name)))]) j ↔
      ∃ text, (descriptors = [] ∨ text ∈ descriptors.map (·.name)) ∧ j = .string text := by
  cases descriptors with
  | nil => simpa using fits_text h
  | cons d ds =>
    refine (fits_iff_of_le h).trans ((fitsWithin_enum _).trans ?_)
    simp

theorem isEntryMember_iff (h : 1 ≤ fuel) (descriptors : List Descriptor) {name : String} :
    (∃ schema, (name, schema) ∈
      [("name", if descriptors.isEmpty then typed "string"
          else .object [("enum", .strings (descriptors.map (·.name)))]),
        ("options", typed "object"), ("provenance", typed "string")] ∧
      Fits fuel (s.nested schema) schema j) ↔ IsEntryMember descriptors name j := by
  have hoptions {s : Scope} : Fits fuel s (typed "object") j ↔ ∃ members, j = .object members :=
    (fits_iff_of_le h).trans ((fitsWithin_typed .object).trans Kind.holds_object)
  simp only [List.mem_cons, Prod.mk.injEq, List.not_mem_nil, or_false]
  constructor
  · rintro ⟨schema, hschema, hfits⟩
    rcases hschema with ⟨rfl, rfl⟩ | ⟨rfl, rfl⟩ | ⟨rfl, rfl⟩
    · obtain ⟨text, hname, rfl⟩ := (fits_entryName h descriptors).mp hfits
      exact .name hname
    · obtain ⟨members, rfl⟩ := hoptions.mp hfits
      exact .options
    · obtain ⟨text, rfl⟩ := (fits_text h).mp hfits
      exact .provenance
  · intro hmember
    cases hmember with
    | name hname =>
      exact ⟨_, .inl ⟨rfl, rfl⟩, (fits_entryName h descriptors).mpr ⟨_, hname, rfl⟩⟩
    | options => exact ⟨_, .inr (.inl ⟨rfl, rfl⟩), hoptions.mpr ⟨_, rfl⟩⟩
    | provenance => exact ⟨_, .inr (.inr ⟨rfl, rfl⟩), (fits_text h).mpr ⟨_, rfl⟩⟩

/-- The condition under which the options of a capability matter. -/
theorem fitsWithin_isNamed (h : 1 ≤ fuel) (name : String) (members : Members) :
    FitsWithin fuel (k + 1) c.scope
      (.object [("properties", .object [("name", .object [("const", .string name)])]),
        ("required", .strings ["name"])]) (.object members) ↔
      Members.get? members "name" = some (.string name) := by
  have hconst (j : Json) :
      Fits fuel (c.scope.nested (.object [("const", .string name)]))
        (.object [("const", .string name)]) j ↔ j = .string name := by
    rw [nested_scope rfl rfl, fits_iff_of_le h, fitsWithin_one rfl, meets_const rfl, same_string]
  rw [fitsWithin_two rfl, meets_properties rfl, meets_required]
  simp only [List.forall_mem_singleton, hconst, Members.has_iff]
  constructor
  · rintro ⟨hname, j, hj⟩
    rw [hj, hname j hj]
  · intro hname
    exact ⟨fun j hj => Option.some.inj (hj.symm.trans hname), _, hname⟩

theorem fitsWithin_optionsOf (h : 1 ≤ fuel) (d : Descriptor) (members : Members) :
    FitsWithin fuel (k + 2) c.scope (optionsOf d) (.object members) ↔
      (Members.get? members "name" = some (.string d.name) →
        ∀ options, Members.get? members "options" = some options →
          Fits fuel (c.scope.nested d.optionSchema) d.optionSchema options) := by
  have hthen : FitsWithin fuel (k + 1) c.scope
      (.object [("properties", .object [("options", d.optionSchema)])]) (.object members) ↔
      ∀ options, Members.get? members "options" = some options →
        Fits fuel (c.scope.nested d.optionSchema) d.optionSchema options := by
    rw [fitsWithin_one rfl, meets_properties rfl, List.forall_mem_singleton]
  rw [optionsOf, fitsWithin_two rfl, and_iff_left meets_then, meets_if rfl, nested_scope rfl rfl,
    fitsWithin_isNamed h]
  constructor
  · rintro ⟨hbranch, -⟩ hname
    exact hthen.mp (hbranch hname _ rfl)
  · intro hoptions
    refine ⟨fun hname branch hbranch => ?_, fun _ branch hbranch => nomatch hbranch⟩
    cases hbranch
    exact hthen.mpr (hoptions hname)

theorem fitsWithin_capabilityShape (h : 1 ≤ fuel) (descriptors : List Descriptor) :
    FitsWithin fuel (k + 3) c.scope (capabilityShape descriptors) j ↔
      ∃ members, j = .object members ∧ Members.has members "name" ∧
        (∀ m ∈ members, IsEntryMember descriptors m.1 m.2) ∧
        ∀ d ∈ descriptors, Members.get? members "name" = some (.string d.name) →
          ∀ options, Members.get? members "options" = some options →
            Fits fuel (c.scope.nested d.optionSchema) d.optionSchema options := by
  have hmore {siblings : Members} (members : Members) :
      (∀ m ∈ if descriptors.isEmpty then [] else [("allOf", .array (descriptors.map optionsOf))],
        Meets fuel (k + 2) c.scope siblings m (.object members)) ↔
        ∀ d ∈ descriptors, FitsWithin fuel (k + 2) c.scope (optionsOf d) (.object members) := by
    have hnested (d : Descriptor) : c.scope.nested (optionsOf d) = c.scope := nested_scope rfl rfl
    cases descriptors with
    | nil => simp
    | cons d ds =>
      rw [List.isEmpty_cons, if_neg Bool.false_ne_true, List.forall_mem_singleton, meets_allOf,
        List.forall_mem_map]
      simp only [hnested]
  have hnames : ["name", "options", "provenance"].Nodup := by decide
  rw [capabilityShape, fitsWithin_members (by cases descriptors <;> rfl)]
  refine (meets_recordWith _ (by cases descriptors <;> rfl) (by cases descriptors <;> rfl)
    (by cases descriptors <;> rfl) ?_).trans ?_
  · exact hnames
  simp only [Closed, isEntryMember_iff h, hmore, fitsWithin_optionsOf h, List.forall_mem_singleton]

theorem fits_entry (c : Catalog) (kind : Capability.Kind) :
    Fits (enough c.ruleSchema) c.scope (ref kind.name) j ↔ IsEntry c kind j := by
  have hlookup : c.scope.lookup s!"#/definitions/{kind.name}" =
      .ok (c.scope, capabilityShape (c.descriptors kind)) := by
    cases kind with
    | criteria => exact lookup_criteria
    | behavior => exact lookup_behavior
  have hfuel := four_le_enough c.ruleSchema
  rw [fits_iff_of_le hfuel, fitsWithin_ref hlookup,
    fitsWithin_capabilityShape (Nat.le_trans (by decide) hfuel)]
  constructor
  · rintro ⟨members, rfl, hname, hmembers, hoptions⟩
    exact .object hmembers hname hoptions
  · rintro ⟨hmembers, hname, hoptions⟩
    exact ⟨_, rfl, hname, hmembers, hoptions⟩

theorem fits_variable (h : 2 ≤ fuel) :
    Fits fuel c.scope (ref "variable") j ↔ IsVariable j := by
  rw [fits_iff_of_le h, fitsWithin_ref lookup_variable,
    fitsWithin_variableShape (Nat.le_trans (by decide) h)]

/-! ## Children -/

theorem matchesPattern_mention {text : String} :
    matchesPattern ("^" ++ includeMark ++ ".+") text ↔ IsMention text := by
  have hparse : Pattern.parse? ("^" ++ includeMark ++ ".+") = some (.seq .textStart
      (.literally (.seq (.repeated (.char .anyInLine) ⟨1, none⟩) .empty) includeMark.toList)) := rfl
  rw [matchesPattern, hparse]
  simp only
  rw [Pattern.occursIn_literally, Pattern.exists_mem_ends_inLine, List.getElem?_toArray]
  constructor
  · rintro ⟨⟨rest, hrest⟩, c, hc, hne⟩
    rw [← hrest, List.getElem?_append_right (Nat.le_refl _), Nat.sub_self] at hc
    cases rest with
    | nil => cases hc
    | cons d ds =>
      obtain rfl := Option.some.inj hc
      exact ⟨d, ds, hrest.symm, hne⟩
  · rintro ⟨c, cs, htext, hne⟩
    refine ⟨⟨c :: cs, htext.symm⟩, c, ?_, hne⟩
    rw [htext, List.getElem?_append_right (Nat.le_refl _), Nat.sub_self]
    rfl

/-! ## Rules -/

/-- The members of rules, with what each has to be. -/
def ruleMembers : Members :=
  [("ruleFormat", typed "string"), ("name", typed "string"), ("comment", typed "string"),
    ("provenance", typed "string"),
    ("matchPolicy", .object [("enum", .strings ["any", "all"])]),
    ("criteria", listed (ref "criteria")), ("behaviors", listed (ref "behavior")),
    ("variables", listed (ref "variable")), ("children", listed childSchema)]

theorem fitsWithin_ruleShape :
    FitsWithin fuel (k + 1) c.scope ruleShape j ↔ ∃ members, j = .object members ∧
      Closed fuel c.scope ruleMembers members := by
  rw [ruleShape, fitsWithin_members rfl]
  simp only [List.forall_mem_cons, List.not_mem_nil, false_imp_iff, implies_true, and_true]
  exact meets_record rfl rfl rfl (by decide)

/-- What is no string has to be a rule, and no rule is a string. -/
theorem fitsWithin_childSchema :
    FitsWithin fuel (k + 3) c.scope childSchema j ↔
      (∃ text, j = .string text ∧ IsMention text) ∨
        FitsWithin fuel (k + 1) c.scope ruleShape j := by
  have hstring {s : Scope} : FitsWithin fuel (k + 2) s (typed "string") j ↔
      ∃ text, j = .string text := (fitsWithin_typed .string).trans Kind.holds_string
  have hmention (text : String) : FitsWithin fuel (k + 2) c.scope
      (.object [("pattern", .string ("^" ++ includeMark ++ ".+"))]) (.string text) ↔
        IsMention text := by
    rw [fitsWithin_one rfl, meets_pattern, matchesPattern_mention]
  have hrule : FitsWithin fuel (k + 2) c.scope (ref "rule") j ↔
      FitsWithin fuel (k + 1) c.scope ruleShape j := fitsWithin_ref lookup_rule
  rw [childSchema, fitsWithin_members rfl]
  simp only [List.forall_mem_cons, List.not_mem_nil, false_imp_iff, implies_true, and_true,
    meets_then, meets_else]
  rw [meets_if rfl, hstring]
  constructor
  · rintro ⟨hthen, helse⟩
    by_cases h : ∃ text, j = .string text
    · obtain ⟨text, rfl⟩ := h
      exact .inl ⟨text, rfl, (hmention text).mp (hthen ⟨text, rfl⟩ _ rfl)⟩
    · exact .inr (hrule.mp (helse h _ rfl))
  · rintro (⟨text, rfl, h⟩ | h)
    · refine ⟨fun _ branch hbranch => ?_, fun hne => absurd ⟨text, rfl⟩ hne⟩
      cases hbranch
      exact (hmention text).mpr h
    · refine ⟨?_, fun _ branch hbranch => ?_⟩
      · rintro ⟨text, rfl⟩
        obtain ⟨members, hobject, -⟩ := fitsWithin_ruleShape.mp h
        cases hobject
      · cases hbranch
        exact hrule.mpr h

/-- Lists of what is `P`, where the schema of the items accepts just that. -/
theorem fits_listed (h : 1 ≤ fuel) {item : Members} (hdraft : Members.get? item "$schema" = none)
    (hid : Members.get? item "$id" = none) {P : Json → Prop}
    (hitem : ∀ items, j = .array items → ∀ i ∈ items, Fits fuel c.scope (.object item) i ↔ P i) :
    Fits fuel (c.scope.nested (listed (.object item))) (listed (.object item)) j ↔
      ∃ items, j = .array items ∧ ∀ i ∈ items, P i := by
  have hnested : c.scope.nested (listed (.object item)) = c.scope := nested_scope rfl rfl
  rw [hnested, fits_iff_of_le h, fitsWithin_listed rfl, nested_scope hdraft hid]
  exact exists_congr fun items => and_congr_right fun hitems =>
    forall_congr' fun i => imp_congr_right (hitem items hitems i)

theorem fits_child (hrule : ∀ k, FitsWithin (enough c.ruleSchema) (k + 1) c.scope ruleShape j ↔
    IsRule c j) : Fits (enough c.ruleSchema) c.scope childSchema j ↔ IsChild c j := by
  rw [fits_iff_of_le (four_le_enough c.ruleSchema), fitsWithin_childSchema, hrule]
  constructor
  · rintro (⟨text, rfl, h⟩ | h)
    · exact .mention h
    · exact .rule h
  · rintro (h | h)
    · exact .inl ⟨_, rfl, h⟩
    · exact .inr h

/-- The members of a rule, if it is known which of its children are rules. -/
theorem isRuleMember_iff {name : String}
    (hrules : ∀ items, j = .array items → ∀ i ∈ items, ∀ k,
      FitsWithin (enough c.ruleSchema) (k + 1) c.scope ruleShape i ↔ IsRule c i) :
    (∃ schema, (name, schema) ∈ ruleMembers ∧
      Fits (enough c.ruleSchema) (c.scope.nested schema) schema j) ↔ IsRuleMember c name j := by
  have h : 4 ≤ enough c.ruleSchema := four_le_enough c.ruleSchema
  have htext {s : Scope} : Fits (enough c.ruleSchema) s (typed "string") j ↔
      ∃ text, j = .string text := fits_text (by omega)
  have hpolicy {s : Scope} : Fits (enough c.ruleSchema) s
      (.object [("enum", .strings ["any", "all"])]) j ↔ ∃ text ∈ ["any", "all"], j = .string text :=
    (fits_iff_of_le (by omega : 1 ≤ _)).trans (fitsWithin_enum _)
  have hentries (kind : Capability.Kind) :
      Fits (enough c.ruleSchema) (c.scope.nested (listed (ref kind.name)))
          (listed (ref kind.name)) j ↔
        ∃ items, j = .array items ∧ ∀ i ∈ items, IsEntry c kind i :=
    fits_listed (by omega) rfl rfl fun _ _ _ _ => fits_entry c kind
  have hvariables :
      Fits (enough c.ruleSchema) (c.scope.nested (listed (ref "variable")))
          (listed (ref "variable")) j ↔
        ∃ items, j = .array items ∧ ∀ i ∈ items, IsVariable i :=
    fits_listed (by omega) rfl rfl fun _ _ _ _ => fits_variable (by omega)
  have hchildren :
      Fits (enough c.ruleSchema) (c.scope.nested (listed childSchema)) (listed childSchema) j ↔
        ∃ items, j = .array items ∧ ∀ i ∈ items, IsChild c i :=
    fits_listed (by omega) rfl rfl fun items hitems i hi => fits_child (hrules items hitems i hi)
  simp only [ruleMembers, List.mem_cons, Prod.mk.injEq, List.not_mem_nil, or_false]
  constructor
  · rintro ⟨schema, hschema, hfits⟩
    rcases hschema with ⟨rfl, rfl⟩ | ⟨rfl, rfl⟩ | ⟨rfl, rfl⟩ | ⟨rfl, rfl⟩ | ⟨rfl, rfl⟩ |
      ⟨rfl, rfl⟩ | ⟨rfl, rfl⟩ | ⟨rfl, rfl⟩ | ⟨rfl, rfl⟩
    iterate 4
      · obtain ⟨text, rfl⟩ := htext.mp hfits
        exact .text (by simp)
    · obtain ⟨text, hmem, rfl⟩ := hpolicy.mp hfits
      exact .matchPolicy hmem
    · obtain ⟨items, rfl, hitems⟩ := (hentries .criteria).mp hfits
      exact .criteria hitems
    · obtain ⟨items, rfl, hitems⟩ := (hentries .behavior).mp hfits
      exact .behaviors hitems
    · obtain ⟨items, rfl, hitems⟩ := hvariables.mp hfits
      exact .declarations hitems
    · obtain ⟨items, rfl, hitems⟩ := hchildren.mp hfits
      exact .children hitems
  · intro hmember
    cases hmember with
    | @text _ text hname =>
      refine ⟨typed "string", ?_, htext.mpr ⟨text, rfl⟩⟩
      simp only [List.mem_cons, List.not_mem_nil, or_false] at hname
      rcases hname with rfl | rfl | rfl | rfl <;> simp
    | matchPolicy hmem => exact ⟨_, by simp, hpolicy.mpr ⟨_, hmem, rfl⟩⟩
    | criteria hitems =>
      exact ⟨listed (ref "criteria"), by simp, (hentries .criteria).mpr ⟨_, rfl, hitems⟩⟩
    | behaviors hitems =>
      exact ⟨listed (ref "behavior"), by simp, (hentries .behavior).mpr ⟨_, rfl, hitems⟩⟩
    | declarations hitems => exact ⟨_, by simp, hvariables.mpr ⟨_, rfl, hitems⟩⟩
    | children hitems => exact ⟨_, by simp, hchildren.mpr ⟨_, rfl, hitems⟩⟩

theorem fitsWithin_ruleShape_iff (c : Catalog) (k : Nat) (j : Json) :
    FitsWithin (enough c.ruleSchema) (k + 1) c.scope ruleShape j ↔ IsRule c j := by
  -- On the depth: the children of a rule are less deep than the rule.
  induction hdepth : j.depth using Nat.strongRecOn generalizing j k with
  | ind depth ih =>
    have hrules (members : Members) (hj : j = .object members) (m : String × Json)
        (hm : m ∈ members) (items : List Json) (hitems : m.2 = .array items) (i : Json)
        (hi : i ∈ items) (k : Nat) :
        FitsWithin (enough c.ruleSchema) (k + 1) c.scope ruleShape i ↔ IsRule c i := by
      have hmember : m.2.depth < j.depth := hj ▸ Json.depth_lt_of_member hm
      have hitem : i.depth < m.2.depth := hitems ▸ Json.depth_lt_of_item hi
      exact ih i.depth (by omega) k i rfl
    rw [fitsWithin_ruleShape]
    constructor
    · rintro ⟨members, rfl, hclosed⟩
      exact .object fun m hm => (isRuleMember_iff (hrules members rfl m hm)).mp (hclosed m hm)
    · rintro ⟨hmembers⟩
      exact ⟨_, rfl, fun m hm => (isRuleMember_iff (hrules _ rfl m hm)).mpr (hmembers m hm)⟩

/-- Beside the reference nothing else in the whole counts. -/
theorem conditions_whole (c : Catalog) (definitions : Members) :
    conditions c.scope.draft
        (("$schema", .string "http://json-schema.org/draft-07/schema#") ::
          ("title", .string "Rule fragment") :: ("definitions", .object definitions) ::
          [("$ref", .string "#/definitions/rule")]) =
      [("$ref", .string "#/definitions/rule")] := rfl

theorem fits_ruleSchema (c : Catalog) (j : Json) :
    Fits (enough c.ruleSchema) c.scope c.ruleSchema j ↔ IsRule c j := by
  have hwhole (k : Nat) : FitsWithin (enough c.ruleSchema) (k + 1) c.scope c.ruleSchema j ↔
      FitsWithin (enough c.ruleSchema) k c.scope ruleShape j := by
    refine fitsWithin_object.trans ?_
    rw [conditions_whole, List.forall_mem_singleton, meets_ref lookup_rule]
  rw [fits_iff_of_le (four_le_enough c.ruleSchema), hwhole, fitsWithin_ruleShape_iff]

theorem violation?_ruleSchema {c : Catalog} {j : Json} :
    (⟨c.ruleSchema, .d7⟩ : Schema).violation? j = none ↔ Grammar.IsRule c j := by
  rw [← fits_ruleSchema, Schema.Fits, Option.isNone_iff_eq_none]
  rfl

end Catalog

/-! ## The schema that is registered -/

theorem Schema.eq_of_ofJson {j : Json} {d : Draft} {s : Schema}
    (hd : Draft.named j = .ok (some d)) (h : ofJson j = .ok s) : s = ⟨j, d⟩ := by
  unfold ofJson at h
  rw [hd] at h
  simp only [pure, bind, Except.pure, Except.bind, Option.getD_some] at h
  split at h
  · cases h
  · split at h
    · cases h
    · cases h
      rfl

namespace Registry

variable {c : Catalog} {version : String} {r : Registry}

theorem find?_insert (r : Registry) (version : String) (schema : Schema) :
    (r.insert version schema).find? version = some schema := by
  simp [insert, find?]

theorem find?_builtIn (h : builtIn c version = .ok r) :
    r.find? version = some ⟨c.ruleSchema, .d7⟩ := by
  unfold builtIn register at h
  cases hschema : Schema.ofJson c.ruleSchema with
  | error fault =>
    rw [hschema] at h
    cases h
  | ok schema =>
    rw [hschema] at h
    cases h
    rw [find?_insert, Schema.eq_of_ofJson rfl hschema]

theorem eq_of_find?_builtIn {schema : Schema} (h : builtIn c version = .ok r)
    (hschema : r.find? version = some schema) : schema = ⟨c.ruleSchema, .d7⟩ :=
  Option.some.inj (hschema.symm.trans (find?_builtIn h))

/-- A registered schema of fragments accepts the rules of its catalog, and nothing else. -/
theorem builtIn_violation?_eq_none (h : builtIn c version = .ok r) :
    ∃ schema, r.find? version = some schema ∧
      ∀ document, schema.violation? document = none ↔ Grammar.IsRule c document := by
  refine ⟨_, find?_builtIn h, fun document => ?_⟩
  rw [← Catalog.fits_ruleSchema, Schema.Fits, Option.isNone_iff_eq_none]
  rfl

set_option maxRecDepth 20000 in
theorem builtIn_violation?_eq_none_sample :
    ∃ c r, Catalog.sample = .ok c ∧ builtIn c defaultRuleFormat = .ok r ∧
      ∃ schema, r.find? defaultRuleFormat = some schema ∧
        ∀ document, schema.violation? document = none ↔ Grammar.IsRule c document := by
  have hok : (Catalog.sample.toOption.bind fun c =>
      (builtIn c defaultRuleFormat).toOption).isSome = true := by decide +kernel
  cases hc : Catalog.sample with
  | error _ =>
    rw [hc] at hok
    cases hok
  | ok c =>
    rw [hc] at hok
    cases hr : builtIn c defaultRuleFormat with
    | error _ =>
      rw [Except.toOption, Option.bind_some, hr] at hok
      cases hok
    | ok r => exact ⟨c, r, rfl, hr, builtIn_violation?_eq_none hr⟩

end Registry

end DeliveryRules
