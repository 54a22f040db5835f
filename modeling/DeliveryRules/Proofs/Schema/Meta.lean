import DeliveryRules.Proofs.Schema.Keywords

/-!
# Schemas of the seventh draft

- **Schemas** (`IsSchema`): the values that the schema of schemas of the seventh draft accepts.
- **Objects** (`isSchema_object`): member by member, each has to be what the draft says of its name.
- `takes_schema`, `takes_schemas`, `takes_record` and `takes_list` say so for members that are made
  of further schemas or of any values.
-/

namespace DeliveryRules.Schema

instance {fuel : Nat} {s : Scope} {schema value : Json} : Decidable (Fits fuel s schema value) :=
  inferInstanceAs (Decidable ((check fuel s schema value []).isNone = true))

/-- What stands around the parts of the schema of schemas. -/
def metaScope : Scope := .top Draft.d7.meta .d7

/-- What the seventh draft says of a member of a schema is the case. -/
abbrev Takes (shape value : Json) : Prop := Fits (enough Draft.d7.meta) metaScope shape value

/-- A schema of the seventh draft. -/
abbrev IsSchema (j : Json) : Prop := Takes Draft.d7.meta j

/-! ## Objects -/

/-- No name is there twice, and the shape of a member is in the scope of the whole. -/
theorem meta_members : (Meta.d7.map (·.1)).Nodup ∧
    ∀ p ∈ Meta.d7, Draft.d7.nested p.2 = .d7 ∧ Scope.ownName? .d7 p.2 = none := by
  decide +kernel

theorem nested_meta : ∀ p ∈ Meta.d7, metaScope.nested p.2 = metaScope := by
  intro p hp
  obtain ⟨hdraft, hname⟩ := meta_members.2 p hp
  have hdraft' : metaScope.draft.nested p.2 = .d7 := hdraft
  rw [Scope.nested, hdraft', hname]
  rfl

theorem fitsWithin_meta {k : Nat} {j : Json} :
    FitsWithin (enough Draft.d7.meta) (k + 1) metaScope Draft.d7.meta j ↔
      Meets (enough Draft.d7.meta) k metaScope
          [("type", .strings ["object", "boolean"]), ("properties", .object Meta.d7)]
          ("type", .strings ["object", "boolean"]) j ∧
        Meets (enough Draft.d7.meta) k metaScope
          [("type", .strings ["object", "boolean"]), ("properties", .object Meta.d7)]
          ("properties", .object Meta.d7) j := fitsWithin_two rfl

/-- An object is a schema if each of its members is what the draft says of its name. -/
theorem isSchema_object {members : Members}
    (h : ∀ m ∈ members, ∃ shape, Members.get? Meta.d7 m.1 = some shape ∧ Takes shape m.2) :
    IsSchema (.object members) := by
  refine (fits_iff_of_le (four_le_enough _)).mpr (fitsWithin_meta.mpr ⟨?_, ?_⟩)
  · rw [meets_any (by decide)]
    rfl
  · refine (meets_properties rfl Meta.d7 members).mpr fun p hp j hj => ?_
    obtain ⟨shape, hshape, htakes⟩ := h (p.1, j) (Members.mem_of_get? hj)
    have hmeta : Members.get? Meta.d7 p.1 = some p.2 :=
      (Members.get?_eq_some_iff meta_members.1).mpr hp
    obtain rfl := Option.some.inj (hshape.symm.trans hmeta)
    rw [nested_meta p hp]
    exact htakes

theorem isSchema_bool (b : Bool) : IsSchema (.bool b) := by
  refine (fits_iff_of_le (four_le_enough _)).mpr (fitsWithin_meta.mpr ⟨?_, ?_⟩)
  · rw [meets_any (by decide)]
    rfl
  · rw [meets_kind (by decide)]
    rfl

/-! ## Members -/

/-- What `type` and `properties` ask for is found without another look at the value as a whole. -/
theorem meets_within {k k' : Nat} {fuel : Nat} {s : Scope} {siblings : Members} {keyword : String}
    {operand j : Json} (hkeyword : keyword ∈ ["type", "properties"]) :
    Meets fuel k s siblings (keyword, operand) j ↔
      Meets fuel k' s siblings (keyword, operand) j := by
  simp only [List.mem_cons, List.not_mem_nil, or_false] at hkeyword
  rcases hkeyword with rfl | rfl
  · rw [meets_any (by decide), meets_any (by decide)]
    rfl
  · rw [meets_kind (by decide), meets_kind (by decide)]
    cases j with
    | object members => cases operand <;> rfl
    | _ => rfl

/-- A reference of the schema of schemas to itself. -/
theorem takes_schema {j : Json} (h : IsSchema j) : Takes Meta.schema j := by
  have hlookup : metaScope.lookup "#" = .ok (metaScope, Draft.d7.meta) := rfl
  have hconditions : conditions metaScope.draft [("$ref", .string "#")] =
      [("$ref", .string "#")] := rfl
  rw [IsSchema, Takes, fits_iff_of_le (four_le_enough _), fitsWithin_meta] at h
  refine (fits_iff_of_le (four_le_enough _)).mpr ?_
  rw [Meta.schema, fitsWithin_object, hconditions, List.forall_mem_singleton, meets_ref hlookup,
    fitsWithin_meta]
  exact ⟨(meets_within (by decide)).mp h.1, (meets_within (by decide)).mp h.2⟩

theorem takes_text (text : String) : Takes Meta.text (.string text) := by
  refine (fits_iff_of_le (four_le_enough _)).mpr ?_
  rw [Meta.text, Meta.kind, fitsWithin_one rfl]
  exact (meets_type .string).mpr rfl

theorem takes_anything {j : Json} : Takes Meta.anything j :=
  (fits_iff_of_le (four_le_enough _)).mpr rfl

/-- Beside no schemas for single names, the schema for further members is for all of them. -/
theorem meets_additional {fuel k : Nat} {s : Scope} {siblings schema object : Members}
    (hproperties : Members.get? siblings "properties" = none)
    (hpatterns : Members.get? siblings "patternProperties" = none)
    (h : ∀ m ∈ object, Fits fuel (s.nested (.object schema)) (.object schema) m.2) :
    Meets fuel k s siblings ("additionalProperties", .object schema) (.object object) := by
  have hnone (name : String) : memberSchemas siblings name = [] := by
    rw [memberSchemas, hproperties, hpatterns]
    rfl
  have hcondition : kindCondition (same fuel k s) (part fuel s) s.draft siblings
      "additionalProperties" (.object schema) (.object object) [] =
        checkMembers (part fuel s) siblings (.object schema) object [] := rfl
  rw [meets_kind (by decide), hcondition]
  unfold checkMembers
  simp only [hnone]
  rw [Option.isNone_or, isNone_findSome?, Bool.and_eq_true, List.all_eq_true]
  exact ⟨fun m hm => (isNone_check_iff _).mpr (h m hm), rfl⟩

/-- Every member of the object is a schema. -/
theorem takes_record {members : Members} (h : ∀ m ∈ members, IsSchema m.2) :
    Takes (Meta.membersOf Meta.schema) (.object members) := by
  refine (fits_iff_of_le (four_le_enough _)).mpr ?_
  rw [Meta.membersOf, fitsWithin_two rfl]
  refine ⟨(meets_type .object).mpr rfl, meets_additional rfl rfl fun m hm => ?_⟩
  rw [nested_eq_self rfl rfl]
  exact takes_schema (h m hm)

/-- A list of any values. -/
theorem takes_list (items : List Json) :
    Takes (Meta.listOf Meta.anything) (.array items) := by
  have hitems (k : Nat) : Meets (enough Draft.d7.meta) k metaScope
      [("type", .string "array"), ("items", Meta.anything)] ("items", Meta.anything)
      (.array items) := by
    have hcondition : kindCondition (same (enough Draft.d7.meta) k metaScope)
        (part (enough Draft.d7.meta) metaScope) metaScope.draft
        [("type", .string "array"), ("items", Meta.anything)] "items" Meta.anything
        (.array items) [] =
          checkItems (part (enough Draft.d7.meta) metaScope Meta.anything) items 0 [] := rfl
    rw [meets_kind (by decide), hcondition, checkItems, isNone_findSome?, List.all_eq_true]
    exact fun _ _ => (isNone_check_iff _).mpr takes_anything
  refine (fits_iff_of_le (four_le_enough _)).mpr ?_
  rw [Meta.listOf, fitsWithin_two rfl]
  exact ⟨(meets_type .array).mpr rfl, hitems _⟩

/-- A list of schemas. -/
theorem takes_schemas {items : List Json} (hne : items ≠ []) (h : ∀ j ∈ items, IsSchema j) :
    Takes Meta.schemas (.array items) := by
  refine (fits_iff_of_le (four_le_enough _)).mpr ?_
  rw [Meta.schemas, fitsWithin_members rfl, List.forall_mem_cons, List.forall_mem_cons,
    List.forall_mem_singleton]
  refine ⟨(meets_type .array).mpr rfl, (meets_minItems_one items).mpr hne, ?_⟩
  · rw [Meta.schema, meets_items rfl]
    intro j hj
    rw [nested_eq_self rfl rfl]
    exact takes_schema (h j hj)

end DeliveryRules.Schema
