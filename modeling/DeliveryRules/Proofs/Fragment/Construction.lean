import DeliveryRules.Proofs.Fragment.Acceptance
import DeliveryRules.Proofs.Schema.Meta
import DeliveryRules.Proofs.Schema.Timeless

/-!
# The schema of fragments is a schema

The schema that is made from a catalog has the option schemas of all capabilities in it. Where these
are schemas of its draft, with sound parts, it is one too, and can be registered.

- **Shape** (`Catalog.isSchema_ruleSchema`): its members are what the seventh draft says of them.
- **Soundness** (`Catalog.isSound_ruleSchema`): its references lead somewhere and its patterns can
  be read, by induction on how far references are followed.
- `Registry.builtIn_eq_ok`: what it takes to register it.
-/

namespace DeliveryRules

/-! ## Sound schemas -/

namespace Schema

/-- Going through the parts of a schema finds no fault, whatever references were met before. -/
def IsSound (n : Nat) (s : Scope) (schema : Json) : Prop :=
  ∀ met, ∃ x, sound n s schema met = .ok x

/-- What is asked of a part of a schema of scope `s`. -/
def Part.IsSound (n : Nat) (s : Scope) : Part → Prop
  | .schema j => Schema.IsSound n (s.nested j) j
  | .pattern text _ => (Pattern.parse? text).isSome
  | .reference text => ∃ t target, s.lookup text = .ok (t, target) ∧ Schema.IsSound n t target

variable {n : Nat} {s : Scope}

theorem isSound_object {members : Members}
    (h : ∀ k < n, ∀ m ∈ conditions s.draft members, ∀ part ∈ partsOf s.draft members m.1 m.2,
      part.IsSound k s) : IsSound n s (.object members) := by
  intro met
  cases n with
  | zero => exact ⟨met, rfl⟩
  | succ k =>
    rw [sound]
    refine foldlM_isOk (fun part hpart met => ?_) met
    obtain ⟨m, hm, hpart⟩ := List.mem_flatMap.mp hpart
    have hsound := h k k.lt_succ_self m hm part hpart
    cases part with
    | schema j => exact hsound met
    | pattern text blamed => exact ⟨met, if_pos hsound⟩
    | reference text =>
      obtain ⟨t, target, hlookup, htarget⟩ := hsound
      simp only
      split
      · exact ⟨met, rfl⟩
      · rw [hlookup]
        exact htarget _

/-- Without a reference all members count. -/
theorem isSound_members {members : Members} (href : Members.has members "$ref" = false)
    (h : ∀ k < n, ∀ m ∈ members, ∀ part ∈ partsOf s.draft members m.1 m.2, part.IsSound k s) :
    IsSound n s (.object members) := by
  refine isSound_object fun k hk => ?_
  rw [conditions_eq_self href]
  exact h k hk

/-- A schema none of whose members brings along further parts. -/
theorem isSound_plain {members : Members}
    (h : ∀ m ∈ members, partsOf s.draft members m.1 m.2 = []) : IsSound n s (.object members) := by
  refine isSound_object fun k _ m hm part hpart => ?_
  rw [h m (mem_of_mem_conditions hm)] at hpart
  cases hpart

/-- What it takes for a value to be a schema. -/
theorem ofJson_eq_ok {j : Json} {schema : Schema} :
    ofJson j = .ok schema ↔ ∃ named, Draft.named j = .ok named ∧
      let d := named.getD .latest
      Fits (enough d.meta) (Scope.top d.meta d) d.meta j ∧
        (∃ met, sound ((j.size + 1) * (j.size + 1)) (Scope.top j d) j [] = .ok met) ∧
        schema = ⟨j, d⟩ := by
  unfold ofJson
  cases Draft.named j with
  | error uri => simp [bind, Except.bind, throw, throwThe, MonadExceptOf.throw]
  | ok named =>
    simp only [bind, Except.bind, pure, Except.pure, Except.ok.injEq, exists_eq_left']
    generalize named.getD .latest = d
    rw [Fits]
    cases check (enough d.meta) (Scope.top d.meta d) d.meta j [] with
    | some violation => simp [throw, throwThe, MonadExceptOf.throw]
    | none =>
      cases sound ((j.size + 1) * (j.size + 1)) (Scope.top j d) j [] with
      | error fault => simp
      | ok met => simp [eq_comm]

end Schema

namespace Catalog

open Schema

variable {c : Catalog}

/-! ## Shape -/

theorem isSchema_one {name : String} {shape value : Json}
    (hshape : Members.get? Meta.d7 name = some shape) (h : Takes shape value) :
    IsSchema (.object [(name, value)]) :=
  isSchema_object (List.forall_mem_singleton.mpr ⟨shape, hshape, h⟩)

/-- What is the same in the schemas of all catalogs. -/
theorem takes_fixed : (∀ kind ∈ Kind.all, Takes Meta.kinds (.string kind.name)) ∧
    Takes Meta.texts (.strings ["name"]) ∧ IsSchema ruleShape ∧ IsSchema variableShape := by
  decide +kernel

theorem takes_kind (kind : Kind) : Takes Meta.kinds (.string kind.name) :=
  takes_fixed.1 kind (by cases kind <;> decide)

theorem isSchema_typed (kind : Kind) : IsSchema (typed kind.name) :=
  isSchema_one rfl (takes_kind kind)

theorem isSchema_enum (names : List String) : IsSchema (.object [("enum", .strings names)]) :=
  isSchema_one rfl (takes_list _)

theorem isSchema_optionsOf {d : Descriptor} (h : IsSchema d.optionSchema) :
    IsSchema (optionsOf d) := by
  have hname : IsSchema (.object [("const", .string d.name)]) := isSchema_one rfl takes_anything
  have hif : IsSchema (.object
      [("properties", .object [("name", .object [("const", .string d.name)])]),
        ("required", .strings ["name"])]) := by
    refine isSchema_object ?_
    simp only [List.forall_mem_cons]
    exact ⟨⟨_, rfl, takes_record (List.forall_mem_singleton.mpr hname)⟩,
      ⟨_, rfl, takes_fixed.2.1⟩, List.forall_mem_nil _⟩
  have hthen : IsSchema (.object [("properties", .object [("options", d.optionSchema)])]) :=
    isSchema_one rfl (takes_record (List.forall_mem_singleton.mpr h))
  refine isSchema_object ?_
  simp only [List.forall_mem_cons]
  exact ⟨⟨_, rfl, takes_schema hif⟩, ⟨_, rfl, takes_schema hthen⟩, List.forall_mem_nil _⟩

theorem isSchema_capabilityShape {descriptors : List Descriptor}
    (h : ∀ d ∈ descriptors, IsSchema d.optionSchema) : IsSchema (capabilityShape descriptors) := by
  have hname : IsSchema (if descriptors.isEmpty then typed "string"
      else .object [("enum", .strings (descriptors.map (·.name)))]) := by
    split
    · exact isSchema_typed .string
    · exact isSchema_enum _
  have hmembers : ∀ m ∈ [("name", if descriptors.isEmpty then typed "string"
      else .object [("enum", .strings (descriptors.map (·.name)))]), ("options", typed "object"),
      ("provenance", typed "string")], IsSchema m.2 := by
    simp only [List.forall_mem_cons]
    exact ⟨hname, isSchema_typed .object, isSchema_typed .string, List.forall_mem_nil _⟩
  refine isSchema_object (List.forall_mem_append.mpr ⟨?_, ?_⟩)
  · simp only [List.forall_mem_cons]
    exact ⟨⟨_, rfl, takes_kind .object⟩, ⟨_, rfl, takes_fixed.2.1⟩,
      ⟨_, rfl, takes_record hmembers⟩, ⟨_, rfl, takes_schema (isSchema_bool false)⟩,
      List.forall_mem_nil _⟩
  · cases descriptors with
    | nil => exact nofun
    | cons d ds =>
      refine List.forall_mem_singleton.mpr ⟨_, rfl, takes_schemas nofun fun j hj => ?_⟩
      obtain ⟨e, he, rfl⟩ := List.mem_map.mp hj
      exact isSchema_optionsOf (h e he)

/-- The schema of fragments is a schema of the seventh draft if the option schemas are. -/
theorem isSchema_ruleSchema (h : ∀ kind, ∀ d ∈ c.descriptors kind, IsSchema d.optionSchema) :
    IsSchema c.ruleSchema := by
  have hdefinitions : ∀ m ∈ [("rule", ruleShape), ("variable", variableShape),
      ("criteria", capabilityShape c.criteria), ("behavior", capabilityShape c.behaviors)],
      IsSchema m.2 := by
    simp only [List.forall_mem_cons]
    exact ⟨takes_fixed.2.2.1, takes_fixed.2.2.2, isSchema_capabilityShape (h .criteria),
      isSchema_capabilityShape (h .behavior), List.forall_mem_nil _⟩
  refine isSchema_object ?_
  simp only [List.forall_mem_cons]
  exact ⟨⟨_, rfl, takes_text _⟩, ⟨_, rfl, takes_text _⟩, ⟨_, rfl, takes_record hdefinitions⟩,
    ⟨_, rfl, takes_text _⟩, List.forall_mem_nil _⟩

/-! ## Soundness -/

variable {n : Nat} {s : Scope}

theorem isSound_typed (name : String) : IsSound n s (typed name) :=
  isSound_plain (List.forall_mem_singleton.mpr rfl)

theorem isSound_enum (names : List String) : IsSound n s (.object [("enum", .strings names)]) :=
  isSound_plain (List.forall_mem_singleton.mpr rfl)

theorem isSound_bool (b : Bool) : IsSound n s (.bool b) := by
  cases n <;> exact fun met => ⟨met, rfl⟩

/-- Beside a ban on further members the schemas of the others are looked at. -/
theorem isSound_closed {d : Draft} {siblings schemas : Members}
    (hschemas : Members.get? siblings "properties" = some (.object schemas))
    (hpatterns : Members.get? siblings "patternProperties" = none)
    (h : ∀ p ∈ schemas, IsSound n (s.nested p.2) p.2) :
    ∀ part ∈ partsOf d siblings "additionalProperties" (.bool false), part.IsSound n s := by
  have hparts : partsOf d siblings "additionalProperties" (.bool false) =
      siblingParts siblings "patternProperties" patternsIn ++
        siblingParts siblings "properties" schemasIn ++ [.schema (.bool false)] := rfl
  rw [hparts, siblingParts, siblingParts, hschemas, hpatterns]
  refine List.forall_mem_append.mpr ⟨fun part hpart => ?_,
    List.forall_mem_singleton.mpr (isSound_bool false)⟩
  obtain ⟨p, hp, rfl⟩ := List.mem_map.mp hpart
  exact h p hp

theorem isSound_listed {item : Members}
    (h : ∀ k < n, IsSound k (s.nested (.object item)) (.object item)) :
    IsSound n s (listed (.object item)) := by
  refine isSound_members rfl fun k hk => ?_
  simp only [List.forall_mem_cons]
  exact ⟨List.forall_mem_nil _, List.forall_mem_singleton.mpr (h k hk), List.forall_mem_nil _⟩

theorem isSound_ref {name : String} {shape : Json}
    (hlookup : c.scope.lookup s!"#/definitions/{name}" = .ok (c.scope, shape))
    (h : ∀ k < n, IsSound k c.scope shape) : IsSound n c.scope (ref name) :=
  isSound_object fun k hk => List.forall_mem_singleton.mpr
    (List.forall_mem_singleton.mpr ⟨_, _, hlookup, h k hk⟩)

theorem isSound_variableShape : IsSound n c.scope variableShape := by
  have hname (k : Nat) : IsSound k c.scope
      (.object [("type", .string "string"), ("minLength", .int 1)]) :=
    isSound_plain (List.forall_mem_cons.mpr ⟨rfl, List.forall_mem_singleton.mpr rfl⟩)
  refine isSound_members rfl fun k _ => ?_
  simp only [List.forall_mem_cons]
  refine ⟨List.forall_mem_nil _, List.forall_mem_nil _, List.forall_mem_nil _,
    isSound_closed rfl rfl ?_, List.forall_mem_nil _⟩
  simp only [List.forall_mem_cons]
  exact ⟨hname k, isSound_typed _, isSound_typed _, isSound_typed _, isSound_typed _,
    isSound_typed _, List.forall_mem_nil _⟩

/-- A condition on the name of a capability, and its option schema. -/
theorem isSound_optionsOf {d : Descriptor}
    (h : ∀ n, IsSound n (c.scope.nested d.optionSchema) d.optionSchema) :
    IsSound n c.scope (optionsOf d) := by
  have hname (k : Nat) : IsSound k c.scope (.object [("const", .string d.name)]) :=
    isSound_plain (List.forall_mem_singleton.mpr rfl)
  have hif (k : Nat) : IsSound k c.scope (.object
      [("properties", .object [("name", .object [("const", .string d.name)])]),
        ("required", .strings ["name"])]) := by
    refine isSound_members rfl fun k' _ => ?_
    simp only [List.forall_mem_cons]
    exact ⟨List.forall_mem_singleton.mpr (hname k'), List.forall_mem_nil _, List.forall_mem_nil _⟩
  have hthen (k : Nat) : IsSound k c.scope
      (.object [("properties", .object [("options", d.optionSchema)])]) :=
    isSound_members rfl fun k' _ =>
      List.forall_mem_singleton.mpr (List.forall_mem_singleton.mpr (h k'))
  refine isSound_members rfl fun k _ => ?_
  simp only [List.forall_mem_cons]
  exact ⟨List.forall_mem_cons.mpr ⟨hif k, List.forall_mem_singleton.mpr (hthen k)⟩,
    List.forall_mem_nil _, List.forall_mem_nil _⟩

theorem isSound_capabilityShape {descriptors : List Descriptor}
    (h : ∀ d ∈ descriptors, ∀ n, IsSound n (c.scope.nested d.optionSchema) d.optionSchema) :
    IsSound n c.scope (capabilityShape descriptors) := by
  have hrecord {k : Nat} {siblings : Members} {name : Json}
      (hname : IsSound k (c.scope.nested name) name)
      (hschemas : Members.get? siblings "properties" = some (.object
        [("name", name), ("options", typed "object"), ("provenance", typed "string")]))
      (hpatterns : Members.get? siblings "patternProperties" = none) :
      ∀ part ∈ partsOf c.scope.draft siblings "additionalProperties" (.bool false),
        part.IsSound k c.scope := by
    refine isSound_closed hschemas hpatterns ?_
    simp only [List.forall_mem_cons]
    exact ⟨hname, isSound_typed _, isSound_typed _, List.forall_mem_nil _⟩
  cases descriptors with
  | nil =>
    refine isSound_members rfl fun k _ => ?_
    exact List.forall_mem_cons.mpr ⟨List.forall_mem_nil _, List.forall_mem_cons.mpr
      ⟨List.forall_mem_nil _, List.forall_mem_cons.mpr ⟨List.forall_mem_nil _,
        List.forall_mem_singleton.mpr (hrecord (isSound_typed _) rfl rfl)⟩⟩⟩
  | cons d ds =>
    have hoptions (k : Nat) : ∀ part ∈ ((d :: ds).map optionsOf).map Part.schema,
        part.IsSound k c.scope := by
      intro part hpart
      obtain ⟨j, hj, rfl⟩ := List.mem_map.mp hpart
      obtain ⟨e, he, rfl⟩ := List.mem_map.mp hj
      exact isSound_optionsOf (h e he)
    refine isSound_members rfl fun k _ => ?_
    exact List.forall_mem_cons.mpr ⟨List.forall_mem_nil _, List.forall_mem_cons.mpr
      ⟨List.forall_mem_nil _, List.forall_mem_cons.mpr ⟨List.forall_mem_nil _,
        List.forall_mem_cons.mpr ⟨hrecord (isSound_enum _) rfl rfl,
          List.forall_mem_singleton.mpr (hoptions k)⟩⟩⟩⟩

/-- The pattern of mentions can be read, and the other children are rules. -/
theorem isSound_childSchema (h : ∀ k < n, IsSound k c.scope (ref "rule")) :
    IsSound n c.scope childSchema := by
  have hread : (Pattern.parse? ("^" ++ includeMark ++ ".+")).isSome := by decide +kernel
  have hpattern (k : Nat) : IsSound k c.scope
      (.object [("pattern", .string ("^" ++ includeMark ++ ".+"))]) :=
    isSound_members rfl fun _ _ =>
      List.forall_mem_singleton.mpr (List.forall_mem_singleton.mpr hread)
  refine isSound_members rfl fun k hk => ?_
  simp only [List.forall_mem_cons]
  refine ⟨?_, List.forall_mem_nil _, List.forall_mem_nil _, List.forall_mem_nil _⟩
  exact List.forall_mem_cons.mpr ⟨isSound_typed _, List.forall_mem_cons.mpr ⟨hpattern k,
    List.forall_mem_singleton.mpr (h k hk)⟩⟩

/-- A rule may have rules among its children: a reference leads from a rule to rules. -/
theorem isSound_ruleShape
    (h : ∀ kind, ∀ d ∈ c.descriptors kind, ∀ n,
      IsSound n (c.scope.nested d.optionSchema) d.optionSchema) :
    IsSound n c.scope ruleShape := by
  induction n using Nat.strongRecOn with
  | ind n ih =>
    have hlisted {k : Nat} {name : String} {shape : Json}
        (hlookup : c.scope.lookup s!"#/definitions/{name}" = .ok (c.scope, shape))
        (hshape : ∀ n, IsSound n c.scope shape) : IsSound k c.scope (listed (ref name)) :=
      isSound_listed fun _ _ => isSound_ref hlookup fun k _ => hshape k
    refine isSound_members rfl fun k hk => ?_
    simp only [List.forall_mem_cons]
    refine ⟨List.forall_mem_nil _, List.forall_mem_nil _, isSound_closed rfl rfl ?_,
      List.forall_mem_nil _⟩
    have hchildren : IsSound k c.scope (listed childSchema) :=
      isSound_listed fun _ hlist => isSound_childSchema fun _ hchild =>
        isSound_ref lookup_rule fun _ href =>
          ih _ (Nat.lt_trans href (Nat.lt_trans hchild (Nat.lt_trans hlist hk)))
    simp only [List.forall_mem_cons]
    exact ⟨isSound_typed _, isSound_typed _, isSound_typed _, isSound_typed _, isSound_enum _,
      hlisted lookup_criteria fun _ => isSound_capabilityShape (h .criteria),
      hlisted lookup_behavior fun _ => isSound_capabilityShape (h .behavior),
      hlisted lookup_variable fun _ => isSound_variableShape, hchildren, List.forall_mem_nil _⟩

theorem isSound_ruleSchema
    (h : ∀ kind, ∀ d ∈ c.descriptors kind, ∀ n,
      IsSound n (c.scope.nested d.optionSchema) d.optionSchema) :
    IsSound n c.scope c.ruleSchema := by
  refine isSound_object fun k _ => ?_
  rw [conditions_whole]
  exact List.forall_mem_singleton.mpr (List.forall_mem_singleton.mpr
    ⟨_, _, lookup_rule, isSound_ruleShape h⟩)

end Catalog

/-- A catalog has a schema of fragments if its option schemas are schemas of the seventh draft and
sound where they stand. -/
theorem Registry.builtIn_eq_ok {c : Catalog}
    (hshape : ∀ kind, ∀ d ∈ c.descriptors kind, Schema.IsSchema d.optionSchema)
    (hsound : ∀ kind, ∀ d ∈ c.descriptors kind, ∀ n,
      Schema.IsSound n (c.scope.nested d.optionSchema) d.optionSchema) (version : String) :
    ∃ r, Registry.builtIn c version = .ok r := by
  have hschema : Schema.ofJson c.ruleSchema = .ok ⟨c.ruleSchema, .d7⟩ :=
    Schema.ofJson_eq_ok.mpr ⟨some .d7, rfl, Catalog.isSchema_ruleSchema hshape,
      Catalog.isSound_ruleSchema hsound [], rfl⟩
  refine ⟨Registry.empty.insert version ⟨c.ruleSchema, .d7⟩, ?_⟩
  rw [builtIn, register, hschema]
  rfl

end DeliveryRules
