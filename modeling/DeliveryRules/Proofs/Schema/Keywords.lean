import DeliveryRules.Proofs.Schema.Verdict

/-!
# What the members of a schema ask for

- **Acceptance** (`Fits`): a schema accepts a value. `FitsWithin` is the same with a bound on how
  deep the checks of this value may still enclose one another.
- **Members** (`Meets`): what one member of a schema asks for. A schema that is an object accepts
  what meets all its members (`fitsWithin_object`).
- `meets_type`, `meets_required`, `meets_properties` and so on say for one keyword each what it
  takes to meet it, by the rules of the seventh draft.
-/

namespace DeliveryRules.Schema

/-! ## Acceptance -/

/-- A schema of the scope `s` accepts a value. -/
def Fits (fuel : Nat) (s : Scope) (schema value : Json) : Prop :=
  (check fuel s schema value []).isNone

/-- Acceptance where the checks of this value may enclose one another `k` times more. -/
def FitsWithin (fuel k : Nat) (s : Scope) (schema value : Json) : Prop :=
  (checkWithin (check fuel) k s schema value []).isNone

/-- What a member of a schema asks for is the case. -/
def Meets (fuel k : Nat) (s : Scope) (siblings : Members) (member : String × Json)
    (value : Json) : Prop :=
  (condition (checkWithin (check fuel) k) (check fuel) s siblings member.1 member.2 value []).isNone

variable {fuel k : Nat} {s : Scope} {siblings : Members} {operand value : Json}

theorem fits_iff {schema : Json} :
    Fits fuel s schema value ↔ FitsWithin fuel fuel s schema value := by
  rw [Fits, isNone_check fuel s schema value [] [], FitsWithin]

theorem fits_iff_of_le {schema : Json} {n : Nat} (h : n ≤ fuel) :
    Fits fuel s schema value ↔ FitsWithin fuel (fuel - n + n) s schema value := by
  rw [Nat.sub_add_cancel h, fits_iff]

theorem four_le_enough (j : Json) : 4 ≤ enough j := by
  have hmeta : Draft.latest.meta.size = 3 + (Json.object Meta.d202012).size + 1 := rfl
  rw [enough, hmeta]
  omega

theorem isNone_check_iff {schema : Json} (way : List String) :
    (check fuel s schema value way).isNone ↔ Fits fuel s schema value := by
  rw [Fits, isNone_check_way fuel s schema value way []]

theorem fitsWithin_object {members : Members} :
    FitsWithin fuel (k + 1) s (.object members) value ↔
      ∀ m ∈ conditions s.draft members, Meets fuel k s members m value := by
  rw [FitsWithin, checkWithin, isNone_findSome?, List.all_eq_true]
  rfl

theorem conditions_eq_self {d : Draft} {members : Members}
    (h : Members.has members "$ref" = false) : conditions d members = members := by
  rw [conditions, h, Bool.and_false]
  rfl

theorem fitsWithin_members {members : Members} (h : Members.has members "$ref" = false) :
    FitsWithin fuel (k + 1) s (.object members) value ↔
      ∀ m ∈ members, Meets fuel k s members m value := by
  rw [fitsWithin_object, conditions_eq_self h]

theorem fitsWithin_one {m : String × Json} (h : Members.has [m] "$ref" = false) :
    FitsWithin fuel (k + 1) s (.object [m]) value ↔ Meets fuel k s [m] m value := by
  rw [fitsWithin_members h, List.forall_mem_singleton]

theorem fitsWithin_two {m m' : String × Json} (h : Members.has [m, m'] "$ref" = false) :
    FitsWithin fuel (k + 1) s (.object [m, m']) value ↔
      Meets fuel k s [m, m'] m value ∧ Meets fuel k s [m, m'] m' value := by
  rw [fitsWithin_members h, List.forall_mem_cons, List.forall_mem_singleton]

/-- A schema without a name of its own or a draft is read in the scope that it stands in. -/
theorem nested_eq_self {members : Members} (hdraft : Members.get? members "$schema" = none)
    (hid : Members.get? members s.draft.idName = none) : s.nested (.object members) = s := by
  have hnamed : s.draft.nested (.object members) = s.draft := by
    simp [Draft.nested, Draft.named, Json.memberString?, Json.member?, Json.asObject?, hdraft]
  have hown : Scope.ownName? s.draft (.object members) = none := by
    simp [Scope.ownName?, Json.memberString?, Json.member?, Json.asObject?, hid]
  rw [Scope.nested, hnamed, hown]

/-! ## Members -/

/-- What checks the same value, for the members of a schema of scope `s`. -/
abbrev same (fuel k : Nat) (s : Scope) : Json → Json → List String → Option Violation :=
  fun schema => checkWithin (check fuel) k (s.nested schema) schema

/-- What checks the parts of a value, for the members of a schema of scope `s`. -/
abbrev part (fuel : Nat) (s : Scope) : Json → Json → List String → Option Violation :=
  fun schema => check fuel (s.nested schema) schema

theorem meets_iff {keyword : String} (h : keyword ≠ "$ref") :
    Meets fuel k s siblings (keyword, operand) value ↔
      (anyCondition (same fuel k s) s.draft siblings keyword operand value []).isNone ∧
      (kindCondition (same fuel k s) (part fuel s) s.draft siblings keyword operand value
        []).isNone := by
  rw [Meets, condition_eq h, Option.isNone_or, Bool.and_eq_true]

/-- Some keywords ask the same of values of all kinds. -/
theorem meets_any {keyword : String}
    (h : keyword ∈ ["type", "enum", "const", "allOf", "if", "then", "else"]) :
    Meets fuel k s siblings (keyword, operand) value ↔
      (anyCondition (same fuel k s) s.draft siblings keyword operand value []).isNone := by
  have hkind : kindCondition (same fuel k s) (part fuel s) s.draft siblings keyword operand value
      [] = none := by
    simp only [List.mem_cons, List.not_mem_nil, or_false] at h
    rcases h with rfl | rfl | rfl | rfl | rfl | rfl | rfl <;> cases value <;> rfl
  have hne : keyword ≠ "$ref" := by
    rintro rfl
    exact absurd h (by decide)
  rw [meets_iff hne, hkind]
  simp

/-- Others ask something of values of one kind only. -/
theorem meets_kind {keyword : String}
    (h : keyword ∈ ["required", "properties", "additionalProperties", "items", "minItems",
      "pattern", "minLength"]) :
    Meets fuel k s siblings (keyword, operand) value ↔
      (kindCondition (same fuel k s) (part fuel s) s.draft siblings keyword operand value
        []).isNone := by
  have hany : anyCondition (same fuel k s) s.draft siblings keyword operand value [] = none := by
    simp only [List.mem_cons, List.not_mem_nil, or_false] at h
    rcases h with rfl | rfl | rfl | rfl | rfl | rfl | rfl <;> rfl
  have hne : keyword ≠ "$ref" := by
    rintro rfl
    exact absurd h (by decide)
  rw [meets_iff hne, hany]
  simp

theorem meets_ref {reference : String} {t : Scope} {schema : Json}
    (h : s.lookup reference = .ok (t, schema)) :
    Meets fuel k s siblings ("$ref", .string reference) value ↔
      FitsWithin fuel k t schema value := by
  rw [Meets, condition]
  simp only [h]
  rfl

/-- A reference that says on which way its schema is found in the whole. -/
theorem Scope.lookup_pointer {reference : String} {cs : List Char} {tokens : List String}
    {schema : Json} (h : reference.toList = '#' :: '/' :: cs)
    (htokens : ((Text.cut '/' (Reference.decoded cs).toList).map Pointer.unescape).map
      String.ofList = tokens)
    (hschema : Reference.follow s.whole tokens = some schema) :
    s.lookup reference = .ok (Scope.top s.whole s.wholeDraft, schema) := by
  unfold Scope.lookup
  rw [h]
  simp only [htokens, hschema]

/-! ### Keywords for values of all kinds -/

theorem Kind.holds_string {d : Draft} :
    Kind.string.holds d value ↔ ∃ text, value = .string text := by
  cases value <;> simp [Kind.holds]

theorem Kind.holds_boolean {d : Draft} :
    Kind.boolean.holds d value ↔ ∃ b, value = .bool b := by
  cases value <;> simp [Kind.holds]

theorem Kind.holds_array {d : Draft} :
    Kind.array.holds d value ↔ ∃ items, value = .array items := by
  cases value <;> simp [Kind.holds]

theorem Kind.holds_object {d : Draft} :
    Kind.object.holds d value ↔ ∃ members, value = .object members := by
  cases value <;> simp [Kind.holds]

theorem same_string {text : String} : (Json.string text).same value ↔ value = .string text := by
  cases value <;> simp [Json.same, @eq_comm _ text]

theorem namedKinds_name (kind : Kind) : namedKinds (.string kind.name) = [kind] := by
  cases kind <;> rfl

theorem meets_type (kind : Kind) :
    Meets fuel k s siblings ("type", .string kind.name) value ↔ kind.holds s.draft value := by
  rw [meets_any (by decide)]
  change
    (ensure [] ((namedKinds (.string kind.name)).any (Kind.holds s.draft · value)) _).isNone ↔ _
  rw [isNone_ensure, namedKinds_name]
  simp

theorem meets_enum (options : List Json) :
    Meets fuel k s siblings ("enum", .array options) value ↔
      ∃ option ∈ options, option.same value := by
  rw [meets_any (by decide)]
  change (ensure [] (options.any (Json.same · value)) _).isNone ↔ _
  rw [isNone_ensure, List.any_eq_true]

theorem meets_const (hd : s.draft = .d7) (name : String) :
    Meets fuel k s siblings ("const", .string name) value ↔ (Json.string name).same value := by
  rw [meets_any (by decide)]
  change (ensure [] (!s.draft.since .d6 || isConst (.string name) value) _).isNone ↔ _
  rw [isNone_ensure, hd]
  rfl

theorem meets_allOf (schemas : List Json) :
    Meets fuel k s siblings ("allOf", .array schemas) value ↔
      ∀ schema ∈ schemas, FitsWithin fuel k (s.nested schema) schema value := by
  rw [meets_any (by decide)]
  change (schemas.findSome? fun schema => same fuel k s schema value []).isNone ↔ _
  rw [isNone_findSome?, List.all_eq_true]
  rfl

/-- Of the branches beside a condition, the one that goes with it counts. -/
theorem meets_if (hd : s.draft = .d7) (schema : Json) :
    Meets fuel k s siblings ("if", schema) value ↔
      (FitsWithin fuel k (s.nested schema) schema value → ∀ branch,
        Members.get? siblings "then" = some branch →
          FitsWithin fuel k (s.nested branch) branch value) ∧
      (¬ FitsWithin fuel k (s.nested schema) schema value → ∀ branch,
        Members.get? siblings "else" = some branch →
          FitsWithin fuel k (s.nested branch) branch value) := by
  have hbranch (name : String) :
      (((Members.get? siblings name).bind fun b => same fuel k s b value []).isNone ↔
        ∀ branch, Members.get? siblings name = some branch →
          FitsWithin fuel k (s.nested branch) branch value) := by
    cases Members.get? siblings name with
    | none => simp
    | some branch =>
      rw [Option.bind_some]
      exact ⟨fun h _ heq => Option.some.inj heq ▸ h, fun h => h _ rfl⟩
  rw [meets_any (by decide)]
  change
    (ite (s.draft.since .d7) (Option.bind (Members.get? siblings (ite _ _ _)) _) none).isNone ↔ _
  rw [hd]
  by_cases hfits : FitsWithin fuel k (s.nested schema) schema value
  · have hsome : (same fuel k s schema value []).isNone = true := hfits
    simp only [hsome, hfits, if_true, true_imp_iff, not_true_eq_false, false_imp_iff, and_true]
    exact hbranch "then"
  · have hsome : (same fuel k s schema value []).isNone = false := Bool.eq_false_iff.mpr hfits
    simp only [hsome, hfits, Bool.false_eq_true, if_false, not_false_eq_true, true_imp_iff,
      false_imp_iff, true_and]
    exact hbranch "else"

/-- A branch asks for something beside its condition only. -/
theorem meets_then : Meets fuel k s siblings ("then", operand) value := by
  rw [meets_any (by decide)]
  rfl

theorem meets_else : Meets fuel k s siblings ("else", operand) value := by
  rw [meets_any (by decide)]
  rfl

/-! ### Keywords for objects -/

theorem meets_required (names : List String) (object : Members) :
    Meets fuel k s siblings ("required", .strings names) (.object object) ↔
      ∀ name ∈ names, Members.has object name := by
  rw [meets_kind (by decide)]
  change (ensureMembers [] (names.map Json.string) (.object object)).isNone ↔ _
  rw [ensureMembers, isNone_findSome?, List.all_eq_true]
  simp only [isNone_ensure, List.filterMap_map, Function.comp_def, Json.asString?,
    List.filterMap_some]

/-- Beside a ban on further members, `properties` leaves it to the ban to look at the members. -/
theorem meets_properties_closed
    (h : Members.get? siblings "additionalProperties" = some (.bool false))
    (schemas object : Members) :
    Meets fuel k s siblings ("properties", .object schemas) (.object object) := by
  have htakes : takesMembers siblings = true := by rw [takesMembers, h]
  rw [meets_kind (by decide)]
  change (ite (takesMembers siblings) none _).isNone
  rw [htakes]
  rfl

theorem meets_properties (h : Members.get? siblings "additionalProperties" = none)
    (schemas object : Members) :
    Meets fuel k s siblings ("properties", .object schemas) (.object object) ↔
      ∀ p ∈ schemas, ∀ j, Members.get? object p.1 = some j → Fits fuel (s.nested p.2) p.2 j := by
  have htakes : takesMembers siblings = false := by rw [takesMembers, h]
  rw [meets_kind (by decide)]
  change (ite (takesMembers siblings) none _).isNone ↔ _
  rw [htakes]
  simp only [Bool.false_eq_true, if_false, isNone_findSome?, List.all_eq_true]
  refine forall_congr' fun p => forall_congr' fun _ => ?_
  cases Members.get? object p.1 with
  | none => simp
  | some j =>
    rw [Option.bind_some, isNone_check_iff]
    exact ⟨fun h _ heq => Option.some.inj heq ▸ h, fun h => h _ rfl⟩

/-- A ban on further members: all members have one of the names, and what its schema accepts. -/
theorem meets_closed {schemas : Members}
    (hschemas : Members.get? siblings "properties" = some (.object schemas))
    (hpatterns : Members.get? siblings "patternProperties" = none)
    (hnames : (schemas.map (·.1)).Nodup) (object : Members) :
    Meets fuel k s siblings ("additionalProperties", .bool false) (.object object) ↔
      ∀ m ∈ object, ∃ schema, (m.1, schema) ∈ schemas ∧ Fits fuel (s.nested schema) schema m.2 := by
  have hhas : Members.has siblings "properties" = true :=
    List.any_eq_true.mpr ⟨_, Members.mem_of_get? hschemas, by simp⟩
  have hmember (name : String) : memberSchemas siblings name =
      (Members.get? schemas name).toList := by
    rw [memberSchemas, hschemas, hpatterns, List.append_nil]
  have hcondition : kindCondition (same fuel k s) (part fuel s) s.draft siblings
      "additionalProperties" (.bool false) (.object object) [] =
        checkMembers (part fuel s) siblings (.bool false) object [] := by
    change ite _ _ _ = _
    rw [hhas, Bool.true_or, if_pos rfl]
  rw [meets_kind (by decide), hcondition, checkMembers]
  simp only [Option.isNone_or, isNone_ensure, isNone_findSome?, Bool.and_eq_true, List.all_eq_true,
    List.isEmpty_iff, List.map_eq_nil_iff, List.filter_eq_nil_iff, hmember]
  constructor
  · rintro ⟨hknown, hnone⟩ m hm
    cases hschema : Members.get? schemas m.1 with
    | none => exact absurd (by simp [hschema]) (hnone m hm)
    | some schema =>
      have hfits := hknown m hm
      simp only [hschema, Option.toList_some, isNone_findSome?, List.all_cons, List.all_nil,
        Bool.and_true, isNone_check_iff] at hfits
      exact ⟨schema, Members.mem_of_get? hschema, hfits⟩
  · intro h
    constructor
    · intro m hm
      obtain ⟨schema, hmem, hfits⟩ := h m hm
      simp only [(Members.get?_eq_some_iff hnames).mpr hmem, Option.toList_some, isNone_findSome?,
        List.all_cons, List.all_nil, Bool.and_true, isNone_check_iff]
      exact hfits
    · intro m hm
      obtain ⟨schema, hmem, -⟩ := h m hm
      simp [(Members.get?_eq_some_iff hnames).mpr hmem]

/-- All members have a name for which there is a schema, and fit it. -/
def Closed (fuel : Nat) (s : Scope) (schemas members : Members) : Prop :=
  ∀ m ∈ members, ∃ schema, (m.1, schema) ∈ schemas ∧ Fits fuel (s.nested schema) schema m.2

/-- Objects with members of a fixed set of names. -/
theorem meets_record {schemas : Members}
    (hschemas : Members.get? siblings "properties" = some (.object schemas))
    (hclosed : Members.get? siblings "additionalProperties" = some (.bool false))
    (hpatterns : Members.get? siblings "patternProperties" = none)
    (hnames : (schemas.map (·.1)).Nodup) :
    Meets fuel k s siblings ("type", .string "object") value ∧
      Meets fuel k s siblings ("properties", .object schemas) value ∧
      Meets fuel k s siblings ("additionalProperties", .bool false) value ↔
        ∃ members, value = .object members ∧ Closed fuel s schemas members := by
  have htype : Meets fuel k s siblings ("type", .string "object") value ↔
      ∃ members, value = .object members := (meets_type .object).trans Kind.holds_object
  rw [htype]
  constructor
  · rintro ⟨⟨members, rfl⟩, -, h⟩
    exact ⟨members, rfl, (meets_closed hschemas hpatterns hnames members).mp h⟩
  · rintro ⟨members, rfl, h⟩
    exact ⟨⟨members, rfl⟩, meets_properties_closed hclosed schemas members,
      (meets_closed hschemas hpatterns hnames members).mpr h⟩

/-- Records some of whose members have to be there, and of which `more` may be asked. -/
theorem meets_recordWith {required : List String} {schemas siblings : Members} (more : Members)
    (hschemas : Members.get? siblings "properties" = some (.object schemas))
    (hclosed : Members.get? siblings "additionalProperties" = some (.bool false))
    (hpatterns : Members.get? siblings "patternProperties" = none)
    (hnames : (schemas.map (·.1)).Nodup) :
    (∀ m ∈ [("type", .string "object"), ("required", .strings required),
        ("properties", .object schemas), ("additionalProperties", .bool false)] ++ more,
      Meets fuel k s siblings m value) ↔
      ∃ members, value = .object members ∧ (∀ name ∈ required, Members.has members name) ∧
        Closed fuel s schemas members ∧
        ∀ m ∈ more, Meets fuel k s siblings m (.object members) := by
  simp only [List.cons_append, List.nil_append, List.forall_mem_cons]
  constructor
  · rintro ⟨htype, hrequired, hproperties, hadditional, hmore⟩
    obtain ⟨members, rfl, hmembers⟩ :=
      (meets_record hschemas hclosed hpatterns hnames).mp ⟨htype, hproperties, hadditional⟩
    exact ⟨members, rfl, (meets_required required members).mp hrequired, hmembers, hmore⟩
  · rintro ⟨members, rfl, hrequired, hmembers, hmore⟩
    obtain ⟨htype, hproperties, hadditional⟩ :=
      (meets_record (k := k) hschemas hclosed hpatterns hnames).mpr ⟨members, rfl, hmembers⟩
    exact ⟨htype, (meets_required required members).mpr hrequired, hproperties, hadditional, hmore⟩

/-! ### Keywords for arrays and strings -/

theorem meets_items (hd : s.draft = .d7) (schema : Members) (items : List Json) :
    Meets fuel k s siblings ("items", .object schema) (.array items) ↔
      ∀ j ∈ items, Fits fuel (s.nested (.object schema)) (.object schema) j := by
  have hcondition : kindCondition (same fuel k s) (part fuel s) s.draft siblings "items"
      (.object schema) (.array items) [] =
        checkItems (part fuel s (.object schema)) items 0 [] := by
    change checkItems _ items _ [] = _
    rw [hd]
    congr 1
    split <;> rfl
  rw [meets_kind (by decide), hcondition, checkItems, isNone_findSome?, List.drop_zero,
    List.all_eq_true]
  simp only [isNone_check_iff]
  constructor
  · intro h j hj
    obtain ⟨i, hi⟩ := List.mem_iff_getElem?.mp hj
    exact h (j, i) (List.mk_mem_zipIdx_iff_getElem?.mpr hi)
  · intro h m hm
    exact h m.1 (List.fst_mem_of_mem_zipIdx hm)

/-- To ask for one at least is to ask that there is something to count. -/
theorem isNone_ensureLeast_one {counted : Counted} {n : Nat} (h : counted.count? value = some n) :
    (ensureLeast [] counted (.int 1) value).isNone ↔ 0 < n := by
  have hone : (Number.int 1).natural? = some 1 := rfl
  change (ensureLeast [] counted (.number (.int 1)) value).isNone ↔ _
  simp only [ensureLeast, h, hone, Option.bind_some, isNone_ensure, decide_eq_true_eq]
  exact Nat.succ_le_iff

theorem meets_minItems_one (items : List Json) :
    Meets fuel k s siblings ("minItems", .int 1) (.array items) ↔ items ≠ [] := by
  have hcondition : kindCondition (same fuel k s) (part fuel s) s.draft siblings "minItems"
      (.int 1) (.array items) [] = ensureLeast [] .items (.int 1) (.array items) := rfl
  rw [meets_kind (by decide), hcondition, isNone_ensureLeast_one rfl, List.length_pos_iff]

theorem meets_pattern (pattern text : String) :
    Meets fuel k s siblings ("pattern", .string pattern) (.string text) ↔
      matchesPattern pattern text := by
  rw [meets_kind (by decide)]
  change (ensure [] (matchesPattern pattern text) _).isNone ↔ _
  rw [isNone_ensure]

theorem meets_minLength_one (text : String) :
    Meets fuel k s siblings ("minLength", .int 1) (.string text) ↔ text ≠ "" := by
  have hcondition : kindCondition (same fuel k s) (part fuel s) s.draft siblings "minLength"
      (.int 1) (.string text) [] = ensureLeast [] .characters (.int 1) (.string text) := rfl
  rw [meets_kind (by decide), hcondition, isNone_ensureLeast_one rfl, ← String.length_toList,
    List.length_pos_iff, ne_eq, ne_eq, String.toList_eq_nil_iff]

end DeliveryRules.Schema
