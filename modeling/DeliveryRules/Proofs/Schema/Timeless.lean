import DeliveryRules.Proofs.Except
import DeliveryRules.Proofs.Json.Contents
import DeliveryRules.Proofs.Schema.Keywords

/-!
# Schemas that two drafts read alike

An option schema is written on its own and then stands in a larger one, which may be of another
draft and has other definitions.

- **Rules that did not change** (`SameRules`): two drafts take the members of a schema by the same
  rules. What `check` leaves out is told apart here too (`hasChanged`).
- **Timeless schemas** (`Timeless`): neither they nor the schemas nested in them take part in
  references, and the two drafts take their members by the same rules.
- **Verdicts** (`fits_iff_of_timeless`): a timeless schema accepts the same values wherever it
  stands.
- **Soundness** (`sound_of_timeless`): a timeless schema that is sound is sound wherever it stands.
-/

namespace DeliveryRules.Schema

/-! ## Rules that did not change -/

/-- Whether the rules for a member of a schema are not the same in all drafts since the seventh. A
format and what is said of encoded contents are conditions in the seventh, and remarks since. -/
def hasChanged (keyword : String) (operand : Json) : Bool :=
  match keyword, operand with
  | "items", .array _ => true
  | _, _ => ["prefixItems", "minContains", "maxContains", "dependencies", "dependentRequired",
      "dependentSchemas", "unevaluatedItems", "unevaluatedProperties", "format",
      "contentMediaType", "contentEncoding"].contains keyword

/-- Whether a schema takes part in references, in any draft: it refers to another one, or offers a
name of its own or definitions to refer to. -/
def isLinked (members : Members) : Bool :=
  ["$ref", "$dynamicRef", "$recursiveRef", "$id", "id", "$defs", "definitions"].any
    (Members.has members)

/-- Whether a schema names a draft after the seventh, or none that is known. The vocabularies of a
later draft are those that the schema around it has, which `check` does not follow. -/
def namesLater (schema : Json) : Bool :=
  match Draft.named schema with
  | .ok named => named.any (·.since .d201909)
  | .error _ => true

/-- Two drafts take the members of a schema by the same rules. -/
def SameRules (d d' : Draft) (members : Members) : Prop :=
  d = d' ∨ d.since .d7 ∧ d'.since .d7 ∧ ∀ m ∈ members, hasChanged m.1 m.2 = false

section Rules

variable {d d' : Draft} {siblings : Members} {keyword : String} {operand : Json}
  {way : List String}

theorem SameRules.since (h : SameRules d d' siblings) :
    d.since .d6 = d'.since .d6 ∧ d.since .d7 = d'.since .d7 := by
  rcases h with rfl | ⟨hd, hd', -⟩
  · exact ⟨rfl, rfl⟩
  · revert hd hd'
    cases d <;> cases d' <;> decide

/-- Where there is a member whose rules have changed, the drafts are the same. -/
theorem SameRules.eq_of_mem (h : SameRules d d' siblings) (hmem : (keyword, operand) ∈ siblings)
    (hchanged : hasChanged keyword operand = true) : d = d' := by
  rcases h with rfl | ⟨-, -, h⟩
  · rfl
  · exact absurd hchanged (Bool.eq_false_iff.mp (h _ hmem))

theorem SameRules.eq_of_get? (h : SameRules d d' siblings)
    (hget : Members.get? siblings keyword = some operand)
    (hchanged : hasChanged keyword operand = true) : d = d' :=
  h.eq_of_mem (Members.mem_of_get? hget) hchanged

theorem limitBound_draft (h : SameRules d d' siblings) (flag : String) (closed strict : Bound) :
    limitBound d siblings flag closed strict = limitBound d' siblings flag closed strict := by
  rcases h with rfl | ⟨hd, hd', -⟩
  · rfl
  · revert hd hd'
    cases d <;> cases d' <;> first | exact fun _ _ => rfl | exact nofun

theorem Kind.holds_draft (h : SameRules d d' siblings) (k : Kind) (j : Json) :
    Kind.holds d k j = Kind.holds d' k j := by
  unfold Kind.holds
  rw [h.since.1]

theorem anyCondition_draft (h : SameRules d d' siblings)
    {check : Json → Json → List String → Option Violation} {value : Json} :
    anyCondition check d siblings keyword operand value way =
      anyCondition check d' siblings keyword operand value way := by
  have hkind : Kind.holds d = Kind.holds d' := by
    funext k j
    exact Kind.holds_draft h k j
  unfold anyCondition
  rw [h.since.1, h.since.2, hkind]

theorem memberCondition_draft (h : SameRules d d' siblings) (hmem : (keyword, operand) ∈ siblings)
    {here below : Json → Json → List String → Option Violation} {object : Members} :
    memberCondition here below d siblings keyword operand object way =
      memberCondition here below d' siblings keyword operand object way := by
  unfold memberCondition
  rw [h.since.1]
  simp only
  split
  all_goals first | rfl | (obtain rfl := h.eq_of_mem hmem rfl; rfl)

theorem itemCondition_draft (h : SameRules d d' siblings) (hmem : (keyword, operand) ∈ siblings)
    {check : Json → Json → List String → Option Violation} {items : List Json} :
    itemCondition check d siblings keyword operand items way =
      itemCondition check d' siblings keyword operand items way := by
  have hlimit (name : String) (hname : ∀ operand, hasChanged name operand = true) :
      d = d' ∨ itemCondition.limit siblings name = none := by
    cases hget : Members.get? siblings name with
    | none => exact .inr (by rw [itemCondition.limit, hget])
    | some operand => exact .inl (h.eq_of_get? hget (hname operand))
  unfold itemCondition
  rw [h.since.1]
  simp only
  split
  · obtain rfl := h.eq_of_mem hmem rfl
    rfl
  · split
    · rename_i hget
      obtain rfl := h.eq_of_get? hget rfl
      rfl
    · rfl
  · obtain rfl := h.eq_of_mem hmem rfl
    rfl
  · split
    · rename_i hget
      obtain rfl := h.eq_of_get? hget rfl
      rfl
    · rename_i hget
      obtain rfl := h.eq_of_get? hget rfl
      rfl
    · rfl
  · rcases hlimit "minContains" fun _ => rfl with rfl | hleast
    · rfl
    · rcases hlimit "maxContains" fun _ => rfl with rfl | hmost
      · rfl
      · rw [hleast, hmost]
        simp
  all_goals rfl

theorem numberCondition_draft (h : SameRules d d' siblings) {value : Json} :
    numberCondition d siblings keyword operand value way =
      numberCondition d' siblings keyword operand value way := by
  unfold numberCondition
  simp only [limitBound_draft h]

theorem stringCondition_draft (h : SameRules d d' siblings) (hmem : (keyword, operand) ∈ siblings)
    {text : String} :
    stringCondition d keyword operand text way = stringCondition d' keyword operand text way := by
  unfold stringCondition
  split
  all_goals first | rfl | (obtain rfl := h.eq_of_mem hmem rfl; rfl)

theorem kindCondition_draft (h : SameRules d d' siblings) (hmem : (keyword, operand) ∈ siblings)
    {here below : Json → Json → List String → Option Violation} {value : Json} :
    kindCondition here below d siblings keyword operand value way =
      kindCondition here below d' siblings keyword operand value way := by
  unfold kindCondition
  split
  · exact memberCondition_draft h hmem
  · exact itemCondition_draft h hmem
  · exact numberCondition_draft h
  · exact stringCondition_draft h hmem
  · rfl

end Rules

/-! ## Timeless schemas -/

/-- Drafts `d` and `d'` take a schema for the same, wherever it stands: it takes no part in
references, and its members, and those of the schemas nested in it, are taken by the same rules. -/
inductive Timeless : Draft → Draft → Json → Prop
  | plain {d d' : Draft} {schema : Json} (h : schema.asObject? = none) : Timeless d d' schema
  | object {d d' : Draft} {members : Members} (unlinked : isLinked members = false)
      (early : namesLater (.object members) = false) (rules : SameRules d d' members)
      (nested : ∀ schema ∈ nestedSchemas members,
        Timeless (d.nested schema) (d'.nested schema) schema) : Timeless d d' (.object members)

/-- `Timeless`, for schemas that are nested in one another less than `n` times. -/
def isTimeless : Nat → Draft → Draft → Json → Bool
  | 0, _, _, _ => false
  | n + 1, d, d', .object members =>
    !isLinked members && !namesLater (.object members) &&
      (decide (d = d') || d.since .d7 && d'.since .d7 &&
        members.all fun m => !hasChanged m.1 m.2) &&
      (nestedSchemas members).all fun j => isTimeless n (d.nested j) (d'.nested j) j
  | _ + 1, _, _, _ => true

theorem timeless_of_isTimeless {n : Nat} {d d' : Draft} {j : Json}
    (h : isTimeless n d d' j = true) : Timeless d d' j := by
  induction n generalizing d d' j with
  | zero => cases h
  | succ n ih =>
    cases j with
    | object members =>
      simp only [isTimeless, Bool.and_eq_true, Bool.or_eq_true, decide_eq_true_eq,
        Bool.not_eq_true', List.all_eq_true] at h
      obtain ⟨⟨⟨hnone, hearly⟩, hrules⟩, hnested⟩ := h
      refine .object hnone hearly ?_ fun j hj => ih (hnested j hj)
      rcases hrules with rfl | ⟨⟨hd, hd'⟩, hall⟩
      · exact .inl rfl
      · exact .inr ⟨hd, hd', hall⟩
    | _ => exact .plain rfl

theorem has_ref {members : Members} (h : isLinked members = false) :
    Members.has members "$ref" = false := by
  rw [isLinked, List.any_eq_false] at h
  exact Bool.eq_false_iff.mpr (h "$ref" List.mem_cons_self)

theorem ne_ref_of_mem {members : Members} {keyword : String} {operand : Json}
    (hnone : isLinked members = false) (hmem : (keyword, operand) ∈ members) :
    keyword ≠ "$ref" := by
  rintro rfl
  exact Bool.eq_false_iff.mp (has_ref hnone) (List.any_eq_true.mpr ⟨_, hmem, by simp⟩)

theorem size_pos (j : Json) : 0 < j.size := by
  cases j <;> simp [Json.size]

theorem contains_of_nestedIn {keyword : String} {operand schema : Json}
    (h : schema ∈ nestedIn keyword operand) : operand.Contains schema := by
  have hvalues (h : schema ∈ valuesIn operand) : operand.Contains schema := by
    cases operand with
    | object members =>
      obtain ⟨m, hm, rfl⟩ := List.mem_map.mp h
      exact .member hm (.self _)
    | array items => exact .item h (.self _)
    | _ => cases h
  unfold nestedIn at h
  split at h
  all_goals
    first
    | exact hvalues h
    | exact .item h (.self _)
    | (obtain rfl := List.mem_singleton.mp h
       exact .self _)
    | cases h

/-- Nested schemas stand in the schema that they are nested in. -/
theorem contains_of_nested {members : Members} {schema : Json}
    (h : schema ∈ nestedSchemas members) : (Json.object members).Contains schema := by
  obtain ⟨m, hmem, h⟩ := List.mem_flatMap.mp h
  exact .member hmem (contains_of_nestedIn h)

/-- A schema that is nested in another one is smaller. -/
theorem size_lt_of_nested {members : Members} {schema : Json}
    (h : schema ∈ nestedSchemas members) : schema.size < (Json.object members).size := by
  obtain ⟨m, hmem, h⟩ := List.mem_flatMap.mp h
  exact Nat.lt_of_le_of_lt (contains_of_nestedIn h).size_le (Json.size_lt_of_member hmem)

/-! ## Verdicts -/

theorem nested_draft (s : Scope) (schema : Json) :
    (s.nested schema).draft = s.draft.nested schema := by
  unfold Scope.nested
  simp only
  split <;> rfl

section Checks

variable {below below' : Checker} {value : Json} {k k' n : Nat} {s s' : Scope} {schema : Json}

/-- Checks that agree on the parts of a value, where schemas are timeless and of size at most
`n`. -/
def AgreeOnTimeless (n : Nat) (value : Json) (below below' : Checker) : Prop :=
  ∀ part : Json, part.depth < value.depth → ∀ s s' schema, Timeless s.draft s'.draft schema →
    schema.size ≤ n → ∀ way way',
      (below s schema part way).isNone = (below' s' schema part way').isNone

theorem checkWithin_timeless (hbelow : AgreeOnTimeless n value below below')
    (h : Timeless s.draft s'.draft schema) (hn : schema.size ≤ n) (hk : schema.size ≤ k)
    (hk' : schema.size ≤ k') (way way' : List String) :
    (checkWithin below k s schema value way).isNone =
      (checkWithin below' k' s' schema value way').isNone := by
  -- Schemas that are nested in this one are smaller, so `k` and `k'` are enough for them too.
  induction k generalizing k' s s' schema way way' with
  | zero => exact absurd hk (Nat.not_le_of_lt (size_pos schema))
  | succ k ih =>
    cases k' with
    | zero => exact absurd hk' (Nat.not_le_of_lt (size_pos schema))
    | succ k' =>
      generalize hd : s.draft = d at h
      generalize hd' : s'.draft = d' at h
      cases h with
      | plain hplain =>
        cases schema with
        | object members => cases hplain
        | bool b => cases b <;> rfl
        | _ => rfl
      | @object _ _ members hnone _ hrules hnested =>
        subst hd hd'
        rw [checkWithin, checkWithin, conditions_eq_self (has_ref hnone),
          conditions_eq_self (has_ref hnone)]
        refine findSome?_congr ?_
        rintro ⟨keyword, operand⟩ hmem
        have hsize (j : Json) (hj : j ∈ nestedSchemas members) : j.size ≤ n ∧ j.size ≤ k ∧
            j.size ≤ k' := by
          have hlt := size_lt_of_nested hj
          omega
        have htimeless (j : Json) (hj : j ∈ nestedSchemas members) :
            Timeless (s.nested j).draft (s'.nested j).draft j := by
          rw [nested_draft, nested_draft]
          exact hnested j hj
        have hne := ne_ref_of_mem hnone hmem
        simp only
        rw [condition_eq hne, condition_eq hne, anyCondition_draft hrules,
          kindCondition_draft hrules hmem]
        exact anyOrKind_congr hmem
          (fun j hj =>
            have hj := mem_nestedSchemas_of_inPlace hj
            ih (htimeless j hj) (hsize j hj).1 (hsize j hj).2.1 (hsize j hj).2.2 _ _)
          fun part hpart j hj => hbelow part hpart _ _ j (htimeless j hj) (hsize j hj).1

theorem checkDeep_timeless {fuel fuel' depth : Nat} (h : Timeless s.draft s'.draft schema)
    (hfuel : schema.size ≤ fuel) (hfuel' : schema.size ≤ fuel') (hvalue : value.depth ≤ depth)
    (way way' : List String) :
    (checkDeep fuel depth s schema value way).isNone =
      (checkDeep fuel' depth s' schema value way').isNone := by
  induction depth generalizing value s s' schema way way' with
  | zero =>
    have hbelow : AgreeOnTimeless schema.size value (fun _ _ _ _ => none) fun _ _ _ _ => none :=
      fun _ _ _ _ _ _ _ _ _ => rfl
    exact checkWithin_timeless hbelow h (Nat.le_refl _) hfuel hfuel' _ _
  | succ depth ih =>
    have hbelow : AgreeOnTimeless schema.size value (checkDeep fuel depth)
        (checkDeep fuel' depth) := fun part hpart s s' schema' h hsize =>
      ih h (Nat.le_trans hsize hfuel) (Nat.le_trans hsize hfuel')
        (Nat.le_of_lt_succ (Nat.lt_of_lt_of_le hpart hvalue))
    exact checkWithin_timeless hbelow h (Nat.le_refl _) hfuel hfuel' _ _

/-- A timeless schema accepts the same values wherever it stands. -/
theorem fits_iff_of_timeless {fuel fuel' : Nat} (h : Timeless s.draft s'.draft schema)
    (hfuel : schema.size ≤ fuel) (hfuel' : schema.size ≤ fuel') :
    Fits fuel s schema value ↔ Fits fuel' s' schema value := by
  rw [Fits, Fits, check, check, checkDeep_timeless h hfuel hfuel' (Nat.le_refl _) [] []]

end Checks

/-! ## Soundness -/

/-- A part that is a pattern, or a schema nested in one with the given members. -/
def Part.IsInside (members : Members) : Part → Prop
  | .schema j => j ∈ nestedSchemas members
  | .pattern _ _ => True
  | .reference _ => False

section Parts

variable {d d' : Draft} {siblings : Members} {keyword : String} {operand : Json} {part : Part}

theorem partsOf_draft (h : SameRules d d' siblings) (hmem : (keyword, operand) ∈ siblings) :
    partsOf d siblings keyword operand = partsOf d' siblings keyword operand := by
  unfold partsOf
  rw [h.since.1, h.since.2]
  split
  all_goals
    first
    | rfl
    | (obtain rfl := h.eq_of_mem hmem rfl
       rfl)
    | skip
  -- Only further items are left: what they mean depends on the items beside them.
  split
  · rename_i hget
    obtain rfl := h.eq_of_get? hget rfl
    rfl
  · rfl

theorem isInside_of_schemasIn (h : ∀ j ∈ valuesIn operand, j ∈ nestedSchemas siblings)
    (hpart : part ∈ schemasIn operand) : part.IsInside siblings := by
  cases operand with
  | object members =>
    obtain ⟨m, hm, rfl⟩ := List.mem_map.mp hpart
    exact h _ (List.mem_map_of_mem hm)
  | array items =>
    obtain ⟨j, hj, rfl⟩ := List.mem_map.mp hpart
    exact h _ hj
  | _ => cases hpart

theorem isInside_of_patternsIn (h : ∀ j ∈ valuesIn operand, j ∈ nestedSchemas siblings)
    (hpart : part ∈ patternsIn operand) : part.IsInside siblings := by
  cases operand with
  | object members =>
    obtain ⟨m, hm, hpart⟩ := List.mem_flatMap.mp hpart
    rcases List.mem_cons.mp hpart with rfl | hpart
    · trivial
    · obtain rfl := List.mem_singleton.mp hpart
      exact h _ (List.mem_map_of_mem hm)
  | _ => cases hpart

theorem isInside_of_siblingParts {name : String} {parts : Json → List Part}
    (h : ∀ j, (name, j) ∈ siblings → ∀ part ∈ parts j, part.IsInside siblings)
    (hpart : part ∈ siblingParts siblings name parts) : part.IsInside siblings := by
  rw [siblingParts] at hpart
  cases hget : Members.get? siblings name with
  | none =>
    rw [hget] at hpart
    cases hpart
  | some j =>
    rw [hget] at hpart
    exact h j (Members.mem_of_get? hget) part hpart

/-- Members other than references bring along patterns and nested schemas. -/
theorem isInside_of_partsOf (hmem : (keyword, operand) ∈ siblings) (hne : keyword ≠ "$ref")
    (hpart : part ∈ partsOf d siblings keyword operand) : part.IsInside siblings := by
  have hnested (j : Json) (hj : j ∈ nestedIn keyword operand) : j ∈ nestedSchemas siblings :=
    mem_nestedSchemas hmem hj
  have hoperand (hself : operand ∈ nestedIn keyword operand)
      (hpart : part ∈ [Part.schema operand]) : part.IsInside siblings := by
    obtain rfl := List.mem_singleton.mp hpart
    exact hnested _ hself
  have hproperties : part ∈ siblingParts siblings "properties" schemasIn →
      part.IsInside siblings :=
    isInside_of_siblingParts fun j hj _ => isInside_of_schemasIn fun _ => mem_nestedSchemas hj
  have hpatterns : part ∈ siblingParts siblings "patternProperties" patternsIn →
      part.IsInside siblings :=
    isInside_of_siblingParts fun j hj _ => isInside_of_patternsIn fun _ => mem_nestedSchemas hj
  have hbranch (name : String) (hname : ∀ j, j ∈ nestedIn name j) :
      part ∈ siblingParts siblings name (fun j => [.schema j]) → part.IsInside siblings := by
    refine isInside_of_siblingParts fun j hj part hpart => ?_
    obtain rfl := List.mem_singleton.mp hpart
    exact mem_nestedSchemas hj (hname j)
  have hdependencies (entries : Members) (h : ∀ e ∈ entries, e.2 ∈ nestedSchemas siblings)
      (hpart : part ∈ partsOf.ofDependencies entries) : part.IsInside siblings := by
    obtain ⟨e, he, rfl⟩ := List.mem_map.mp hpart
    exact h e (List.mem_filter.mp he).1
  unfold partsOf at hpart
  split at hpart
  · exact absurd rfl hne
  · obtain rfl := List.mem_singleton.mp hpart
    trivial
  · split at hpart
    · cases hpart
    · exact isInside_of_schemasIn hnested hpart
  · split at hpart
    · cases hpart
    · exact isInside_of_patternsIn hnested hpart
  · exact hpatterns hpart
  · rcases List.mem_append.mp hpart with hpart | hpart
    · rcases List.mem_append.mp hpart with hpart | hpart
      · exact hpatterns hpart
      · exact hproperties hpart
    · exact hoperand List.mem_cons_self hpart
  · rename_i items
    have hitems (j : Json) (hj : j ∈ valuesIn (.array items)) : j ∈ nestedSchemas siblings :=
      hnested j hj
    split at hpart
    · cases hpart
    · exact isInside_of_schemasIn hitems hpart
  · refine hoperand ?_ hpart
    unfold nestedIn
    split
    all_goals first | exact List.mem_cons_self | simp_all
  · split at hpart
    · exact isInside_of_schemasIn hnested hpart
    · cases hpart
  · split at hpart
    · split at hpart
      · cases hpart
      · exact hoperand List.mem_cons_self hpart
    · cases hpart
  · split at hpart
    · exact hoperand List.mem_cons_self hpart
    · cases hpart
  · split at hpart
    · exact hoperand List.mem_cons_self hpart
    · cases hpart
  · exact hdependencies _ (fun e he => hnested _ (List.mem_map_of_mem he)) hpart
  · split at hpart
    · exact hdependencies _ (fun e he => hnested _ (List.mem_map_of_mem he)) hpart
    · cases hpart
  · exact isInside_of_schemasIn hnested hpart
  · exact isInside_of_schemasIn hnested hpart
  · exact isInside_of_schemasIn hnested hpart
  · exact hoperand List.mem_cons_self hpart
  · simp only at hpart
    split at hpart
    · rcases List.mem_cons.mp hpart with rfl | hpart
      · exact hnested _ List.mem_cons_self
      · rcases List.mem_append.mp hpart with hpart | hpart
        · exact hbranch "then" (fun _ => List.mem_cons_self) hpart
        · exact hbranch "else" (fun _ => List.mem_cons_self) hpart
    · cases hpart
  · cases hpart

end Parts

/-- A timeless schema that is sound is sound wherever it stands. It has no references to follow. -/
theorem sound_of_timeless {n n' : Nat} {s s' : Scope} {schema : Json} {met met' x : List String}
    (h : Timeless s.draft s'.draft schema) (hn : schema.size ≤ n)
    (hsound : sound n s schema met = .ok x) : sound n' s' schema met' = .ok met' := by
  induction n' generalizing n s s' schema met x with
  | zero => rfl
  | succ n' ih =>
    cases n with
    | zero => exact absurd hn (Nat.not_le_of_lt (size_pos schema))
    | succ n =>
      generalize hd : s.draft = d at h
      generalize hd' : s'.draft = d' at h
      cases h with
      | plain hplain =>
        cases schema with
        | object members => cases hplain
        | _ => rfl
      | @object _ _ members hnone _ hrules hnested =>
        subst hd hd'
        rw [sound] at hsound ⊢
        simp only [conditions_eq_self (has_ref hnone)] at hsound ⊢
        refine foldlM_eq_self fun part hpart => ?_
        obtain ⟨⟨keyword, operand⟩, hmem, hpart⟩ := List.mem_flatMap.mp hpart
        have hne := ne_ref_of_mem hnone hmem
        rw [← partsOf_draft hrules hmem] at hpart
        obtain ⟨met'', x', hstep⟩ :=
          foldlM_eq_ok hsound part (List.mem_flatMap.mpr ⟨_, hmem, hpart⟩)
        have hinside := isInside_of_partsOf hmem hne hpart
        cases part with
        | schema j =>
          have hsize := size_lt_of_nested hinside
          refine ih (n := n) ?_ (by omega) hstep
          rw [nested_draft, nested_draft]
          exact hnested j hinside
        | pattern text blamed =>
          simp only at hstep ⊢
          split at hstep
          · rename_i hparse
            rw [if_pos hparse]
          · cases hstep
        | reference text => exact hinside.elim

end DeliveryRules.Schema
