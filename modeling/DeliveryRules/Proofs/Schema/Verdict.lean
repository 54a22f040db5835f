import DeliveryRules.Proofs.Json.Members
import DeliveryRules.Schema.Basic

/-!
# Whether a schema accepts a value

- **Nested schemas** (`nestedSchemas`): the schemas that the members of a schema are made of. Some
  are for the same value, others for its parts (`inPlaceSchemas` has the former).
- **Verdicts** (`condition_congr`): whether a member of a schema is violated depends on what the
  checks of nested schemas find violated, and on nothing else that they say. The way to the value
  does not matter.
- **Depth** (`isNone_checkDeep`): any bound on the depth of values will do that is not below the
  depth of the value at hand.
- `isNone_check`: what it takes to accept a value, in terms of what it takes to accept its parts.
-/

namespace DeliveryRules.Schema

/-! ## Nested schemas -/

/-- The values in an object or an array. -/
def valuesIn : Json → List Json
  | .object members => members.map (·.2)
  | .array items => items
  | _ => []

/-- The schemas that a member of a schema is made of, in any draft. -/
def nestedIn (keyword : String) (operand : Json) : List Json :=
  match keyword, operand with
  | "properties", _ => valuesIn operand
  | "patternProperties", _ => valuesIn operand
  | "dependencies", _ => valuesIn operand
  | "dependentRequired", _ => valuesIn operand
  | "dependentSchemas", _ => valuesIn operand
  | "allOf", _ => valuesIn operand
  | "anyOf", _ => valuesIn operand
  | "oneOf", _ => valuesIn operand
  | "prefixItems", _ => valuesIn operand
  | "items", .array schemas => schemas
  | "items", _ => [operand]
  | "additionalItems", _ => [operand]
  | "additionalProperties", _ => [operand]
  | "contains", _ => [operand]
  | "propertyNames", _ => [operand]
  | "not", _ => [operand]
  | "if", _ => [operand]
  | "then", _ => [operand]
  | "else", _ => [operand]
  | _, _ => []

/-- The schemas that the members of a schema are made of. -/
def nestedSchemas (members : Members) : List Json := members.flatMap fun m => nestedIn m.1 m.2

theorem mem_nestedSchemas {members : Members} {keyword : String} {operand schema : Json}
    (hmem : (keyword, operand) ∈ members) (h : schema ∈ nestedIn keyword operand) :
    schema ∈ nestedSchemas members := List.mem_flatMap.mpr ⟨_, hmem, h⟩

/-- The schemas in a member of a schema that the same value is checked against, not its parts. -/
def inPlaceIn (keyword : String) (operand : Json) : List Json :=
  match keyword with
  | "dependencies" => valuesIn operand
  | "dependentRequired" => valuesIn operand
  | "dependentSchemas" => valuesIn operand
  | "allOf" => valuesIn operand
  | "anyOf" => valuesIn operand
  | "oneOf" => valuesIn operand
  | "not" => [operand]
  | "if" => [operand]
  | "then" => [operand]
  | "else" => [operand]
  | _ => []

def inPlaceSchemas (members : Members) : List Json := members.flatMap fun m => inPlaceIn m.1 m.2

theorem mem_inPlaceSchemas {members : Members} {keyword : String} {operand schema : Json}
    (hmem : (keyword, operand) ∈ members) (h : schema ∈ inPlaceIn keyword operand) :
    schema ∈ inPlaceSchemas members := List.mem_flatMap.mpr ⟨_, hmem, h⟩

theorem mem_nestedSchemas_of_inPlace {members : Members} {schema : Json}
    (h : schema ∈ inPlaceSchemas members) : schema ∈ nestedSchemas members := by
  obtain ⟨⟨keyword, operand⟩, hmem, h⟩ := List.mem_flatMap.mp h
  refine mem_nestedSchemas hmem ?_
  simp only [inPlaceIn] at h
  split at h
  all_goals first | exact h | cases h

/-- The schemas for members of an object stand in `properties` and `patternProperties`. -/
theorem mem_nestedSchemas_of_memberSchemas {siblings : Members} {name : String} {schema : Json}
    (h : schema ∈ memberSchemas siblings name) : schema ∈ nestedSchemas siblings := by
  unfold memberSchemas at h
  rcases List.mem_append.mp h with h | h
  · split at h
    · rename_i schemas hschemas
      rw [Option.mem_toList] at h
      exact mem_nestedSchemas (Members.mem_of_get? hschemas)
        (List.mem_map_of_mem (f := (·.2)) (Members.mem_of_get? h))
    · cases h
  · split at h
    · rename_i schemas hschemas
      obtain ⟨m, hm, rfl⟩ := List.mem_map.mp h
      exact mem_nestedSchemas (Members.mem_of_get? hschemas)
        (List.mem_map_of_mem (List.mem_filter.mp hm).1)
    · cases h

/-! ## Verdicts -/

theorem isNone_ensure (way : List String) (holds : Bool) (c : Complaint) :
    (ensure way holds c).isNone = holds := by
  cases holds <;> rfl

theorem isNone_findSome? {α β : Type} (f : α → Option β) (as : List α) :
    (as.findSome? f).isNone = as.all fun a => (f a).isNone := by
  induction as with
  | nil => rfl
  | cons a as ih =>
    rw [List.findSome?_cons, List.all_cons, ← ih]
    cases f a <;> rfl

theorem findSome?_congr {α β : Type} {f g : α → Option β} {as : List α}
    (h : ∀ a ∈ as, (f a).isNone = (g a).isNone) :
    (as.findSome? f).isNone = (as.findSome? g).isNone := by
  rw [isNone_findSome?, isNone_findSome?]
  induction as with
  | nil => rfl
  | cons a as ih =>
    rw [List.all_cons, List.all_cons, h a List.mem_cons_self,
      ih fun b hb => h b (List.mem_cons_of_mem a hb)]

section Congruence

variable {here here' below below' : Json → Json → List String → Option Violation}
  {d : Draft} {siblings : Members} {keyword : String} {operand : Json} {way way' : List String}

theorem anyCondition_congr {value : Json} (hmem : (keyword, operand) ∈ siblings)
    (h : ∀ schema ∈ inPlaceSchemas siblings,
      (here schema value way).isNone = (here' schema value way').isNone) :
    (anyCondition here d siblings keyword operand value way).isNone =
      (anyCondition here' d siblings keyword operand value way').isNone := by
  have hnested (schema : Json) (hschema : schema ∈ inPlaceIn keyword operand) :
      (here schema value way).isNone = (here' schema value way').isNone :=
    h schema (mem_inPlaceSchemas hmem hschema)
  unfold anyCondition
  split
  · simp only [isNone_ensure]
  · simp only [isNone_ensure]
  · simp only [isNone_ensure]
  · exact findSome?_congr hnested
  · rename_i schemas
    simp only [isNone_ensure]
    rw [Bool.eq_iff_iff, List.any_eq_true, List.any_eq_true]
    exact exists_congr fun schema => and_congr_right fun hs => by rw [hnested schema hs]
  · rename_i schemas
    have hfitting : (schemas.filter fun schema => (here schema value way).isNone) =
        schemas.filter fun schema => (here' schema value way').isNone :=
      List.filter_congr hnested
    simp only [hfitting]
    split <;> rfl
  · simp only [isNone_ensure, hnested operand List.mem_cons_self]
  · simp only [hnested operand List.mem_cons_self]
    split
    · have hbranch (name : String) (hname : name = "then" ∨ name = "else") :
          ((Members.get? siblings name).bind fun b => here b value way).isNone =
            ((Members.get? siblings name).bind fun b => here' b value way').isNone := by
        cases hget : Members.get? siblings name with
        | none => rfl
        | some branch =>
          refine h branch (mem_inPlaceSchemas (Members.mem_of_get? hget) ?_)
          rcases hname with rfl | rfl
          · exact List.mem_cons_self
          · exact List.mem_cons_self
      refine hbranch _ ?_
      split
      · exact .inl rfl
      · exact .inr rfl
    · rfl
  · rfl

theorem isNone_ensureLeast (counted : Counted) (limit value : Json) :
    (ensureLeast way counted limit value).isNone =
      (ensureLeast way' counted limit value).isNone := by
  unfold ensureLeast
  split
  · rename_i l n _
    cases l.natural? with
    | none => rfl
    | some least => simp only [Option.bind_some, isNone_ensure]
  · rfl

theorem isNone_ensureMost (counted : Counted) (limit value : Json) :
    (ensureMost way counted limit value).isNone =
      (ensureMost way' counted limit value).isNone := by
  unfold ensureMost
  split
  · rename_i l n _
    cases l.natural? with
    | none => rfl
    | some most => simp only [Option.bind_some, isNone_ensure]
  · rfl

theorem isNone_ensureBound (bound : Bound) (limit value : Json) :
    (ensureBound way bound limit value).isNone = (ensureBound way' bound limit value).isNone := by
  unfold ensureBound
  split
  · simp only [isNone_ensure]
  · rfl

theorem isNone_ensureMembers (names : List Json) (value : Json) :
    (ensureMembers way names value).isNone = (ensureMembers way' names value).isNone := by
  unfold ensureMembers
  split
  · simp only [isNone_findSome?, isNone_ensure]
  · rfl

theorem checkMembers_congr {additional : Json} {members : Members}
    (hadditional : additional ∈ nestedSchemas siblings)
    (h : ∀ m ∈ members, ∀ schema ∈ nestedSchemas siblings,
      (below schema m.2 (way ++ [m.1])).isNone = (below' schema m.2 (way' ++ [m.1])).isNone) :
    (checkMembers below siblings additional members way).isNone =
      (checkMembers below' siblings additional members way').isNone := by
  unfold checkMembers
  simp only [Option.isNone_or, isNone_ensure]
  congr 1
  refine findSome?_congr fun m hm => ?_
  split
  · rfl
  · exact h m hm _ hadditional
  · exact findSome?_congr fun schema hschema =>
      h m hm schema (mem_nestedSchemas_of_memberSchemas hschema)

theorem memberCondition_congr {object : Members} (hmem : (keyword, operand) ∈ siblings)
    (hhere : ∀ schema ∈ inPlaceSchemas siblings, (here schema (.object object) way).isNone =
      (here' schema (.object object) way').isNone)
    (hbelow : ∀ part : Json, part.depth < (Json.object object).depth →
      ∀ schema ∈ nestedSchemas siblings, ∀ way way',
        (below schema part way).isNone = (below' schema part way').isNone) :
    (memberCondition here below d siblings keyword operand object way).isNone =
      (memberCondition here' below' d siblings keyword operand object way').isNone := by
  have hnested (schema : Json) (hschema : schema ∈ nestedIn keyword operand) :
      schema ∈ nestedSchemas siblings := mem_nestedSchemas hmem hschema
  have hmember (m : String × Json) (hm : m ∈ object) (schema : Json)
      (hschema : schema ∈ nestedSchemas siblings) (way way' : List String) :
      (below schema m.2 way).isNone = (below' schema m.2 way').isNone :=
    hbelow _ (Json.depth_lt_of_member hm) _ hschema _ _
  have hdependent (entries : Members) (h : ∀ e ∈ entries, e.2 ∈ inPlaceSchemas siblings) :
      (memberCondition.dependent here object way entries (.object object)).isNone =
        (memberCondition.dependent here' object way' entries (.object object)).isNone := by
    refine findSome?_congr fun (name, need) hentry => ?_
    simp only
    split
    · split
      · exact isNone_ensureMembers _ _
      · exact hhere _ (h _ hentry)
    · rfl
  unfold memberCondition
  simp only
  split
  · split
    · rfl
    · refine findSome?_congr fun (name, schema) hschema => ?_
      simp only
      cases hget : Members.get? object name with
      | none => rfl
      | some member =>
        exact hmember (name, member) (Members.mem_of_get? hget) _
          (hnested _ (List.mem_map_of_mem (f := (·.2)) hschema)) _ _
  · split
    · rfl
    · refine findSome?_congr fun (pattern, schema) hschema =>
        findSome?_congr fun (name, member) hm => ?_
      simp only
      split
      · exact hmember _ hm _ (hnested _ (List.mem_map_of_mem (f := (·.2)) hschema)) _ _
      · rfl
  · split
    · exact checkMembers_congr (hnested _ List.mem_cons_self) fun m hm _ hs => hmember m hm _ hs _ _
    · split <;> rfl
  · exact checkMembers_congr (hnested _ List.mem_cons_self) fun m hm _ hs => hmember m hm _ hs _ _
  · simp only [isNone_ensure]
  · split
    · exact findSome?_congr fun (name, _) _ =>
        hbelow (.string name) (Nat.succ_pos _) _ (hnested _ List.mem_cons_self) _ _
    · rfl
  · exact isNone_ensureMembers _ _
  · exact hdependent _ fun e he => mem_inPlaceSchemas hmem (List.mem_map_of_mem he)
  · split
    · exact hdependent _ fun e he => mem_inPlaceSchemas hmem (List.mem_map_of_mem he)
    · rfl
  · split
    · exact hdependent _ fun e he => mem_inPlaceSchemas hmem (List.mem_map_of_mem he)
    · rfl
  · exact isNone_ensureLeast _ _ _
  · exact isNone_ensureMost _ _ _
  · rfl

theorem checkItems_congr {check check' : Json → List String → Option Violation}
    {items : List Json} {start : Nat}
    (h : ∀ j ∈ items, ∀ way way', (check j way).isNone = (check' j way').isNone) :
    (checkItems check items start way).isNone = (checkItems check' items start way').isNone :=
  findSome?_congr fun m hm =>
    h m.1 (List.fst_mem_of_mem_zipIdx (List.mem_of_mem_drop hm)) _ _

theorem checkTuple_congr {schemas items : List Json}
    (h : ∀ j ∈ items, ∀ schema ∈ schemas, ∀ way way',
      (below schema j way).isNone = (below' schema j way').isNone) :
    (checkTuple below schemas items way).isNone = (checkTuple below' schemas items way').isNone :=
  findSome?_congr fun m hm =>
    have hpair := List.of_mem_zip (List.fst_mem_of_mem_zipIdx hm)
    h m.1.2 hpair.2 _ hpair.1 _ _

theorem itemCondition_congr {items : List Json} (hmem : (keyword, operand) ∈ siblings)
    (h : ∀ j ∈ items, ∀ schema ∈ nestedSchemas siblings, ∀ way way',
      (below schema j way).isNone = (below' schema j way').isNone) :
    (itemCondition below d siblings keyword operand items way).isNone =
      (itemCondition below' d siblings keyword operand items way').isNone := by
  have hnested (schema : Json) (hschema : schema ∈ nestedIn keyword operand) :
      schema ∈ nestedSchemas siblings := mem_nestedSchemas hmem hschema
  have hitems (schema : Json) (hschema : schema ∈ nestedSchemas siblings) (start : Nat) :
      (checkItems (below schema) items start way).isNone =
        (checkItems (below' schema) items start way').isNone :=
    checkItems_congr fun j hj => h j hj schema hschema
  unfold itemCondition
  simp only
  split
  · split
    · rfl
    · exact checkTuple_congr fun j hj schema hs => h j hj schema (hnested schema hs)
  · rename_i hne
    refine hitems _ (hnested _ ?_) _
    unfold nestedIn
    split
    all_goals first | exact List.mem_cons_self | simp_all
  · split
    · exact checkTuple_congr fun j hj schema hs => h j hj schema (hnested schema hs)
    · rfl
  · split
    · split
      · rfl
      · simp only [isNone_ensure]
    · split
      · rfl
      · exact hitems _ (hnested _ List.mem_cons_self) _
    · rfl
  · have hfitting : (items.filter fun j => (below operand j way).isNone) =
        items.filter fun j => (below' operand j way').isNone :=
      List.filter_congr fun j hj => h j hj operand (hnested _ List.mem_cons_self) way way'
    rw [hfitting]
    split
    · simp only [isNone_ensure]
    · rfl
  · simp only [isNone_ensure]
  · exact isNone_ensureLeast _ _ _
  · exact isNone_ensureMost _ _ _
  · rfl

theorem isNone_numberCondition (value : Json) :
    (numberCondition d siblings keyword operand value way).isNone =
      (numberCondition d siblings keyword operand value way').isNone := by
  unfold numberCondition
  split
  · exact isNone_ensureBound _ _ _
  · exact isNone_ensureBound _ _ _
  · exact isNone_ensureBound _ _ _
  · exact isNone_ensureBound _ _ _
  · simp only [isNone_ensure]
  · rfl

theorem isNone_stringCondition (text : String) :
    (stringCondition d keyword operand text way).isNone =
      (stringCondition d keyword operand text way').isNone := by
  unfold stringCondition
  split
  · exact isNone_ensureLeast _ _ _
  · exact isNone_ensureMost _ _ _
  · simp only [isNone_ensure]
  · simp only [isNone_ensure]
  · rfl

/-- What a member other than a reference asks for, by the checks of nested schemas. -/
theorem anyOrKind_congr {value : Json} (hmem : (keyword, operand) ∈ siblings)
    (hhere : ∀ schema ∈ inPlaceSchemas siblings,
      (here schema value way).isNone = (here' schema value way').isNone)
    (hbelow : ∀ part : Json, part.depth < value.depth → ∀ schema ∈ nestedSchemas siblings,
      ∀ way way', (below schema part way).isNone = (below' schema part way').isNone) :
    ((anyCondition here d siblings keyword operand value way).or
        (kindCondition here below d siblings keyword operand value way)).isNone =
      ((anyCondition here' d siblings keyword operand value way').or
        (kindCondition here' below' d siblings keyword operand value way')).isNone := by
  rw [Option.isNone_or, Option.isNone_or, anyCondition_congr hmem hhere]
  congr 1
  unfold kindCondition
  split
  · exact memberCondition_congr hmem hhere hbelow
  · exact itemCondition_congr hmem fun j hj => hbelow j (Json.depth_lt_of_item hj)
  · exact isNone_numberCondition _
  · exact isNone_stringCondition _
  · rfl

end Congruence

/-- Checks that agree on the parts of a value. -/
def AgreeBelow (value : Json) (below below' : Checker) : Prop :=
  ∀ part : Json, part.depth < value.depth → ∀ s schema way way',
    (below s schema part way).isNone = (below' s schema part way').isNone

section Checks

variable {here here' below below' : Checker} {value : Json}

/-- What a member other than a reference asks for. -/
theorem condition_eq {s : Scope} {siblings : Members} {keyword : String} {operand : Json}
    {way : List String} (h : keyword ≠ "$ref") :
    condition here below s siblings keyword operand value way =
      (anyCondition (fun j => here (s.nested j) j) s.draft siblings keyword operand value way).or
        (kindCondition (fun j => here (s.nested j) j) (fun j => below (s.nested j) j) s.draft
          siblings keyword operand value way) := by
  unfold condition
  split
  · exact absurd rfl h
  · rfl

theorem condition_congr {way way' : List String}
    (hhere : ∀ s schema, (here s schema value way).isNone = (here' s schema value way').isNone)
    (hbelow : AgreeBelow value below below') (s : Scope) {siblings : Members} {keyword : String}
    {operand : Json} (hmem : (keyword, operand) ∈ siblings) :
    (condition here below s siblings keyword operand value way).isNone =
      (condition here' below' s siblings keyword operand value way').isNone := by
  unfold condition
  split
  · split
    · exact hhere _ _
    · rfl
  · exact anyOrKind_congr hmem (fun schema _ => hhere (s.nested schema) schema)
      fun part hpart schema _ => hbelow part hpart _ _

theorem mem_of_mem_conditions {d : Draft} {members : Members} {m : String × Json}
    (h : m ∈ conditions d members) : m ∈ members := by
  unfold conditions at h
  split at h
  · exact (List.mem_filter.mp h).1
  · exact h

theorem checkWithin_congr (hbelow : AgreeBelow value below below') (fuel : Nat) (s : Scope)
    (schema : Json) (way way' : List String) :
    (checkWithin below fuel s schema value way).isNone =
      (checkWithin below' fuel s schema value way').isNone := by
  induction fuel generalizing s schema with
  | zero => rfl
  | succ fuel ih =>
    unfold checkWithin
    split
    · rfl
    · exact findSome?_congr fun _ hm => condition_congr ih hbelow _ (mem_of_mem_conditions hm)
    · rfl

end Checks

/-! ## Depth -/

/-- Two bounds on the depth of a value make no difference. -/
theorem isNone_checkDeep (fuel : Nat) {depth depth' : Nat} {value : Json}
    (h : value.depth ≤ depth) (h' : value.depth ≤ depth') (s : Scope) (schema : Json)
    (way way' : List String) :
    (checkDeep fuel depth s schema value way).isNone =
      (checkDeep fuel depth' s schema value way').isNone := by
  induction depth generalizing depth' value s schema way way' with
  | zero =>
    have hnone (below : Checker) : AgreeBelow value (fun _ _ _ _ => none) below :=
      fun part hpart => by omega
    cases depth' with
    | zero => exact checkWithin_congr (hnone _) _ _ _ _ _
    | succ depth' => exact checkWithin_congr (hnone _) _ _ _ _ _
  | succ depth ih =>
    cases depth' with
    | zero =>
      have hbelow : AgreeBelow value (checkDeep fuel depth) fun _ _ _ _ => none :=
        fun part hpart => by omega
      exact checkWithin_congr hbelow _ _ _ _ _
    | succ depth' =>
      have hbelow : AgreeBelow value (checkDeep fuel depth) (checkDeep fuel depth') :=
        fun part hpart => ih (by omega) (by omega)
      exact checkWithin_congr hbelow _ _ _ _ _

/-- To check a value is to check each of its parts where the schema asks for it. -/
theorem isNone_check (fuel : Nat) (s : Scope) (schema value : Json) (way way' : List String) :
    (check fuel s schema value way).isNone =
      (checkWithin (check fuel) fuel s schema value way').isNone := by
  rw [check]
  cases hdepth : value.depth with
  | zero =>
    have hbelow : AgreeBelow value (fun _ _ _ _ => none) (check fuel) :=
      fun part hpart => by omega
    exact checkWithin_congr hbelow _ _ _ _ _
  | succ depth =>
    have hbelow : AgreeBelow value (checkDeep fuel depth) (check fuel) :=
      fun part hpart => isNone_checkDeep fuel (by omega) (Nat.le_refl _)
    exact checkWithin_congr hbelow _ _ _ _ _

/-- The way to a value does not matter. -/
theorem isNone_check_way (fuel : Nat) (s : Scope) (schema value : Json) (way way' : List String) :
    (check fuel s schema value way).isNone = (check fuel s schema value way').isNone :=
  isNone_checkDeep fuel (Nat.le_refl _) (Nat.le_refl _) s schema way way'

end DeliveryRules.Schema
