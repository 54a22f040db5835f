import DeliveryRules.Json.Located

/-!
# Members of objects

An object gives a name once, so members whose names are all different are an object as they stand
(`Members.ofWritten_eq_self`). The parts of a value are less deep than the value
(`Json.depth_lt_of_member`, `Json.depth_lt_of_item`), and smaller (`Json.size_lt_of_member`,
`Json.size_lt_of_item`).
-/

namespace DeliveryRules.Members

theorem lookup_cons {α : Type} (m : String × α) (ms : List (String × α)) (name : String) :
    (m :: ms).lookup name = if name = m.1 then some m.2 else ms.lookup name := by
  rw [List.lookup_cons]
  by_cases h : name = m.1
  · simp [h]
  · simp [h, beq_eq_false_iff_ne.mpr h]

theorem lookup_map {α β : Type} (f : α → β) (ms : List (String × α)) (name : String) :
    (ms.map fun m => (m.1, f m.2)).lookup name = (ms.lookup name).map f := by
  induction ms with
  | nil => rfl
  | cons m ms ih =>
    rw [List.map_cons, lookup_cons, lookup_cons, ih]
    split <;> rfl

theorem set_of_notMem {ms : Members} {name : String} (h : name ∉ ms.map (·.1)) (value : Json) :
    set ms name value = ms ++ [(name, value)] := by
  induction ms with
  | nil => rfl
  | cons m ms ih =>
    simp only [List.map_cons, List.mem_cons, not_or] at h
    simp [set, Ne.symm h.1, ih h.2]

/-- Members under new names come after those that are there. -/
theorem merge_of_disjoint {base upper : Members}
    (h : ((base ++ upper).map (·.1)).Nodup) : merge base upper = base ++ upper := by
  induction upper generalizing base with
  | nil => simp [merge]
  | cons m upper ih =>
    obtain ⟨name, value⟩ := m
    have hname : name ∉ base.map (·.1) := by
      rw [List.map_append, List.nodup_append] at h
      exact fun hm => h.2.2 name hm name (by simp) rfl
    have hset : merge base ((name, value) :: upper) = merge (base ++ [(name, value)]) upper := by
      simp [merge, set_of_notMem hname]
    rw [hset, ih (by simpa using h), List.append_assoc]
    rfl

theorem mem_of_get? {ms : Members} {name : String} {value : Json}
    (h : get? ms name = some value) : (name, value) ∈ ms := by
  obtain ⟨before, after, rfl, -⟩ := List.lookup_eq_some_iff.mp h
  simp

theorem get?_eq_some_iff {ms : Members} (h : (ms.map (·.1)).Nodup) {name : String}
    {value : Json} : get? ms name = some value ↔ (name, value) ∈ ms := by
  refine ⟨mem_of_get?, fun hmem => ?_⟩
  induction ms with
  | nil => cases hmem
  | cons m ms ih =>
    rw [List.map_cons, List.nodup_cons] at h
    rw [get?, lookup_cons]
    rcases List.mem_cons.mp hmem with rfl | hmem
    · rw [if_pos rfl]
    · have hne : name ≠ m.1 := fun heq => h.1 (heq ▸ List.mem_map_of_mem hmem)
      rw [if_neg hne]
      exact ih h.2 hmem

theorem has_iff {ms : Members} {name : String} :
    has ms name ↔ ∃ j, get? ms name = some j := by
  induction ms with
  | nil => simp [has, get?]
  | cons m ms ih =>
    rw [get?, lookup_cons, has, List.any_cons, ← has, Bool.or_eq_true, ih, get?]
    by_cases h : name = m.1
    · simp [h]
    · simp [h, Ne.symm h]

theorem ofWritten_eq_self {written : List (String × Json)} (h : (written.map (·.1)).Nodup) :
    ofWritten written = written :=
  merge_of_disjoint h

end DeliveryRules.Members

namespace DeliveryRules.Json

theorem depth_lt_of_item {items : List Json} {j : Json} (h : j ∈ items) :
    j.depth < (array items).depth := by
  rw [depth, Nat.lt_succ_iff]
  induction items with
  | nil => cases h
  | cons first rest ih =>
    rw [depth.ofItems]
    rcases List.mem_cons.mp h with rfl | h
    · exact Nat.le_max_left _ _
    · exact Nat.le_trans (ih h) (Nat.le_max_right _ _)

theorem depth_lt_of_member {members : Members} {name : String} {j : Json}
    (h : (name, j) ∈ members) : j.depth < (object members).depth := by
  rw [depth, Nat.lt_succ_iff]
  induction members with
  | nil => cases h
  | cons first rest ih =>
    rw [depth.ofMembers]
    rcases List.mem_cons.mp h with rfl | h
    · exact Nat.le_max_left _ _
    · exact Nat.le_trans (ih h) (Nat.le_max_right _ _)

theorem size_lt_of_item {items : List Json} {j : Json} (h : j ∈ items) :
    j.size < (array items).size := by
  rw [size, Nat.lt_succ_iff]
  induction items with
  | nil => cases h
  | cons first rest ih =>
    rw [size.ofItems]
    rcases List.mem_cons.mp h with rfl | h
    · exact Nat.le_add_right _ _
    · exact Nat.le_trans (ih h) (Nat.le_add_left _ _)

theorem size_lt_of_member {members : Members} {name : String} {j : Json}
    (h : (name, j) ∈ members) : j.size < (object members).size := by
  rw [size, Nat.lt_succ_iff]
  induction members with
  | nil => cases h
  | cons first rest ih =>
    rw [size.ofMembers]
    rcases List.mem_cons.mp h with rfl | h
    · exact Nat.le_add_right _ _
    · exact Nat.le_trans (ih h) (Nat.le_add_left _ _)

end DeliveryRules.Json

namespace DeliveryRules.Located

theorem toJson_ofItems (items : List Located) : toJson.ofItems items = items.map toJson := by
  induction items with
  | nil => rfl
  | cons l ls ih => simp [toJson.ofItems, ih]

theorem toJson_ofMembers (members : List (String × Located)) :
    toJson.ofMembers members = members.map fun m => (m.1, m.2.toJson) := by
  induction members with
  | nil => rfl
  | cons m ms ih => simp [toJson.ofMembers, ih]

end DeliveryRules.Located
