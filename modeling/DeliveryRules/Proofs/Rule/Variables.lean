import DeliveryRules.Rule.Tree

/-!
# The table of variables

- **Lookup** (`Distinct.find?_eq_some`): where no name is there twice, a name leads to its one
  entry. A declaration keeps it so (`Distinct.declare`).
- **First declarations** (`firsts`): of a list of declarations, those that are the first of their
  name, by recursion on the list. Declaring a list one after the other leaves a table with its first
  declarations (`declareAll_nil`).
-/

namespace DeliveryRules

namespace VariableTable

/-- No name is there twice. -/
def Distinct (t : VariableTable) : Prop := (t.map (·.name)).Nodup

/-- Declares variables one after the other. -/
def declareAll (t : VariableTable) (vs : List Variable) : VariableTable := vs.foldl declare t

/-- The declarations that are the first of their name. -/
def firsts : List Variable → VariableTable
  | [] => []
  | v :: vs => v :: (firsts vs).filter (·.name ≠ v.name)

variable {t : VariableTable}

theorem knows_iff {name : String} : t.knows name ↔ ∃ v ∈ t, v.name = name := by
  simp [knows]

/-- The table goes on as it was, and the name is in it. -/
theorem knows_declare (v : Variable) (name : String) :
    (t.declare v).knows name ↔ t.knows name ∨ v.name = name := by
  unfold declare
  split
  · rename_i h
    constructor
    · exact .inl
    · rintro (hn | rfl)
      · exact hn
      · exact h
  · simp [knows]

theorem knows_declareAll (vs : List Variable) (name : String) :
    (t.declareAll vs).knows name ↔ t.knows name ∨ ∃ v ∈ vs, v.name = name := by
  induction vs generalizing t with
  | nil => simp [declareAll]
  | cons v vs ih =>
    rw [declareAll, List.foldl_cons, ← declareAll, ih, knows_declare]
    simp [or_assoc]

theorem declareAll_append (us vs : List Variable) :
    t.declareAll (us ++ vs) = (t.declareAll us).declareAll vs :=
  List.foldl_append

theorem mem_of_mem_declareAll {vs : List Variable} {v : Variable} (h : v ∈ t.declareAll vs) :
    v ∈ t ∨ v ∈ vs := by
  induction vs generalizing t with
  | nil => exact .inl h
  | cons u vs ih =>
    rcases ih h with h | h
    · unfold declare at h
      split at h
      · exact .inl h
      · rcases List.mem_append.mp h with h | h
        · exact .inl h
        · exact .inr (List.mem_singleton.mp h ▸ List.mem_cons_self)
    · exact .inr (List.mem_cons_of_mem _ h)

/-! ## Lookup -/

theorem distinct_nil : Distinct [] := List.nodup_nil

theorem Distinct.declare (h : t.Distinct) (v : Variable) : (t.declare v).Distinct := by
  unfold VariableTable.declare
  split
  · exact h
  · rename_i hnew
    have hfresh : v.name ∉ t.map (·.name) := by
      intro hmem
      obtain ⟨u, hu, hname⟩ := List.mem_map.mp hmem
      exact hnew (knows_iff.mpr ⟨u, hu, hname⟩)
    rw [Distinct, List.map_append, List.map_singleton]
    exact List.nodup_append.mpr ⟨h, by simp, fun _ hn _ hm =>
      ne_of_mem_of_not_mem hn (List.mem_singleton.mp hm ▸ hfresh)⟩

/-- A name leads to the one entry that has it. -/
theorem Distinct.find?_eq_some (h : t.Distinct) {name : String} {v : Variable} :
    t.find? name = some v ↔ v ∈ t ∧ v.name = name := by
  constructor
  · intro hfind
    exact ⟨List.mem_of_find?_eq_some hfind, by simpa using List.find?_some hfind⟩
  · rintro ⟨hv, rfl⟩
    induction t with
    | nil => cases hv
    | cons u t ih =>
      rw [Distinct, List.map_cons, List.nodup_cons] at h
      rw [find?, List.find?_cons]
      rcases List.mem_cons.mp hv with rfl | hv
      · simp
      · have hne : u.name ≠ v.name := fun heq => h.1 (heq ▸ List.mem_map_of_mem hv)
        simpa [hne, find?] using ih h.2 hv

/-! ## First declarations -/

theorem filter_knows_declare (v : Variable) (us : List Variable) :
    us.filter (!(t.declare v).knows ·.name) =
      (us.filter (·.name ≠ v.name)).filter (!t.knows ·.name) := by
  rw [List.filter_filter]
  refine List.filter_congr fun u _ => ?_
  rw [Bool.eq_iff_iff]
  simp only [Bool.not_eq_true', Bool.and_eq_true, decide_eq_true_eq, ← Bool.not_eq_true,
    knows_declare, not_or, eq_comm (a := v.name)]

/-- What declarations add to a table: the first of each name that is not in it. -/
theorem declareAll_eq (vs : List Variable) :
    t.declareAll vs = t ++ (firsts vs).filter (!t.knows ·.name) := by
  induction vs generalizing t with
  | nil => simp [declareAll, firsts]
  | cons v vs ih =>
    rw [declareAll, List.foldl_cons, ← declareAll, ih, filter_knows_declare, firsts,
      List.filter_cons]
    -- Where the name is known already, the other declarations of it go as well.
    by_cases h : t.knows v.name
    · simp [declare, h]
    · simp [declare, h]

theorem declareAll_nil (vs : List Variable) : declareAll [] vs = firsts vs := by
  rw [declareAll_eq]
  simp [knows]

theorem firsts_of_distinct {vs : List Variable} (h : Distinct vs) : firsts vs = vs := by
  induction vs with
  | nil => rfl
  | cons v vs ih =>
    rw [Distinct, List.map_cons, List.nodup_cons] at h
    rw [firsts, ih h.2, List.filter_eq_self.mpr]
    intro u hu
    have hne : u.name ≠ v.name := fun heq => h.1 (heq ▸ List.mem_map_of_mem hu)
    exact decide_eq_true hne

/-- Declarations of known names change nothing. -/
theorem declareAll_of_knows {vs : List Variable} (h : ∀ v ∈ vs, t.knows v.name) :
    t.declareAll vs = t := by
  induction vs with
  | nil => rfl
  | cons v vs ih =>
    rw [List.forall_mem_cons] at h
    rw [declareAll, List.foldl_cons, declare, if_pos h.1]
    exact ih h.2

end VariableTable

namespace RuleTree

/-- Declares variables one after the other. -/
def declareAll (t : RuleTree) (vs : List Variable) : RuleTree :=
  { t with declared := t.declared.declareAll vs }

end RuleTree

end DeliveryRules
