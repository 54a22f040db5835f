import DeliveryRules.Rule.Tree

/-!
# How trees grow

- **Parts of a changed tree**: what `node?` and with it `ruleAt` and `childrenOf` give after an
  `insert` and a `change`.
- **Well-formed trees** (`WellFormed`): children come after their parents, every rule but the root
  is the child of a rule, and the root alone came from nowhere.
- **Growth** (`Grows t scope t'`): what may be done to a tree by work on the rule `scope`. Rules
  that are there already are kept as they are, but for `scope` (`Grows.node?_eq`), and a well-formed
  tree stays so (`Grows.wellFormed`).
-/

namespace DeliveryRules.RuleTree

/-! ## Parts of a changed tree -/

@[simp] theorem size_insert (t : RuleTree) (parent : Nat) (r : Rule) :
    (t.insert parent r).size = t.size + 1 := by
  simp [size, insert]

@[simp] theorem size_change (t : RuleTree) (id : Nat) (f : Rule → Rule) :
    (t.change id f).size = t.size := by
  simp [size, change]

theorem node?_eq_none {t : RuleTree} {id : Nat} (h : t.size ≤ id) : t.node? id = none :=
  List.getElem?_eq_none h

theorem isSome_node? {t : RuleTree} {id : Nat} (h : id < t.size) : (t.node? id).isSome := by
  simpa [node?, size] using h

theorem node?_insert (t : RuleTree) (parent : Nat) (r : Rule) (id : Nat) :
    (t.insert parent r).node? id =
      if id = t.size then some ⟨r, some parent, []⟩
      else if id = parent then
        (t.node? id).map fun n => { n with children := n.children ++ [t.size] }
      else t.node? id := by
  have hnodes : t.nodes.length = t.size := rfl
  simp only [insert, node?, nextId, List.getElem?_append, List.length_modify, hnodes,
    List.getElem?_modify]
  rcases Nat.lt_trichotomy id t.size with hlt | rfl | hgt
  · rw [if_pos hlt, if_neg (Nat.ne_of_lt hlt)]
    by_cases hp : id = parent
    · simp [hp]
    · simp [hp, Ne.symm hp]
  · simp
  · have hnone : t.nodes[id]? = none := List.getElem?_eq_none (Nat.le_of_lt hgt)
    rw [if_neg (Nat.not_lt_of_lt hgt), if_neg (Nat.ne_of_gt hgt), hnone]
    obtain ⟨n, hn⟩ : ∃ n, id - t.size = n + 1 := ⟨id - t.size - 1, by omega⟩
    simp [hn]

theorem node?_change (t : RuleTree) (changed : Nat) (f : Rule → Rule) (id : Nat) :
    (t.change changed f).node? id =
      if id = changed then (t.node? id).map fun n => { n with rule := f n.rule }
      else t.node? id := by
  simp only [change, node?, List.getElem?_modify]
  by_cases h : id = changed
  · simp [h]
  · simp [h, Ne.symm h]

theorem childrenOf_insert {t : RuleTree} {parent : Nat} (h : parent < t.size) (r : Rule)
    (id : Nat) :
    (t.insert parent r).childrenOf id =
      if id = parent then t.childrenOf id ++ [t.size] else t.childrenOf id := by
  rw [childrenOf, node?_insert, childrenOf]
  by_cases hnew : id = t.size
  · have hne : t.size ≠ parent := by omega
    simp [hnew, hne, node?_eq_none (Nat.le_refl t.size)]
  · by_cases hp : id = parent
    · obtain ⟨n, hn⟩ := Option.isSome_iff_exists.mp (isSome_node? h)
      have hne : parent ≠ t.size := by omega
      simp [hp, hn, hne]
    · simp [hnew, hp]

@[simp] theorem childrenOf_change (t : RuleTree) (changed : Nat) (f : Rule → Rule)
    (id : Nat) : (t.change changed f).childrenOf id = t.childrenOf id := by
  rw [childrenOf, node?_change, childrenOf]
  by_cases h : id = changed
  · simp [h, Function.comp_def]
  · simp [h]

theorem ruleAt_insert (t : RuleTree) (parent : Nat) (r : Rule) (id : Nat) :
    (t.insert parent r).ruleAt id = if id = t.size then r else t.ruleAt id := by
  rw [ruleAt, node?_insert, ruleAt]
  split
  · rfl
  · split
    · cases t.node? id <;> rfl
    · rfl

theorem ruleAt_change {t : RuleTree} {changed : Nat} (h : changed < t.size) (f : Rule → Rule)
    (id : Nat) :
    (t.change changed f).ruleAt id = if id = changed then f (t.ruleAt id) else t.ruleAt id := by
  rw [ruleAt, node?_change, ruleAt]
  by_cases hid : id = changed
  · obtain ⟨n, hn⟩ := Option.isSome_iff_exists.mp (isSome_node? h)
    simp [hid, hn]
  · simp [hid]

/-! ## Well-formed trees -/

/-- Children come after their parents. -/
def Descending (t : RuleTree) : Prop := ∀ i k : Nat, k ∈ t.childrenOf i → i < k ∧ k < t.size

structure WellFormed (t : RuleTree) : Prop where
  size_pos : 0 < t.size
  child : ∀ {i k : Nat}, k ∈ t.childrenOf i → i < k ∧ k < t.size
  /-- Every rule but the root is the child of a rule. -/
  below : ∀ {k : Nat}, k ≠ rootId → k < t.size → ∃ i, k ∈ t.childrenOf i
  /-- The root, and no other rule, came from nowhere. -/
  origin : ∀ {i : Nat}, i < t.size → ((t.ruleAt i).provenance = none ↔ i = rootId)

theorem WellFormed.descending {t : RuleTree} (ht : t.WellFormed) : t.Descending :=
  fun _ _ => ht.child

theorem wellFormed_ofRoot {root : Rule} (h : root.provenance = none) :
    (ofRoot root).WellFormed where
  size_pos := Nat.zero_lt_one
  child {i k} hk := by
    cases i <;> exact absurd hk (List.not_mem_nil)
  below {k} hk hlt := absurd (Nat.lt_one_iff.mp hlt) hk
  origin {i} hi := by
    obtain rfl : i = rootId := Nat.lt_one_iff.mp hi
    exact iff_of_true h rfl

theorem WellFormed.insert {t : RuleTree} (ht : t.WellFormed) {parent : Nat}
    (hp : parent < t.size) {r : Rule} (hr : r.provenance.isSome) :
    (t.insert parent r).WellFormed where
  size_pos := by
    rw [size_insert]
    exact Nat.lt_succ_of_lt ht.size_pos
  child {i k} hk := by
    rw [childrenOf_insert hp] at hk
    rw [size_insert]
    split at hk
    · rename_i hi
      rcases List.mem_append.mp hk with hold | hnew
      · have := ht.child hold
        omega
      · have : k = t.size := List.mem_singleton.mp hnew
        omega
    · have := ht.child hk
      omega
  below {k} hk hlt := by
    rw [size_insert] at hlt
    by_cases hnew : k = t.size
    · exact ⟨parent, by simp [childrenOf_insert hp, hnew]⟩
    · obtain ⟨i, hi⟩ := ht.below hk (by omega)
      refine ⟨i, ?_⟩
      rw [childrenOf_insert hp]
      split
      · exact List.mem_append_left _ hi
      · exact hi
  origin {i} hi := by
    rw [size_insert] at hi
    rw [ruleAt_insert]
    split
    · rename_i hnew
      have := ht.size_pos
      exact iff_of_false (Option.isSome_iff_ne_none.mp hr) (show i ≠ 0 by omega)
    · exact ht.origin (by omega)

theorem WellFormed.change {t : RuleTree} (ht : t.WellFormed) (id : Nat) {f : Rule → Rule}
    (hf : ∀ r, (f r).provenance = r.provenance) : (t.change id f).WellFormed where
  size_pos := by simpa using ht.size_pos
  child hk := by
    rw [childrenOf_change] at hk
    simpa using ht.child hk
  below hk hlt := by
    rw [size_change] at hlt
    simpa using ht.below hk hlt
  origin {i} hi := by
    rw [size_change] at hi
    have hsame : ((t.change id f).ruleAt i).provenance = (t.ruleAt i).provenance := by
      rw [ruleAt, node?_change, ruleAt]
      obtain ⟨n, hn⟩ := Option.isSome_iff_exists.mp (isSome_node? hi)
      split <;> simp [hn, hf]
    rw [hsame]
    exact ht.origin hi

theorem WellFormed.declare {t : RuleTree} (ht : t.WellFormed) (v : Variable) :
    (t.declare v).WellFormed :=
  ⟨ht.size_pos, ht.child, ht.below, ht.origin⟩

/-! ## Growth -/

/-- What may be done to a tree by work on the rule `scope`: new rules with a known origin are put in
below `scope` or below other new ones, and of these the content is changed, but not where they
came from. -/
inductive Grows (t : RuleTree) (scope : Nat) : RuleTree → Prop
  | refl : Grows t scope t
  | insert {t' : RuleTree} {parent : Nat} {r : Rule} (h : Grows t scope t')
      (place : parent = scope ∨ t.size ≤ parent) (lt : parent < t'.size)
      (origin : r.provenance.isSome) : Grows t scope (t'.insert parent r)
  | change {t' : RuleTree} {id : Nat} {f : Rule → Rule} (h : Grows t scope t')
      (place : id = scope ∨ t.size ≤ id) (keeps : ∀ r, (f r).provenance = r.provenance) :
      Grows t scope (t'.change id f)
  | declare {t' : RuleTree} (h : Grows t scope t') (v : Variable) : Grows t scope (t'.declare v)

namespace Grows

variable {t t' t'' : RuleTree} {scope inner : Nat}

theorem size_le (h : t.Grows scope t') : t.size ≤ t'.size := by
  induction h with
  | refl => exact Nat.le_refl _
  | insert _ _ _ _ ih => rw [size_insert]; omega
  | change _ _ _ ih => rwa [size_change]
  | declare _ _ ih => exact ih

/-- Work on a rule that is new, or on the same rule, is part of the work. -/
theorem trans (h : t.Grows scope t') (hi : inner = scope ∨ t.size ≤ inner)
    (h' : t'.Grows inner t'') : t.Grows scope t'' := by
  have hsize := h.size_le
  have hplace {id : Nat} (hid : id = inner ∨ t'.size ≤ id) : id = scope ∨ t.size ≤ id := by
    omega
  induction h' with
  | refl => exact h
  | insert _ hp hlt hr ih => exact ih.insert (hplace hp) hlt hr
  | change _ hid hf ih => exact ih.change (hplace hid) hf
  | declare _ v ih => exact ih.declare v

/-- To put in a rule, and then to work on it, is work on its parent. -/
theorem of_insert {r : Rule} (hr : r.provenance.isSome) (ht : scope < t.size)
    (h : (t.insert scope r).Grows t.size t') : t.Grows scope t' := by
  have hnew : t.Grows scope (t.insert scope r) := .insert .refl (.inl rfl) ht hr
  exact hnew.trans (.inr (Nat.le_refl t.size)) h

/-- The rules that are there already stay as they are, but for the one that is worked on. -/
theorem node?_eq (h : t.Grows scope t') {id : Nat} (hlt : id < t.size) (hne : id ≠ scope) :
    t'.node? id = t.node? id := by
  induction h with
  | refl => rfl
  | insert h hp hl _ ih =>
    have := h.size_le
    rw [node?_insert, if_neg (by omega), if_neg (by omega), ih]
  | change _ hid _ ih => rw [node?_change, if_neg (by omega), ih]
  | declare _ _ ih => exact ih

theorem wellFormed (h : t.Grows scope t') (ht : t.WellFormed) : t'.WellFormed := by
  induction h with
  | refl => exact ht
  | insert _ _ hl hr ih => exact ih.insert hl hr
  | change _ _ hf ih => exact ih.change _ hf
  | declare _ v ih => exact ih.declare v

end Grows

end DeliveryRules.RuleTree
