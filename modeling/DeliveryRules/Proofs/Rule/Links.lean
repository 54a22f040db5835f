import DeliveryRules.Proofs.Rule.Sketch
import Mathlib.Data.List.Nodup

/-!
# Links between rules

- **Built trees** (`RuleTree.Built`): what comes of a root alone by putting in rules without
  children and by changing the content of rules. Nothing is asked of the content.
- **Links** (`RuleTree.Linked`): the root has no parent, every other rule has one that was put in
  before it, and the lists of children say the same as the parents. Built trees are linked
  (`Built.linked`), since an insertion adds one rule to one list.
- **Induction** (`Descending.induction`): what holds of a rule if it holds of its children holds of
  all rules.
- **Rules below a rule** (`RuleTree.Below`): all of them are below the root (`Linked.below_root`),
  and two rules with a common parent have none below both (`Linked.not_below_siblings`).
-/

namespace DeliveryRules.RuleTree

/-! ## Built trees -/

/-- Comes of a root alone by putting in rules and changing their content. -/
inductive Built : RuleTree → Prop
  | ofRoot (root : Rule) : Built (.ofRoot root)
  | insert {t : RuleTree} {parent : Nat} (h : Built t) (lt : parent < t.size) (r : Rule) :
      Built (t.insert parent r)
  | change {t : RuleTree} (h : Built t) (id : Nat) (f : Rule → Rule) : Built (t.change id f)
  | declare {t : RuleTree} (h : Built t) (v : Variable) : Built (t.declare v)

theorem Grows.built {t t' : RuleTree} {scope : Nat} (h : t.Grows scope t') (ht : t.Built) :
    t'.Built := by
  induction h with
  | refl => exact ht
  | insert _ _ lt _ ih => exact ih.insert lt _
  | change _ _ _ ih => exact ih.change _ _
  | declare _ v ih => exact ih.declare v

/-! ## Links -/

theorem parent?_insert (t : RuleTree) (parent : Nat) (r : Rule) (id : Nat) :
    (t.insert parent r).parent? id = if id = t.size then some parent else t.parent? id := by
  rw [parent?, node?_insert, parent?]
  by_cases hnew : id = t.size
  · rw [if_pos hnew, if_pos hnew]
    rfl
  · rw [if_neg hnew, if_neg hnew]
    by_cases hparent : id = parent
    · rw [if_pos hparent, Option.bind_map]
      rfl
    · rw [if_neg hparent]

@[simp] theorem parent?_change (t : RuleTree) (changed : Nat) (f : Rule → Rule) (id : Nat) :
    (t.change changed f).parent? id = t.parent? id := by
  rw [parent?, node?_change, parent?]
  by_cases h : id = changed
  · rw [if_pos h, Option.bind_map]
    rfl
  · rw [if_neg h]

theorem lt_size_of_parent? {t : RuleTree} {i k : Nat} (h : t.parent? k = some i) : k < t.size := by
  by_contra hge
  have hnone : t.node? k = none := node?_eq_none (Nat.le_of_not_lt hge)
  rw [parent?, hnone] at h
  cases h

/-- Every rule but the root has one place in the tree. -/
structure Linked (t : RuleTree) : Prop where
  size_pos : 0 < t.size
  parent?_root : t.parent? rootId = none
  /-- Every other rule has a parent, which was put in before it. -/
  parent : ∀ k : Nat, k ≠ rootId → k < t.size → ∃ i : Nat, i < k ∧ t.parent? k = some i
  /-- A rule stands once in the list of its parent and in no other list. -/
  count : ∀ i k : Nat, (t.childrenOf i).count k = if t.parent? k = some i then 1 else 0

theorem linked_ofRoot (root : Rule) : (ofRoot root).Linked where
  size_pos := Nat.zero_lt_one
  parent?_root := rfl
  parent k hk hlt := absurd (Nat.lt_one_iff.mp hlt) hk
  count i k := by cases i <;> cases k <;> rfl

theorem Linked.insert {t : RuleTree} (h : t.Linked) {parent : Nat} (hp : parent < t.size)
    (r : Rule) : (t.insert parent r).Linked where
  size_pos := by simp
  parent?_root := by
    have hne : rootId ≠ t.size := Nat.ne_of_lt h.size_pos
    rw [parent?_insert, if_neg hne, h.parent?_root]
  parent k hk hlt := by
    rw [size_insert] at hlt
    rw [parent?_insert]
    by_cases hnew : k = t.size
    · exact ⟨parent, hnew ▸ hp, if_pos hnew⟩
    · rw [if_neg hnew]
      exact h.parent k hk (by omega)
  count i k := by
    have hold := h.count i k
    rw [childrenOf_insert hp, parent?_insert]
    by_cases hnew : k = t.size
    · have hnone : t.parent? k = none := by
        rw [parent?, node?_eq_none (Nat.le_of_eq hnew.symm)]
        rfl
      rw [hnone, if_neg nofun] at hold
      by_cases hi : i = parent
      · rw [if_pos hi, if_pos hnew, if_pos (by rw [hi]), List.count_append, hold, hnew]
        simp
      · rw [if_neg hi, if_pos hnew, hold, if_neg]
        exact fun heq => hi (Option.some.inj heq).symm
    · rw [if_neg hnew, ← hold]
      by_cases hi : i = parent
      · rw [if_pos hi, List.count_append, List.count_singleton, if_neg, Nat.add_zero]
        simpa using Ne.symm hnew
      · rw [if_neg hi]

theorem Linked.change {t : RuleTree} (h : t.Linked) (id : Nat) (f : Rule → Rule) :
    (t.change id f).Linked where
  size_pos := by simpa using h.size_pos
  parent?_root := by simpa using h.parent?_root
  parent k hk hlt := by
    rw [size_change] at hlt
    simpa using h.parent k hk hlt
  count i k := by simpa using h.count i k

theorem Built.linked {t : RuleTree} (h : t.Built) : t.Linked := by
  induction h with
  | ofRoot root => exact linked_ofRoot root
  | insert _ lt r ih => exact ih.insert lt r
  | change _ id f ih => exact ih.change id f
  | declare _ v ih => exact ⟨ih.size_pos, ih.parent?_root, ih.parent, ih.count⟩

namespace Linked

variable {t : RuleTree} {i j k : Nat}

theorem mem_childrenOf (h : t.Linked) : k ∈ t.childrenOf i ↔ t.parent? k = some i := by
  rw [← List.count_pos_iff, h.count]
  split <;> simp_all

theorem nodup_childrenOf (h : t.Linked) (i : Nat) : (t.childrenOf i).Nodup := by
  refine List.nodup_iff_count_le_one.mpr fun k => ?_
  rw [h.count]
  split <;> omega

theorem parent_lt (h : t.Linked) (hk : t.parent? k = some i) : i < k := by
  have hne : k ≠ rootId := by
    rintro rfl
    rw [h.parent?_root] at hk
    cases hk
  obtain ⟨p, hlt, hp⟩ := h.parent k hne (lt_size_of_parent? hk)
  obtain rfl : p = i := Option.some.inj (hp.symm.trans hk)
  exact hlt

theorem descending (h : t.Linked) : t.Descending := fun i k hk => by
  have hparent := h.mem_childrenOf.mp hk
  exact ⟨h.parent_lt hparent, lt_size_of_parent? hparent⟩

end Linked

/-! ## Induction -/

/-- Children come after their parents, and the rules come to an end. So what holds of a rule if it
holds of its children holds of all rules. -/
theorem Descending.induction {t : RuleTree} (h : t.Descending) {P : Nat → Prop}
    (step : ∀ id < t.size, (∀ k ∈ t.childrenOf id, P k) → P id) : ∀ id < t.size, P id := by
  intro id hid
  induction hdistance : t.size - id using Nat.strongRecOn generalizing id with
  | ind distance ih =>
    refine step id hid fun k hk => ?_
    have hbounds := h id k hk
    exact ih (t.size - k) (by omega) k hbounds.2 rfl

/-! ## Rules below a rule -/

/-- The rule `k` is the rule `i`, or one of its children is, or one of theirs, and so on. -/
inductive Below (t : RuleTree) (i : Nat) : Nat → Prop
  | self : Below t i i
  | child {k j : Nat} (h : Below t i k) (parent : t.parent? j = some k) : Below t i j

theorem Below.trans {t : RuleTree} {i j k : Nat} (h : t.Below i j) (h' : t.Below j k) :
    t.Below i k := by
  induction h' with
  | self => exact h
  | child _ parent ih => exact ih.child parent

theorem Below.mono {t t' : RuleTree} {i k : Nat} (h : t.Below i k)
    (hparent : ∀ j a : Nat, t.parent? j = some a → t'.parent? j = some a) : t'.Below i k := by
  induction h with
  | self => exact .self
  | child _ parent ih => exact ih.child (hparent _ _ parent)

theorem Below.insert {t : RuleTree} {i k : Nat} (h : t.Below i k) (parent : Nat) (r : Rule) :
    (t.insert parent r).Below i k := by
  apply h.mono
  intro j a hj
  have hlt := lt_size_of_parent? hj
  rw [parent?_insert, if_neg (Nat.ne_of_lt hlt)]
  exact hj

theorem Below.change {t : RuleTree} {i k : Nat} (h : t.Below i k) (id : Nat) (f : Rule → Rule) :
    (t.change id f).Below i k := by
  apply h.mono
  intro j a hj
  rwa [parent?_change]

/-- What is below a rule stays below it. -/
theorem Grows.keeps_below {t t' : RuleTree} {scope i k : Nat} (h : t.Grows scope t')
    (hbelow : t.Below i k) : t'.Below i k := by
  induction h with
  | refl => exact hbelow
  | insert _ _ _ _ ih => exact ih.insert _ _
  | change _ _ _ ih => exact ih.change _ _
  | declare _ v ih => exact ih.mono fun _ _ h => h

namespace Linked

variable {t : RuleTree} {i j k : Nat}

theorem le_of_below (h : t.Linked) (hbelow : t.Below i k) : i ≤ k := by
  induction hbelow with
  | self => exact Nat.le_refl _
  | child _ parent ih => exact Nat.le_trans ih (Nat.le_of_lt (h.parent_lt parent))

theorem below_root (h : t.Linked) (hk : k < t.size) : t.Below rootId k := by
  induction k using Nat.strongRecOn with
  | ind k ih =>
    by_cases hroot : k = rootId
    · rw [hroot]
      exact .self
    · obtain ⟨i, hlt, hparent⟩ := h.parent k hroot hk
      exact (ih i hlt (by omega)).child hparent

/-- The ways up from a rule are parts of one way. -/
theorem below_or_below (hi : t.Below i k) (hj : t.Below j k) : t.Below i j ∨ t.Below j i := by
  induction hj with
  | self => exact .inl hi
  | child hj parent ih =>
    cases hi with
    | self => exact .inr (hj.child parent)
    | child hi parent' =>
      obtain rfl := Option.some.inj (parent'.symm.trans parent)
      exact ih hi

theorem not_below_siblings (h : t.Linked) {above : Nat} (hi : t.parent? i = some above)
    (hj : t.parent? j = some above) (hne : i ≠ j) (hbelow : t.Below i k) : ¬ t.Below j k := by
  -- A sibling below another one would have its parent below this one too.
  have hnot {i j : Nat} (hi : t.parent? i = some above) (hj : t.parent? j = some above)
      (hne : i ≠ j) : ¬ t.Below i j := by
    intro hij
    cases hij with
    | self => exact hne rfl
    | child hia parent =>
      obtain rfl := Option.some.inj (parent.symm.trans hj)
      exact Nat.not_lt_of_le (h.le_of_below hia) (h.parent_lt hi)
  intro hbelow'
  rcases below_or_below hbelow hbelow' with hij | hji
  · exact hnot hi hj hne hij
  · exact hnot hj hi (Ne.symm hne) hji

end Linked

end DeliveryRules.RuleTree
