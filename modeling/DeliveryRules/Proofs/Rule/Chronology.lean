import DeliveryRules.Proofs.Rule.Traversals

/-!
# The order in which rules were put in

In general the walk through a tree does not give the rules in the order in which they were put in: a
rule can get a child after its next sibling was put in.

- **Chronological trees** (`RuleTree.Chronological`): every rule was put in below a rule that had
  the newest rule below it. This says nothing of the walk, and an insertion keeps it easily.
- **Families** (`Chronological.lt_of_below`): all that is below a rule came before its next sibling.
- `Built.walk_eq_range`: so the walk through a chronological tree counts up from zero.
- **Open rules** (`RuleTree.Open`): a rule that has the newest one below it can get another child
  (`Open.insert`), and stays open while there is work below it (`Open.of_below`).
-/

namespace DeliveryRules.RuleTree

variable {t t' : RuleTree}

/-! ## Chronological trees -/

/-- The parent of a rule has the rule below it that was put in just before. -/
def Chronological (t : RuleTree) : Prop :=
  ∀ k : Nat, k + 1 < t.size → ∃ i : Nat, t.parent? (k + 1) = some i ∧ t.Below i k

/-- The children of a rule stand in the order in which they were put in. -/
theorem Built.sorted_childrenOf (h : t.Built) (i : Nat) :
    (t.childrenOf i).Pairwise (· < ·) := by
  induction h with
  | ofRoot root => cases i <;> exact .nil
  | @insert t parent h lt r ih =>
    rw [childrenOf_insert lt]
    split
    · refine List.pairwise_append.mpr ⟨ih, List.pairwise_singleton _ _, ?_⟩
      intro k hk l hl
      obtain rfl := List.mem_singleton.mp hl
      exact (h.linked.descending i k hk).2
    · exact ih
  | change _ id f ih => rwa [childrenOf_change]
  | declare _ v ih => exact ih

/-! ## Families -/

/-- All that is below a rule came before its next sibling. -/
theorem Chronological.lt_of_below (hc : t.Chronological) (h : t.Linked) {above i j k : Nat}
    (hi : t.parent? i = some above) (hj : t.parent? j = some above) (hlt : i < j)
    (hk : t.Below i k) : k < j := by
  -- From the sibling on, no rule is below the first: its parent would have been passed over.
  have hnone : ∀ k : Nat, j ≤ k → ¬ t.Below i k := by
    intro k hjk
    induction hjk with
    | refl => exact fun hbelow => h.not_below_siblings hi hj (Nat.ne_of_lt hlt) hbelow .self
    | @step k hjk ih =>
      intro hbelow
      have hjk : j ≤ k := hjk
      cases hbelow with
      | self => omega
      | @child p _ hp parent =>
        obtain ⟨p', parent', hlast⟩ := hc k (lt_size_of_parent? parent)
        obtain rfl := Option.some.inj (parent'.symm.trans parent)
        exact ih (hp.trans hlast)
  by_contra hge
  exact hnone k (Nat.le_of_not_lt hge) hk

theorem Chronological.sorted_ids (hc : t.Chronological) (h : t.Built) :
    ∀ i < t.size, (t.outlineAt i).ids.Pairwise (· < ·) := by
  have hlinked := h.linked
  refine hlinked.descending.induction fun i hi ih => ?_
  have hchild {k : Nat} (hk : k ∈ t.childrenOf i) := hlinked.descending i k hk
  rw [ids_outlineAt hlinked.descending hi, List.pairwise_cons]
  constructor
  · intro x hx
    obtain ⟨k, hk, hx⟩ := List.mem_flatMap.mp hx
    have hle := hlinked.le_of_below ((hlinked.mem_ids (hchild hk).2).mp hx)
    exact Nat.lt_of_lt_of_le (hchild hk).1 hle
  · refine List.pairwise_flatMap.mpr ⟨ih, ?_⟩
    refine (h.sorted_childrenOf i).imp_of_mem fun {k l} hk hl hlt => ?_
    intro x hx y hy
    have hx := (hlinked.mem_ids (hchild hk).2).mp hx
    have hy := hlinked.le_of_below ((hlinked.mem_ids (hchild hl).2).mp hy)
    have hbefore := hc.lt_of_below hlinked (hlinked.mem_childrenOf.mp hk)
      (hlinked.mem_childrenOf.mp hl) hlt hx
    exact Nat.lt_of_lt_of_le hbefore hy

/-- The walk through a chronological tree gives the rules in the order in which they were put in. -/
theorem Built.walk_eq_range (h : t.Built) (hc : t.Chronological) :
    t.walk = List.range t.size := by
  rw [h.linked.walk_eq]
  have hsorted := hc.sorted_ids h rootId h.linked.size_pos
  refine List.Perm.eq_of_pairwise ?_ hsorted List.pairwise_lt_range h.linked.ids_perm
  exact fun _ _ _ _ hab hba => absurd hab (Nat.lt_asymm hba)

/-! ## Open rules -/

/-- The rule that was put in last is below the rule `scope`. -/
structure Open (t : RuleTree) (scope : Nat) : Prop where
  chronological : t.Chronological
  lt_size : scope < t.size
  newest : t.Below scope (t.size - 1)

theorem open_ofRoot (root : Rule) : (ofRoot root).Open rootId where
  chronological k hk := absurd hk (by simp [size, ofRoot])
  lt_size := Nat.zero_lt_one
  newest := .self

/-- Whether a rule is open depends on the parents of the rules alone. -/
theorem Open.congr {scope : Nat} (h : t.Open scope) (hsize : t'.size = t.size)
    (hparent : ∀ k : Nat, t'.parent? k = t.parent? k) : t'.Open scope := by
  have hbelow {i k : Nat} (hik : t.Below i k) : t'.Below i k :=
    hik.mono fun j a hj => by rw [hparent, hj]
  refine ⟨fun k hk => ?_, hsize ▸ h.lt_size, hsize ▸ hbelow h.newest⟩
  rw [hsize] at hk
  obtain ⟨i, hi, hlast⟩ := h.chronological k hk
  exact ⟨i, by rw [hparent, hi], hbelow hlast⟩

theorem Open.of_nodes {scope : Nat} (h : t.Open scope) (hnodes : t'.nodes = t.nodes) :
    t'.Open scope :=
  h.congr (congrArg List.length hnodes) fun k => by rw [parent?, node?, hnodes, parent?, node?]

theorem Open.change {scope : Nat} (h : t.Open scope) (id : Nat) (f : Rule → Rule) :
    (t.change id f).Open scope :=
  h.congr (size_change t id f) (parent?_change t id f)

/-- A new rule below an open one is open. -/
theorem Open.insert {scope : Nat} (h : t.Open scope) (r : Rule) :
    (t.insert scope r).Open t.size := by
  have hparent : (t.insert scope r).parent? t.size = some scope := by
    rw [parent?_insert, if_pos rfl]
  refine ⟨fun k hk => ?_, by simp, by simpa using Below.self⟩
  rw [size_insert] at hk
  by_cases hnew : k + 1 = t.size
  · have hk : t.size - 1 = k := by omega
    exact ⟨scope, hnew ▸ hparent, hk ▸ h.newest.insert scope r⟩
  · obtain ⟨i, hi, hlast⟩ := h.chronological k (by omega)
    exact ⟨i, by rw [parent?_insert, if_neg hnew, hi], hlast.insert scope r⟩

/-- A rule above an open one is open. -/
theorem Open.of_below {scope above : Nat} (h : t.Open scope) (hlt : above < t.size)
    (hbelow : t.Below above scope) : t.Open above :=
  ⟨h.chronological, hlt, hbelow.trans h.newest⟩

end DeliveryRules.RuleTree
