import DeliveryRules.Proofs.Rule.Links
import DeliveryRules.Proofs.Rule.Parts

/-!
# Ways through a tree

A linked tree is walked in four ways, which agree.

- **Upwards** (`Linked.rootOf_eq`): the topmost rule above a rule is the root.
- **Order** (`ids_outlineAt`): an outline gives a rule before the rules below it, child after child.
  Each rule is there once (`Linked.nodup_ids`), and the walk that keeps a list of rules that wait
  gives the same (`Linked.walk_eq`).
- **Depth** (`RuleTree.Branch`): a way from a rule down to one without children, each step from a
  parent to a child. The depth is the length of the longest (`exists_branch`, `Branch.length_le`).
- **Document** (`Json.ruleObjects`): the objects that stand for rules in a document, in the order in
  which they are written. They are those of the rules in the order of the walk
  (`Linked.ruleObjects_rules`).
-/

namespace DeliveryRules

namespace RuleTree

variable {t : RuleTree}

/-! ## Upwards -/

theorem Linked.climb_eq (h : t.Linked) {fuel id : Nat} (hfuel : id ≤ fuel) (hid : id < t.size) :
    t.climb fuel id = rootId := by
  induction fuel generalizing id with
  | zero => exact Nat.le_zero.mp hfuel
  | succ fuel ih =>
    rw [climb]
    by_cases hroot : id = rootId
    · rw [hroot, h.parent?_root]
    · obtain ⟨i, hlt, hparent⟩ := h.parent id hroot hid
      rw [hparent]
      exact ih (by omega) (by omega)

theorem Linked.rootOf_eq (h : t.Linked) {id : Nat} (hid : id < t.size) : t.rootOf id = rootId :=
  h.climb_eq (Nat.le_of_lt hid) hid

/-! ## Order -/

theorem idsBelow_eq (os : List Outline) : Outline.ids.idsBelow os = os.flatMap Outline.ids := by
  induction os with
  | nil => rfl
  | cons o os ih => rw [Outline.ids.idsBelow, ih, List.flatMap_cons]

/-- A rule comes before those below it, which come child after child. -/
theorem ids_outlineAt (h : t.Descending) {id : Nat} (hid : id < t.size) :
    (t.outlineAt id).ids = id :: (t.childrenOf id).flatMap fun k => (t.outlineAt k).ids := by
  rw [outlineAt_eq h hid, Outline.ids, idsBelow_eq, List.flatMap_map]

theorem Linked.mem_ids (h : t.Linked) {i k : Nat} (hi : i < t.size) :
    k ∈ (t.outlineAt i).ids ↔ t.Below i k := by
  constructor
  · have hall : ∀ i < t.size, k ∈ (t.outlineAt i).ids → t.Below i k := by
      refine h.descending.induction fun i hi ih hk => ?_
      rw [ids_outlineAt h.descending hi] at hk
      rcases List.mem_cons.mp hk with rfl | hk
      · exact .self
      · obtain ⟨c, hc, hk⟩ := List.mem_flatMap.mp hk
        have hchild : t.Below i c := Below.self.child (h.mem_childrenOf.mp hc)
        exact hchild.trans (ih c hc hk)
    exact hall i hi
  · intro hbelow
    induction hbelow with
    | self =>
      rw [ids_outlineAt h.descending hi]
      exact List.mem_cons_self
    | @child k j _ parent ih =>
      -- The outline goes on with the children of each rule in it.
      have hj := h.mem_childrenOf.mpr parent
      have hclosed : ∀ i < t.size, k ∈ (t.outlineAt i).ids → j ∈ (t.outlineAt i).ids := by
        refine h.descending.induction fun i hi ih hk => ?_
        rw [ids_outlineAt h.descending hi] at hk ⊢
        rcases List.mem_cons.mp hk with rfl | hk
        · refine List.mem_cons_of_mem _ (List.mem_flatMap.mpr ⟨j, hj, ?_⟩)
          rw [ids_outlineAt h.descending (h.descending k j hj).2]
          exact List.mem_cons_self
        · obtain ⟨c, hc, hk⟩ := List.mem_flatMap.mp hk
          exact List.mem_cons_of_mem _ (List.mem_flatMap.mpr ⟨c, hc, ih c hc hk⟩)
      exact hclosed i hi ih

theorem Linked.nodup_ids (h : t.Linked) : ∀ i < t.size, (t.outlineAt i).ids.Nodup := by
  refine h.descending.induction fun i hi ih => ?_
  have hlt {k : Nat} (hk : k ∈ t.childrenOf i) := h.descending i k hk
  rw [ids_outlineAt h.descending hi, List.nodup_cons]
  constructor
  · intro hmem
    obtain ⟨c, hc, hmem⟩ := List.mem_flatMap.mp hmem
    have hle := h.le_of_below ((h.mem_ids (hlt hc).2).mp hmem)
    exact Nat.not_lt_of_le hle (hlt hc).1
  · refine List.nodup_flatMap.mpr ⟨ih, ?_⟩
    refine (h.nodup_childrenOf i).imp_of_mem fun {a b} ha hb hne => ?_
    intro x hx hx'
    have hbelow := (h.mem_ids (hlt ha).2).mp hx
    have hbelow' := (h.mem_ids (hlt hb).2).mp hx'
    exact h.not_below_siblings (h.mem_childrenOf.mp ha) (h.mem_childrenOf.mp hb) hne hbelow hbelow'

theorem Linked.ids_perm (h : t.Linked) : t.outline.ids.Perm (List.range t.size) := by
  refine (List.perm_ext_iff_of_nodup (h.nodup_ids _ h.size_pos) List.nodup_range).mpr fun k => ?_
  rw [List.mem_range, h.mem_ids h.size_pos]
  constructor
  · intro hbelow
    cases hbelow with
    | self => exact h.size_pos
    | child _ parent => exact lt_size_of_parent? parent
  · exact h.below_root

/-- What is given of the rules that wait are their outlines, one after the other. -/
theorem Linked.visit_eq (h : t.Linked) {fuel : Nat} {stack : List RuleId}
    (hstack : ∀ id ∈ stack, id < t.size)
    (hfuel : (stack.flatMap fun id => (t.outlineAt id).ids).length ≤ fuel) :
    t.visit fuel stack = stack.flatMap fun id => (t.outlineAt id).ids := by
  induction fuel generalizing stack with
  | zero => exact (List.eq_nil_of_length_eq_zero (Nat.le_zero.mp hfuel)).symm
  | succ fuel ih =>
    cases stack with
    | nil => rfl
    | cons id rest =>
      rw [List.forall_mem_cons] at hstack
      obtain ⟨n, hn⟩ := Option.isSome_iff_exists.mp (isSome_node? hstack.1)
      have hchildren : n.children = t.childrenOf id := by rw [childrenOf, hn]; rfl
      have houtline : ((id :: rest).flatMap fun id => (t.outlineAt id).ids) =
          id :: (n.children ++ rest).flatMap fun id => (t.outlineAt id).ids := by
        rw [List.flatMap_cons, ids_outlineAt h.descending hstack.1, hchildren, List.flatMap_append]
        rfl
      rw [houtline, List.length_cons] at hfuel
      rw [visit, hn, houtline]
      refine congrArg (id :: ·) (ih ?_ (by omega))
      intro k hk
      rcases List.mem_append.mp hk with hk | hk
      · exact (h.descending id k (hchildren ▸ hk)).2
      · exact hstack.2 k hk

theorem Linked.walk_eq (h : t.Linked) : t.walk = t.outline.ids := by
  have hlength : t.outline.ids.length = t.size := by
    simpa using h.ids_perm.length_eq
  have hvisit : t.visit (t.size + 1) [rootId] =
      [rootId].flatMap fun id => (t.outlineAt id).ids := by
    refine h.visit_eq (fun id hid => List.mem_singleton.mp hid ▸ h.size_pos) ?_
    rw [List.flatMap_singleton]
    exact Nat.le_succ_of_le (Nat.le_of_eq hlength)
  rwa [List.flatMap_singleton] at hvisit

/-! ## Depth -/

/-- A way down from a rule to one without children. -/
inductive Branch (t : RuleTree) : Nat → List Nat → Prop
  | leaf {id : Nat} (h : t.childrenOf id = []) : Branch t id [id]
  | step {id k : Nat} {way : List Nat} (parent : t.parent? k = some id) (h : Branch t k way) :
      Branch t id (id :: way)

theorem depth_le_deepest {os : List Outline} {o : Outline} (h : o ∈ os) :
    o.depth ≤ Outline.depth.deepest os := by
  induction os with
  | nil => cases h
  | cons first rest ih =>
    rw [Outline.depth.deepest]
    rcases List.mem_cons.mp h with rfl | h
    · exact Nat.le_max_left _ _
    · exact Nat.le_trans (ih h) (Nat.le_max_right _ _)

theorem exists_depth_eq_deepest {os : List Outline} (h : os ≠ []) :
    ∃ o ∈ os, o.depth = Outline.depth.deepest os := by
  induction os with
  | nil => exact absurd rfl h
  | cons first rest ih =>
    by_cases hrest : Outline.depth.deepest rest ≤ first.depth
    · exact ⟨first, List.mem_cons_self, by rw [Outline.depth.deepest]; omega⟩
    · have hne : rest ≠ [] := by
        rintro rfl
        exact hrest (Nat.zero_le _)
      obtain ⟨o, ho, hdepth⟩ := ih hne
      exact ⟨o, List.mem_cons_of_mem _ ho, by rw [Outline.depth.deepest]; omega⟩

theorem depth_outlineAt (h : t.Descending) {id : Nat} (hid : id < t.size) :
    (t.outlineAt id).depth = Outline.depth.deepest ((t.childrenOf id).map t.outlineAt) + 1 := by
  rw [outlineAt_eq h hid, Outline.depth]

/-- No way down from a rule has more rules than the depth says. -/
theorem Branch.length_le (h : t.Linked) {id : Nat} {way : List Nat} (hway : t.Branch id way)
    (hid : id < t.size) : way.length ≤ (t.outlineAt id).depth := by
  induction hway with
  | leaf _ =>
    rw [depth_outlineAt h.descending hid]
    exact Nat.le_add_left _ _
  | @step id k way parent _ ih =>
    have hk := h.mem_childrenOf.mpr parent
    have hdeepest := depth_le_deepest (List.mem_map_of_mem (f := t.outlineAt) hk)
    have hlength := ih (h.descending id k hk).2
    rw [List.length_cons, depth_outlineAt h.descending hid]
    omega

/-- Some way down from a rule has as many rules as the depth says. -/
theorem Linked.exists_branch (h : t.Linked) :
    ∀ id < t.size, ∃ way, t.Branch id way ∧ way.length = (t.outlineAt id).depth := by
  refine h.descending.induction fun id hid ih => ?_
  rw [depth_outlineAt h.descending hid]
  by_cases hleaf : t.childrenOf id = []
  · exact ⟨[id], .leaf hleaf, by simp [hleaf, Outline.depth.deepest]⟩
  · have hne : (t.childrenOf id).map t.outlineAt ≠ [] := by simpa using hleaf
    obtain ⟨o, ho, hdepth⟩ := exists_depth_eq_deepest hne
    obtain ⟨k, hk, rfl⟩ := List.mem_map.mp ho
    obtain ⟨way, hway, hlength⟩ := ih k hk
    exact ⟨id :: way, .step (h.mem_childrenOf.mp hk) hway,
      by rw [List.length_cons, hlength, hdepth]⟩

end RuleTree

/-! ## Document -/

namespace Json

mutual

/-- The objects that stand for rules in the value of a rule: first the value itself, then those in
its children. -/
def ruleObjects : Json → List Json
  | .object members => .object members :: ruleObjectsBelow members
  | _ => []

def ruleObjectsBelow : List (String × Json) → List Json
  | [] => []
  | ("children", .array items) :: members => ruleObjectsIn items ++ ruleObjectsBelow members
  | _ :: members => ruleObjectsBelow members

def ruleObjectsIn : List Json → List Json
  | [] => []
  | j :: js => ruleObjects j ++ ruleObjectsIn js

end

theorem ruleObjectsIn_eq (items : List Json) : ruleObjectsIn items = items.flatMap ruleObjects := by
  induction items with
  | nil => rfl
  | cons j js ih => rw [ruleObjectsIn, ih, List.flatMap_cons]

theorem ruleObjectsBelow_cons (m : String × Json) (ms : Members) :
    ruleObjectsBelow (m :: ms) = ruleObjectsBelow [m] ++ ruleObjectsBelow ms := by
  obtain ⟨name, j⟩ := m
  by_cases hname : name = "children"
  · subst hname
    cases j <;> simp [ruleObjectsBelow]
  · simp [ruleObjectsBelow, hname]

theorem ruleObjectsBelow_append (ms ms' : Members) :
    ruleObjectsBelow (ms ++ ms') = ruleObjectsBelow ms ++ ruleObjectsBelow ms' := by
  induction ms with
  | nil => rfl
  | cons m ms ih =>
    rw [List.cons_append, ruleObjectsBelow_cons, ih, ruleObjectsBelow_cons m ms, List.append_assoc]

theorem ruleObjectsBelow_eq_nil {ms : Members} (h : ∀ m ∈ ms, m.1 ≠ "children") :
    ruleObjectsBelow ms = [] := by
  induction ms with
  | nil => rfl
  | cons m ms ih =>
    obtain ⟨name, j⟩ := m
    obtain ⟨hm, hms⟩ := List.forall_mem_cons.mp h
    have hname : name ≠ "children" := hm
    rw [ruleObjectsBelow_cons, ih hms]
    simp [ruleObjectsBelow, hname]

end Json

theorem eq_of_mem_unlessEmpty {name : String} {items : List Json} {m : String × Json}
    (h : m ∈ unlessEmpty name items) : m = (name, .array items) := by
  unfold unlessEmpty at h
  split at h
  · cases h
  · exact List.mem_singleton.mp h

/-- Only the children of a rule hold other rules. -/
theorem Rule.ruleObjects_toMembers (r : Rule) (declared children : List Json) :
    (Json.object (r.toMembers declared children)).ruleObjects =
      .object (r.toMembers declared children) :: children.flatMap Json.ruleObjects := by
  rw [Json.ruleObjects, toMembers, Json.ruleObjectsBelow_append]
  congr 1
  have hchildren : Json.ruleObjectsBelow (unlessEmpty "children" children) =
      children.flatMap Json.ruleObjects := by
    cases children with
    | nil => rfl
    | cons j js =>
      rw [unlessEmpty, List.isEmpty_cons, if_neg Bool.false_ne_true, Json.ruleObjectsBelow,
        Json.ruleObjectsIn_eq, Json.ruleObjectsBelow, List.append_nil]
  rw [hchildren, Json.ruleObjectsBelow_eq_nil, List.nil_append]
  intro m hm
  simp only [List.mem_append, List.mem_cons, List.not_mem_nil, or_false, Option.mem_toList,
    Option.map_eq_some_iff] at hm
  rcases hm with ((((((rfl | rfl) | ⟨p, -, rfl⟩) | hm) | ⟨p, -, rfl⟩) | hm) | hm)
  · simp
  · simp
  · simp
  · simp [eq_of_mem_unlessEmpty hm]
  · simp
  · simp [eq_of_mem_unlessEmpty hm]
  · simp [eq_of_mem_unlessEmpty hm]

namespace RuleTree

variable {t : RuleTree}

theorem Descending.ruleObjects_ruleJson (h : t.Descending) :
    ∀ id < t.size, (t.ruleJson id).ruleObjects = (t.outlineAt id).ids.map t.ruleJson := by
  refine h.induction fun id hid ih => ?_
  rw [ids_outlineAt h hid, List.map_cons, ruleJson_eq h hid, Rule.ruleObjects_toMembers,
    List.flatMap_map, List.map_flatMap]
  congr 1
  exact List.flatMap_congr ih

/-- The rules of the document are those of the tree, in the order of the walk. -/
theorem Linked.ruleObjects_rules (h : t.Linked) : t.rules.ruleObjects = t.walk.map t.ruleJson := by
  rw [h.walk_eq]
  exact h.descending.ruleObjects_ruleJson rootId h.size_pos

theorem name_ruleJson (h : t.Descending) {id : Nat} (hid : id < t.size) :
    (t.ruleJson id).memberString? "name" = some (t.ruleAt id).label := by
  rw [ruleJson_eq h hid, Json.memberString?, Json.member?, Json.asObject?, Option.bind_some,
    get?_toMembers]
  rfl

end RuleTree

end DeliveryRules
