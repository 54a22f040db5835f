import DeliveryRules.Proofs.Rule.Tree
import DeliveryRules.Rule.Outline

/-!
# Trees without numbers

- `RuleTree.outlineAt`: the outline of a rule. In a well-formed tree it consists of the outlines of
  the children (`outlineAt_eq`), and work elsewhere leaves it as it is (`outlineAt_congr`).
- `Sketch`: a rule with the sketches of its children. It is what remains of an outline without the
  numbers of the rules (`Outline.sketch`), and a value like any other: putting in a child or
  changing a rule gives a new sketch.
- `sketchAt_change`, `sketchAt_newest`, `sketchAt_insert`: how the sketch of a rule changes with the
  tree.
-/

namespace DeliveryRules

/-- A rule with those below it. -/
inductive Sketch where
  | node (rule : Rule) (children : List Sketch)

namespace Sketch

def change (f : Rule → Rule) : Sketch → Sketch
  | .node r children => .node (f r) children

/-- A new last child. -/
def add : Sketch → Sketch → Sketch
  | .node r children, child => .node r (children ++ [child])

end Sketch

/-- The outline without the numbers of the rules. -/
def Outline.sketch : Outline → Sketch
  | .node _ r children => .node r (below children)
where
  below : List Outline → List Sketch
    | [] => []
    | o :: os => sketch o :: below os

theorem Outline.sketch_below (os : List Outline) : sketch.below os = os.map sketch := by
  induction os with
  | nil => rfl
  | cons o os ih => simp [sketch.below, ih]

namespace RuleTree

def outlineAt (t : RuleTree) (id : RuleId) : Outline := t.outlineFrom t.size id

def sketchAt (t : RuleTree) (id : RuleId) : Sketch := (t.outlineAt id).sketch

/-- The outline of a rule depends on the rules from it on only. Any two bounds on the way down will
do that leave room for the rules that come after it. -/
theorem outlineFrom_congr {t t' : RuleTree} (ht : t.Descending) {low : Nat}
    (hsame : ∀ i, low ≤ i → i < t.size → t'.node? i = t.node? i) {fuel fuel' id : Nat}
    (hlow : low ≤ id) (hid : id < t.size) (hf : t.size ≤ id + fuel) (hf' : t.size ≤ id + fuel') :
    t'.outlineFrom fuel' id = t.outlineFrom fuel id := by
  induction fuel generalizing fuel' id with
  | zero => omega
  | succ fuel ih =>
    obtain ⟨fuel', rfl⟩ : ∃ n, fuel' = n + 1 := ⟨fuel' - 1, by omega⟩
    have hnode := hsame id hlow hid
    have hrule : t'.ruleAt id = t.ruleAt id := by rw [ruleAt, hnode, ruleAt]
    have hchildren : t'.childrenOf id = t.childrenOf id := by rw [childrenOf, hnode, childrenOf]
    rw [outlineFrom, outlineFrom, hrule, hchildren]
    congr 1
    refine List.map_congr_left fun k hk => ?_
    have := ht _ k hk
    exact ih (by omega) this.2 (by omega) (by omega)

/-- The outline of a rule is made of those of its children. -/
theorem outlineAt_eq {t : RuleTree} (ht : t.Descending) {id : Nat} (hid : id < t.size) :
    t.outlineAt id = .node id (t.ruleAt id) ((t.childrenOf id).map t.outlineAt) := by
  obtain ⟨n, hn⟩ : ∃ n, t.size = n + 1 := ⟨t.size - 1, by omega⟩
  rw [outlineAt, hn, outlineFrom]
  congr 1
  refine List.map_congr_left fun k hk => ?_
  have := ht _ k hk
  exact outlineFrom_congr ht (fun _ _ _ => rfl) (Nat.le_refl k) this.2 (by omega) (by omega)

theorem outlineAt_congr {t t' : RuleTree} (ht : t.WellFormed) {id : Nat} (hid : id < t.size)
    (hsize : t.size ≤ t'.size) (hsame : ∀ i, id ≤ i → i < t.size → t'.node? i = t.node? i) :
    t'.outlineAt id = t.outlineAt id :=
  outlineFrom_congr ht.descending hsame (Nat.le_refl id) hid (by omega) (by omega)

theorem sketchAt_eq {t : RuleTree} (ht : t.WellFormed) {id : Nat} (hid : id < t.size) :
    t.sketchAt id = .node (t.ruleAt id) ((t.childrenOf id).map t.sketchAt) := by
  rw [sketchAt, outlineAt_eq ht.descending hid, Outline.sketch, Outline.sketch_below, List.map_map]
  rfl

/-- Variables are no part of a sketch. -/
theorem sketchAt_of_nodes {t t' : RuleTree} (ht : t.WellFormed) (h : t'.nodes = t.nodes) {id : Nat}
    (hid : id < t.size) : t'.sketchAt id = t.sketchAt id := by
  have hsize : t'.size = t.size := congrArg List.length h
  rw [sketchAt, outlineAt_congr ht hid (by omega) fun i _ _ => by rw [node?, h, node?], sketchAt]

theorem sketchAt_change {t : RuleTree} (ht : t.WellFormed) {id : Nat} (hid : id < t.size)
    {f : Rule → Rule} (hf : ∀ r, (f r).provenance = r.provenance) :
    (t.change id f).sketchAt id = (t.sketchAt id).change f := by
  have hbelow : (t.childrenOf id).map (t.change id f).sketchAt =
      (t.childrenOf id).map t.sketchAt := by
    refine List.map_congr_left fun k hk => ?_
    have := ht.child hk
    rw [sketchAt, sketchAt, outlineAt_congr ht this.2 (by simp)]
    intro i hi _
    rw [node?_change, if_neg (by omega)]
  rw [sketchAt_eq (ht.change id hf) (by simpa using hid), sketchAt_eq ht hid, childrenOf_change,
    hbelow, ruleAt_change hid, if_pos rfl, Sketch.change]

/-- A rule that was just put in has nothing below it. -/
theorem sketchAt_newest {t : RuleTree} (ht : t.WellFormed) {parent : Nat} (hp : parent < t.size)
    {r : Rule} (hr : r.provenance.isSome) :
    (t.insert parent r).sketchAt t.size = .node r [] := by
  have hnone : t.childrenOf t.size = [] := by simp [childrenOf, node?_eq_none (Nat.le_refl t.size)]
  rw [sketchAt_eq (ht.insert hp hr) (by simp), ruleAt_insert, if_pos rfl, childrenOf_insert hp,
    if_neg (by omega), hnone]
  rfl

/-- A rule that was put in, and then worked on, is a new last child of its parent. -/
theorem sketchAt_insert {t t' : RuleTree} (ht : t.WellFormed) {parent : Nat}
    (hp : parent < t.size) {r : Rule} (hr : r.provenance.isSome)
    (hg : (t.insert parent r).Grows t.size t') :
    t'.sketchAt parent = (t.sketchAt parent).add (t'.sketchAt t.size) := by
  have ht' := hg.wellFormed (ht.insert hp hr)
  have hsize := hg.size_le
  rw [size_insert] at hsize
  have hold {i : Nat} (hi : i < t.size) : t'.node? i = (t.insert parent r).node? i :=
    hg.node?_eq (by rw [size_insert]; omega) (by omega)
  have hrule : t'.ruleAt parent = t.ruleAt parent := by
    rw [ruleAt, hold hp, ← ruleAt, ruleAt_insert, if_neg (by omega)]
  have hchildren : t'.childrenOf parent = t.childrenOf parent ++ [t.size] := by
    rw [childrenOf, hold hp, ← childrenOf, childrenOf_insert hp, if_pos rfl]
  -- The other children have smaller numbers than the new one and larger ones than the parent.
  have hbelow : (t.childrenOf parent).map t'.sketchAt = (t.childrenOf parent).map t.sketchAt := by
    refine List.map_congr_left fun k hk => ?_
    have := ht.child hk
    rw [sketchAt, sketchAt, outlineAt_congr ht this.2 (by omega)]
    intro i hi hlt
    rw [hold hlt, node?_insert, if_neg (by omega), if_neg (by omega)]
  rw [sketchAt_eq ht' (by omega), sketchAt_eq ht hp, hrule, hchildren, List.map_append, hbelow]
  rfl

end RuleTree

end DeliveryRules
