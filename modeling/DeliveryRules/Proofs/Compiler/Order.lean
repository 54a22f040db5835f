import DeliveryRules.Proofs.Compiler.Growth
import DeliveryRules.Proofs.Rule.Traversals

/-!
# The order of rules

- **Ordered trees** (`RuleTree.Ordered`): every rule has one place in the tree, no link leads
  nowhere, and the ways through the tree agree: the way up, the outline, the walk, the depth and the
  document.
- `Compiler.run_ordered`: every tree that comes of a root alone by putting in rules and changing
  their content is ordered, and every tree of a run is such a tree, whatever calls fail in it.
-/

namespace DeliveryRules

open RuleTree (rootId)

/-- Every rule has one place in the tree, and the ways through the tree agree on it. -/
structure RuleTree.Ordered (t : RuleTree) : Prop where
  linked : t.Linked
  /-- No link leads nowhere. -/
  isSome_parent : ∀ i k : Nat, t.parent? k = some i → (t.node? i).isSome
  isSome_child : ∀ i k : Nat, k ∈ t.childrenOf i → (t.node? k).isSome
  /-- The way up from a rule ends at the root. -/
  top : ∀ id < t.size, t.Below rootId id ∧ t.rootOf id = rootId
  /-- A rule stands in the outline above its children, which are in their order. -/
  outlineAt : ∀ id < t.size,
    t.outlineAt id = .node id (t.ruleAt id) ((t.childrenOf id).map t.outlineAt)
  walk : t.walk = t.outline.ids
  /-- The walk comes by each rule once. -/
  once : t.walk.Perm (List.range t.size)
  longest : ∃ way, t.Branch rootId way ∧ way.length = t.depth
  length_le_depth : ∀ way, t.Branch rootId way → way.length ≤ t.depth
  /-- The document has the rules in the order of the walk. -/
  document : t.rules.ruleObjects = t.walk.map t.ruleJson
  name : ∀ id < t.size, (t.ruleJson id).memberString? "name" = some (t.ruleAt id).label

theorem RuleTree.Linked.ordered {t : RuleTree} (h : t.Linked) : t.Ordered where
  linked := h
  isSome_parent i k hk := by
    have hlt := h.parent_lt hk
    have hsize := lt_size_of_parent? hk
    exact isSome_node? (Nat.lt_trans hlt hsize)
  isSome_child i k hk := isSome_node? (h.descending i k hk).2
  top id hid := ⟨h.below_root hid, h.rootOf_eq hid⟩
  outlineAt id hid := outlineAt_eq h.descending hid
  walk := h.walk_eq
  once := by
    rw [h.walk_eq]
    exact h.ids_perm
  longest := h.exists_branch rootId h.size_pos
  length_le_depth _ hway := hway.length_le h h.size_pos
  document := h.ruleObjects_rules
  name id hid := name_ruleJson h.descending hid

namespace Compiler

/-- Every tree of a run comes of a root alone by putting in rules and changing their content. -/
theorem run_built (c : Compiler) (script : List Step) :
    ∀ t ∈ freshTree :: (c.run script).tree :: (c.run script).moments.map (·.tree), t.Built := by
  apply run_throughout
  · intro call _ scope t hscope ht
    exact (c.perform_grows call hscope).1.built ht
  · exact .ofRoot _

/-- What comes of a root alone by putting in rules without children and changing their content is
ordered. So is the tree of a run after every call, whatever becomes of it, and in the end. -/
theorem run_ordered :
    (∀ t : RuleTree, t.Built → t.Ordered) ∧
      ∀ (c : Compiler) (script : List Step),
        ∀ t ∈ freshTree :: (c.run script).tree :: (c.run script).moments.map (·.tree),
          t.Built := by
  constructor
  · intro t ht
    exact ht.linked.ordered
  · intro c script
    exact c.run_built script

/-- A rule with a rule below it, and another rule after it. -/
def branchingTree : RuleTree :=
  (((RuleTree.ofRoot {}).insert 0 { name := some "a" }).insert 0 { name := some "b" }).insert 1
    { name := some "c" }

/-- A group that holds a rule, put in after a call that failed. -/
def recoveringScript : List Step :=
  [.mk (.group ⟨"rules/site", 1⟩ "a" none) false
    [.mk (.criteria ⟨⟨"rules/site", 2⟩, "unknown", .null⟩) true [],
      .mk (.criteria ⟨⟨"rules/site", 3⟩, "path", .null⟩) false []]]

theorem run_ordered_branching :
    branchingTree.Built ∧ branchingTree.walk = [0, 1, 3, 2] ∧ branchingTree.depth = 3 ∧
      branchingTree.Ordered ∧
      (plainCompiler.run recoveringScript).moments.map (·.failure.isSome) = [false, true, false] ∧
      (plainCompiler.run recoveringScript).tree.walk = [0, 1, 2] ∧
      (plainCompiler.run recoveringScript).tree.Ordered := by
  have hbuilt : branchingTree.Built :=
    ((RuleTree.Built.ofRoot _).insert (by decide) _).insert (by decide) _ |>.insert (by decide) _
  have hrun := run_ordered.2 plainCompiler recoveringScript _
    (List.mem_cons_of_mem _ List.mem_cons_self)
  exact ⟨hbuilt, by decide +kernel, by decide +kernel, run_ordered.1 _ hbuilt, by decide +kernel,
    by decide +kernel, run_ordered.1 _ hrun⟩

end Compiler

end DeliveryRules
