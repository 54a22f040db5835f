import DeliveryRules.Rule.Tree

/-!
# Rules within rules

An `Outline` is a rule together with the outlines of its children: the shape of a tree, from which
it is read by `RuleTree.outline`.

* `Outline.depth`: the number of rules on the longest way down.
* `Outline.drawing`: a line for each rule, with lines from a rule to its children.
-/

namespace DeliveryRules

inductive Outline where
  | node (id : RuleId) (rule : Rule) (children : List Outline)

namespace Outline

def depth : Outline → Nat
  | .node _ _ children => deepest children + 1
where
  deepest : List Outline → Nat
    | [] => 0
    | o :: os => max (depth o) (deepest os)

/-- The numbers of the rules, each before its children. -/
def ids : Outline → List RuleId
  | .node id _ children => id :: idsBelow children
where
  idsBelow : List Outline → List RuleId
    | [] => []
    | o :: os => ids o ++ idsBelow os

private def names (cs : List Capability) : String := ", ".intercalate (cs.map (·.name))

/-- A rule in one line: what it is called, its criteria and its behaviors. -/
def caption (r : Rule) : String :=
  let policy := (r.policy.map fun p => p.name ++ " ").getD ""
  let criteria := if r.criteria.isEmpty then "" else s!" [if {policy}{names r.criteria}]"
  let behaviors := if r.behaviors.isEmpty then "" else " \x7b" ++ names r.behaviors ++ "\x7d"
  r.label ++ criteria ++ behaviors

/-- The lines of the children of a rule, each behind `margin`. -/
def drawBelow (margin : String) : List Outline → String
  | [] => ""
  | [.node _ r children] =>
    margin ++ "└── " ++ caption r ++ "\n" ++ drawBelow (margin ++ "    ") children
  | .node _ r children :: o :: os =>
    margin ++ "├── " ++ caption r ++ "\n" ++ drawBelow (margin ++ "│   ") children ++
      drawBelow margin (o :: os)

def drawing : Outline → String
  | .node _ r children => caption r ++ "\n" ++ drawBelow "" children

end Outline

namespace RuleTree

/-- The outline of a rule. No way down is longer than the number of rules. -/
def outlineFrom (t : RuleTree) : Nat → RuleId → Outline
  | 0, id => .node id (t.ruleAt id) []
  | fuel + 1, id => .node id (t.ruleAt id) ((t.childrenOf id).map (outlineFrom t fuel))

def outline (t : RuleTree) : Outline := t.outlineFrom t.size rootId

def depth (t : RuleTree) : Nat := t.outline.depth

def drawing (t : RuleTree) : String := t.outline.drawing

end RuleTree

end DeliveryRules
