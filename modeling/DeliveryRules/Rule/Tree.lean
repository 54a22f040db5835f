import DeliveryRules.Capability.Reference
import DeliveryRules.Rule.Basic
import DeliveryRules.Rule.Variable

/-!
# Trees of rules under construction

A tree keeps its rules in the order in which they were put in. A rule is known by its number in this
order; the root is rule 0. Rules are added and changed, never taken out.

* `RuleTree.insert`: a new rule as the last child of another.
* `RuleTree.change`: another content for a rule; its place in the tree stays.
* `RuleTree.declare`: a variable, unless its name is taken. `RuleTree.declareReferences`: the
  variables that options refer to.
* `RuleTree.walk`: the numbers of the rules, each before its children, children in order.
-/

namespace DeliveryRules

abbrev RuleId := Nat

structure Node where
  rule : Rule
  parent : Option RuleId
  children : List RuleId

structure RuleTree where
  nodes : List Node
  declared : VariableTable

namespace RuleTree

def rootId : RuleId := 0

def size (t : RuleTree) : Nat := t.nodes.length

/-- A tree that holds nothing but its root. -/
def ofRoot (root : Rule) : RuleTree := ⟨[⟨root, none, []⟩], []⟩

def node? (t : RuleTree) (id : RuleId) : Option Node := t.nodes[id]?

def parent? (t : RuleTree) (id : RuleId) : Option RuleId :=
  (t.node? id).bind (·.parent)

def childrenOf (t : RuleTree) (id : RuleId) : List RuleId :=
  ((t.node? id).map (·.children)).getD []

def ruleAt (t : RuleTree) (id : RuleId) : Rule :=
  ((t.node? id).map (·.rule)).getD {}

/-- The number that the next rule will have. -/
def nextId (t : RuleTree) : RuleId := t.size

def insert (t : RuleTree) (parent : RuleId) (rule : Rule) : RuleTree :=
  let nodes := t.nodes.modify parent fun n => { n with children := n.children ++ [t.nextId] }
  { t with nodes := nodes ++ [⟨rule, some parent, []⟩] }

def change (t : RuleTree) (id : RuleId) (f : Rule → Rule) : RuleTree :=
  { t with nodes := t.nodes.modify id fun n => { n with rule := f n.rule } }

def declare (t : RuleTree) (v : Variable) : RuleTree :=
  { t with declared := t.declared.declare v }

/-- Declares the variables that options refer to. A capability that takes no part in the handling of
variables refers to none. -/
def declareReferences (t : RuleTree) (d : Descriptor) (options : Members) (p : Provenance) :
    Except CompileError RuleTree :=
  if d.variableHandling.isEmpty then .ok t
  else (d.references options).map fun names =>
    names.foldl (fun t name => t.declare (.found name p)) t

/-- Goes up from a rule, no more than a number of times. -/
def climb (t : RuleTree) : Nat → RuleId → RuleId
  | 0, id => id
  | fuel + 1, id =>
    match t.parent? id with
    | some above => climb t fuel above
    | none => id

/-- The topmost rule above a rule. -/
def rootOf (t : RuleTree) (id : RuleId) : RuleId := t.climb t.size id

/-- Takes the rules that wait one after the other; the children of each wait in front of the
rest. -/
def visit (t : RuleTree) : Nat → List RuleId → List RuleId
  | 0, _ => []
  | _ + 1, [] => []
  | fuel + 1, id :: rest =>
    match t.node? id with
    | some n => id :: visit t fuel (n.children ++ rest)
    | none => []

/-- The numbers of the rules, each before its children, children in order. -/
def walk (t : RuleTree) : List RuleId := t.visit (t.size + 1) [rootId]

end RuleTree

end DeliveryRules
