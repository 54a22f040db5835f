import DeliveryRules.Compiler.Setup
import DeliveryRules.Rule.Document

/-!
# Scripts

A script is a list of calls that build a tree. Each call is made on a rule; some give back a new
rule below it, the others the same rule. A script may go on with calls on the rule that was given
back.

* `Call`: the calls. `Compiler.perform` makes a call.
* `Step`: a call, whether its failure is caught, and the steps on what it gives back.
* `Compiler.run`: makes the calls of a script on a fresh tree. An error that is not caught ends the
  run. What a call did before it failed stays done.
* `Moment`: the tree as it was right after a call.
-/

namespace DeliveryRules

/-- A use of a capability in a source file. -/
structure Entry where
  site : Site
  name : String
  options : Json

inductive Call where
  | name (text : String)
  | comment (text : String)
  | behavior (entry : Entry)
  | criteria (entry : Entry)
  /-- A behavior or a criterion, as the kind says. -/
  | add (kind : Capability.Kind) (entry : Entry)
  | group (site : Site) (label : String) (comment : Option String)
  | compose (policy : MatchPolicy) (site : Site) (entries : List Entry)
  | importFile (site : Site) (expression : String)

inductive Step where
  | mk (call : Call) (caught : Bool) (inner : List Step)

namespace Compiler

def use (c : Compiler) (kind : Capability.Kind) (e : Entry) : Build Capability :=
  c.capability kind e.name e.options (.ofSite e.site)

/-- Puts a new rule into the tree and gives back its number. -/
def child (parent : RuleId) (r : Rule) : Build RuleId := do
  let id := (← get).nextId
  modify fun t => t.insert parent r
  return id

def addBehavior (c : Compiler) (scope : RuleId) (e : Entry) : Build RuleId := do
  let use ← c.use .behavior e
  modify fun t => t.change scope (Rule.addBehavior use)
  return scope

def addCriterion (c : Compiler) (scope : RuleId) (e : Entry) : Build RuleId := do
  let use ← c.use .criteria e
  child scope { criteria := [use], provenance := some (.ofSite e.site) }

/-- Makes a call on a rule and gives back the rule to go on with. -/
def perform (c : Compiler) (scope : RuleId) : Call → Build RuleId
  | .name text => do
    modify fun t => t.change scope fun r => { r with name := some text }
    return scope
  | .comment text => do
    modify fun t => t.change scope fun r => { r with comment := some text }
    return scope
  | .behavior e => c.addBehavior scope e
  | .criteria e => c.addCriterion scope e
  | .add .behavior e => c.addBehavior scope e
  | .add .criteria e => c.addCriterion scope e
  | .group site label comment =>
    child scope { name := some label, comment := comment, provenance := some (.ofSite site) }
  | .compose policy site entries => do
    let uses ← entries.mapM (c.use .criteria)
    child scope { criteria := uses, policy := some policy, provenance := some (.ofSite site) }
  | .importFile site expression => do
    c.toWorkshop.importFile (site.directory c.sourceRoot) scope expression
    return scope

end Compiler

/-- The tree right after a call: the rule given back, or the one called on if the call failed. -/
structure Moment where
  call : Call
  rule : RuleId
  failure : Option CompileError
  tree : RuleTree

/-- What a run, or a part of it, has come to. -/
structure Outcome where
  moments : List Moment
  tree : RuleTree
  /-- The error that ended the run. -/
  failure : Option CompileError

/-- What a run comes to that started with `first` and went on with `next`, unless it had ended. -/
def Outcome.followedBy (first : Outcome) (next : RuleTree → Outcome) : Outcome :=
  match first.failure with
  | some _ => first
  | none =>
    let rest := next first.tree
    { rest with moments := first.moments ++ rest.moments }

namespace Compiler

mutual

def runStep (c : Compiler) (scope : RuleId) : Step → RuleTree → Outcome
  | .mk call caught inner, t =>
    match (c.perform scope call).run t with
    | (.ok id, t') => Outcome.followedBy ⟨[⟨call, id, none, t'⟩], t', none⟩ (runSteps c id inner)
    | (.error e, t') => ⟨[⟨call, scope, some e, t'⟩], t', if caught then none else some e⟩

def runSteps (c : Compiler) (scope : RuleId) : List Step → RuleTree → Outcome
  | [], t => ⟨[], t, none⟩
  | s :: ss, t => (runStep c scope s t).followedBy (runSteps c scope ss)

end

/-- The tree that a run starts with. -/
def freshTree : RuleTree := .ofRoot { name := some rootName }

def run (c : Compiler) (script : List Step) : Outcome :=
  c.runSteps RuleTree.rootId script freshTree

/-- The tree that a script builds, and its document. -/
def compile (c : Compiler) (script : List Step) : Except CompileError (RuleTree × Document) :=
  let outcome := c.run script
  match outcome.failure with
  | some e => .error e
  | none => .ok (outcome.tree, outcome.tree.document c.ruleFormat)

end Compiler

end DeliveryRules
