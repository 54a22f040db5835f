import DeliveryRules.Files
import DeliveryRules.Fragment.Basic
import DeliveryRules.Pointer.Locate
import DeliveryRules.Rule.Tree
import DeliveryRules.Schema.Registry

/-!
# Putting fragments into a tree

A fragment becomes a rule of the tree, with its children below it; where a child mentions another
fragment, that one is put in its place. Everything taken from a fragment knows its line there.

* `Build`: a step that changes a tree and may fail. What was done before a failure stays done.
* `Workshop`: what is needed to put rules together.
* `Workshop.capability`: a use of a capability, which also declares the variables it refers to.
* `Workshop.place`: the rule of a fragment, put into the tree.
* `Workshop.importFile`: reads a fragment and places it. The files being read enclose one another,
  so there cannot be more of them than there are files; one that is mentioned inside itself is an
  error.
-/

namespace DeliveryRules

abbrev Build := ExceptT CompileError (StateM RuleTree)

/-- What is needed to put rules together. -/
structure Workshop where
  catalog : Catalog
  registry : Registry
  files : Files
  /-- The version of rules in fragments that name none. -/
  ruleFormat : String
  excerptWidth : Nat

/-- A fragment as it was read. -/
structure Source where
  path : Path
  text : String

namespace Source

/-- The place of a part of a fragment. -/
def provenanceAt (s : Source) (tokens : List String) : Provenance :=
  .atLine s.path (Pointer.locate s.text tokens).line

/-- The directory of a fragment, from which it sees others. -/
def directory (s : Source) : Path := s.path.parent?.getD ⟨""⟩

/-- The fault of a part of a fragment, with the line it is on. -/
def fault (s : Source) (width : Nat) (message pointer : String) : CompileError :=
  let line := (Pointer.locate s.text (Pointer.tokens pointer)).line
  .badFragment s.path
    (.invalid message pointer line (String.ofList (Text.excerpt s.text.toList line width)))

end Source

namespace Workshop

/-- A use of a capability. The variables that its options refer to are declared. -/
def capability (w : Workshop) (kind : Capability.Kind) (name : String) (given : Json)
    (provenance : Provenance) : Build Capability := do
  let d ← check (w.catalog.require kind name)
  let options ← check (d.resolve given)
  set (← check ((← get).declareReferences d options provenance))
  return ⟨name, options, provenance⟩
where
  check {α : Type} (x : Except CompileError α) : Build α := ExceptT.mk (pure x)

/-- The version of a document: the one it names, or that of the workshop. -/
def versionOf (w : Workshop) (document : Json) : String :=
  (document.memberString? "ruleFormat").getD w.ruleFormat

/-- The rule of a fragment, which has to fit the schema of its version. -/
def load (w : Workshop) (s : Source) : Except CompileError FragmentRule := do
  let document ← (Json.read s.text).mapError fun e => .badFragment s.path (.notJson e)
  let version := w.versionOf document
  match w.registry.find? version with
  | none => throw (.unknownRuleFormat version)
  | some schema =>
    match schema.violation? document with
    | some v => throw (s.fault w.excerptWidth v.message v.pointer)
    | none => (FragmentRule.decode document).mapError fun e => s.fault w.excerptWidth e.message ""

/-- What reads a fragment that is mentioned, as seen from a directory, and places it in a rule. -/
abbrev Importer := Path → RuleId → String → Build Unit

/-- Declares the variables of a rule. -/
def placeVariables (s : Source) (way : List String) (declared : List FragmentVariable) :
    Build Unit :=
  declared.zipIdx.forM fun (v, i) => do
    let provenance := s.provenanceAt (way ++ ["variables", toString i])
    modify fun t => t.declare
      ⟨v.name, v.description.getD (Variable.foundAt provenance), v.hidden, v.sensitive, provenance⟩

/-- Puts the uses of capabilities of one kind on a rule, one after the other. -/
def placeEntries (w : Workshop) (s : Source) (kind : Capability.Kind) (way : List String)
    (entries : List FragmentEntry) (put : Capability → Rule → Rule) (id : RuleId) : Build Unit :=
  entries.zipIdx.forM fun (e, i) => do
    let c ← w.capability kind e.name e.options (s.provenanceAt (way ++ [toString i]))
    modify fun t => t.change id (put c)

/-- Puts a new rule into the tree, with what a fragment says of the rule itself. -/
def placeHead (w : Workshop) (s : Source) (h : FragmentHead) (parent : RuleId)
    (way : List String) (provenance : Provenance) : Build RuleId := do
  let id := (← get).nextId
  modify fun t => t.insert parent
    { name := h.name, comment := h.comment, policy := h.policy, provenance := some provenance }
  placeVariables s way h.declared
  w.placeEntries s .criteria (way ++ ["criteria"]) h.criteria Rule.addCriterion id
  w.placeEntries s .behavior (way ++ ["behaviors"]) h.behaviors Rule.addBehavior id
  return id

/-- What a child that mentions a fragment says, without the mark and blanks around the path. -/
def mentioned? (text : String) : Option String :=
  (Text.afterPrefix? includeMark.toList text.toList).map fun cs => String.ofList (Text.trim cs)

mutual

/-- The rule of a fragment as a new child of `parent`. -/
def place (w : Workshop) (importer : Importer) (s : Source) :
    FragmentRule → RuleId → List String → Provenance → Build Unit
  | .mk head children, parent, way, provenance => do
    let id ← w.placeHead s head parent way provenance
    placeChildren w importer s children id (way ++ ["children"]) 0

/-- Children of a rule, of which `count` are placed already. -/
def placeChildren (w : Workshop) (importer : Importer) (s : Source) :
    List FragmentChild → RuleId → List String → Nat → Build Unit
  | [], _, _, _ => pure ()
  | child :: rest, id, way, count => do
    placeChild w importer s child id (way ++ [toString count])
    placeChildren w importer s rest id way (count + 1)

def placeChild (w : Workshop) (importer : Importer) (s : Source) :
    FragmentChild → RuleId → List String → Build Unit
  | .mention text, id, way =>
    match mentioned? text with
    | some expression => importer s.directory id expression
    | none =>
      throw (s.fault w.excerptWidth s!"child reference must start with '{includeMark}'"
        (Pointer.text way))
  | .rule r, id, way => place w importer s r id way (s.provenanceAt way)

end

/-- Reads a fragment and places it. `chain` holds the files that are being read, from the innermost
one on. -/
def importWithin (w : Workshop) : Nat → List Path → Importer
  | 0, _, directory, _, expression =>
    throw (.badFragment (directory.resolve expression) .includesItself)
  | fuel + 1, chain, directory, parent, expression => do
    let path := directory.resolve expression
    if chain.contains path then throw (.badFragment path .includesItself)
    match w.files.read path with
    | .error failure => throw (.unreadable path failure)
    | .ok text =>
      let s : Source := ⟨path, text⟩
      match w.load s with
      | .error e => throw e
      | .ok rule => w.place (w.importWithin fuel (path :: chain)) s rule parent [] (.ofPath path)

/-- Places the fragment that `expression` names, as seen from a directory, as a child of a rule. -/
def importFile (w : Workshop) : Importer := w.importWithin (w.files.count + 1) []

end Workshop

end DeliveryRules
