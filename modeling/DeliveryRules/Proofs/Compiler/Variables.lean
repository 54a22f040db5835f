import DeliveryRules.Proofs.Compiler.Sketch
import DeliveryRules.Proofs.Fragment.Planting
import DeliveryRules.Proofs.Fragment.Registered
import DeliveryRules.Proofs.Rule.Index

/-!
# The variables of a run

- **Accounted** (`Compiler.perform_keeps`): whatever becomes of a call, the tree stays accounted.
- **Declarations** (`Step.DeclaresAll`): the variables that a script declares if no call fails, by
  recursion on its steps. An import declares those of the expansion of its file.
- `Compiler.run_variables`: the tree is registered after every call, and if none fails, the table
  holds the first declaration of each name, in the order of the script. The table can be kept with
  an index (`Compiler.run_indexed`).
-/

namespace DeliveryRules

/-! ## What a script declares -/

/-- The use that an entry of a script stands for. -/
def Entry.granted (c : Catalog) (kind : Capability.Kind) (e : Entry) : Except CompileError Use :=
  c.use kind e.name e.options (.ofSite e.site)

/-- The variables that a call declares, if it does not fail. -/
def Call.Declares (c : Compiler) (vs : List Variable) : Call → Prop
  | .name _ | .comment _ | .group .. => vs = []
  | .behavior e | .add .behavior e => (e.granted c.catalog .behavior).map Use.found = .ok vs
  | .criteria e | .add .criteria e => (e.granted c.catalog .criteria).map Use.found = .ok vs
  | .compose _ _ entries =>
    (entries.mapM (Entry.granted c.catalog .criteria)).map (·.flatMap Use.found) = .ok vs
  | .importFile site expression =>
    ∃ e, c.ExpandsFile ((site.directory c.sourceRoot).resolve expression) e ∧
      e.declarations c.catalog = .ok vs

theorem Call.Declares.unique {c : Compiler} {us vs : List Variable} {call : Call}
    (h : call.Declares c us) (h' : call.Declares c vs) : us = vs := by
  cases call with
  | name text | comment text | group site label comment => exact h.trans h'.symm
  | behavior e | criteria e | compose policy site entries => exact Except.ok.inj (h.symm.trans h')
  | add kind e => cases kind <;> exact Except.ok.inj (h.symm.trans h')
  | importFile site expression =>
    obtain ⟨e, hfile, hvs⟩ := h
    obtain ⟨e', hfile', hvs'⟩ := h'
    obtain rfl := hfile.unique hfile'
    exact Except.ok.inj (hvs.symm.trans hvs')

namespace Step

mutual

/-- The variables that a step declares, with those inside it, if no call fails. -/
def Declares (c : Compiler) : Step → List Variable → Prop
  | .mk call _ inner, vs =>
    ∃ own below, call.Declares c own ∧ DeclaresAll c inner below ∧ vs = own ++ below

def DeclaresAll (c : Compiler) : List Step → List Variable → Prop
  | [], vs => vs = []
  | s :: ss, vs => ∃ first rest, Declares c s first ∧ DeclaresAll c ss rest ∧ vs = first ++ rest

end

mutual

theorem Declares.unique {c : Compiler} : ∀ (s : Step) {us vs : List Variable},
    s.Declares c us → s.Declares c vs → us = vs
  | .mk call _ inner, _, _, h, h' => by
    rw [Declares] at h h'
    obtain ⟨own, below, hown, hbelow, rfl⟩ := h
    obtain ⟨own', below', hown', hbelow', rfl⟩ := h'
    rw [hown.unique hown', DeclaresAll.unique inner hbelow hbelow']

theorem DeclaresAll.unique {c : Compiler} : ∀ (ss : List Step) {us vs : List Variable},
    DeclaresAll c ss us → DeclaresAll c ss vs → us = vs
  | [], _, _, h, h' => by
    rw [DeclaresAll] at h h'
    exact h.trans h'.symm
  | s :: ss, _, _, h, h' => by
    rw [DeclaresAll] at h h'
    obtain ⟨first, rest, hfirst, hrest, rfl⟩ := h
    obtain ⟨first', rest', hfirst', hrest', rfl⟩ := h'
    rw [Declares.unique s hfirst hfirst', DeclaresAll.unique ss hrest hrest']

end

end Step

namespace Compiler

variable (c : Compiler)

/-! ## Uses -/

theorem use_outcome (kind : Capability.Kind) (e : Entry) (t : RuleTree) :
    (c.use kind e).outcome t =
      (e.granted c.catalog kind).map fun u => (u.1, t.declareAll (Use.found u)) :=
  c.capability_outcome kind e.name e.options (.ofSite e.site) t

theorem uses_outcome (kind : Capability.Kind) (entries : List Entry) (t : RuleTree) :
    (entries.mapM (c.use kind)).outcome t =
      (entries.mapM (Entry.granted c.catalog kind)).map fun us =>
        (us.map (·.1), t.declareAll (us.flatMap Use.found)) := by
  induction entries generalizing t with
  | nil => rfl
  | cons e entries ih =>
    rw [List.mapM_cons, List.mapM_cons, Build.outcome_bind, use_outcome]
    cases e.granted c.catalog kind with
    | error error => rfl
    | ok u =>
      change (entries.mapM (c.use kind) >>= fun uses => pure (u.1 :: uses)).outcome _ = _
      rw [Build.outcome_bind, ih]
      cases entries.mapM (Entry.granted c.catalog kind) with
      | error error => rfl
      | ok us =>
        change Except.ok (_, (t.declareAll (Use.found u)).declareAll _) =
          Except.ok (_, t.declareAll (Use.found u ++ _))
        rw [RuleTree.declareAll_append]
        rfl

/-! ## Accounted trees -/

theorem use_keeps (kind : Capability.Kind) (e : Entry) :
    (c.use kind e).Keeps (RuleTree.Accounted c.catalog) := by
  rw [← bind_pure (c.use kind e)]
  exact c.capability_keeps _ _ _ _ fun _ _ ht _ => ht

theorem uses_keeps (kind : Capability.Kind) (entries : List Entry) :
    (entries.mapM (c.use kind)).Keeps (RuleTree.Accounted c.catalog) := by
  induction entries with
  | nil => exact Build.keeps_pure _
  | cons e entries ih =>
    rw [List.mapM_cons]
    exact (c.use_keeps kind e).bind fun _ => ih.bind fun _ => Build.keeps_pure _

/-- What goes on with several uses may rely on their variables. -/
theorem uses_then_keeps {α : Type} (kind : Capability.Kind) (entries : List Entry)
    {f : List Capability → Build α}
    (hf : ∀ (uses : List Capability) (t : RuleTree), t.Accounted c.catalog →
      (∀ use ∈ uses, t.Granted c.catalog kind use) → ((f uses).run t).2.Accounted c.catalog) :
    (entries.mapM (c.use kind) >>= f).Keeps (RuleTree.Accounted c.catalog) := by
  intro t ht
  have hkeeps := c.uses_keeps kind entries t ht
  rw [run_bind]
  split
  · rename_i uses t' heq
    have houtcome := c.uses_outcome kind entries t
    rw [Build.outcome_eq_ok.mpr heq] at houtcome
    cases hus : entries.mapM (Entry.granted c.catalog kind) with
    | error e =>
      rw [hus] at houtcome
      cases houtcome
    | ok us =>
      rw [hus] at houtcome
      cases houtcome
      refine hf _ _ (ht.declareAll _) fun use huse => ?_
      obtain ⟨u, hu, rfl⟩ := List.mem_map.mp huse
      obtain ⟨e, -, he⟩ := exists_of_mem_mapM hus hu
      exact RuleTree.granted_of_use he fun v hv => List.mem_flatMap.mpr ⟨u, hu, hv⟩
  · rename_i e t' heq
    rwa [heq] at hkeeps

theorem child_keeps (scope : RuleId) {r : Rule} {t : RuleTree} (ht : t.Accounted c.catalog)
    (hr : t.GrantedRule c.catalog r) : ((child scope r).run t).2.Accounted c.catalog :=
  ht.insert scope hr

/-- Whatever becomes of a call, the tree stays accounted. -/
theorem perform_keeps (scope : RuleId) (call : Call) :
    (c.perform scope call).Keeps (RuleTree.Accounted c.catalog) := by
  have hbehavior (e : Entry) : (c.addBehavior scope e).Keeps (RuleTree.Accounted c.catalog) :=
    c.capability_keeps _ _ _ _ fun use t ht huse => ht.change scope fun r hr => hr.addBehavior huse
  have hcriterion (e : Entry) : (c.addCriterion scope e).Keeps (RuleTree.Accounted c.catalog) :=
    c.capability_keeps _ _ _ _ fun use t ht huse =>
      c.child_keeps scope ht
        (RuleTree.grantedRule_of_criteria (by simpa using huse) rfl)
  cases call with
  | name text =>
    exact fun t ht => ht.change scope (f := fun r => { r with name := some text }) fun r hr => hr
  | comment text =>
    exact fun t ht => ht.change scope (f := fun r => { r with comment := some text }) fun r hr => hr
  | behavior e => exact hbehavior e
  | criteria e => exact hcriterion e
  | add kind e =>
    cases kind with
    | criteria => exact hcriterion e
    | behavior => exact hbehavior e
  | group site label comment =>
    exact fun t ht => c.child_keeps scope ht (RuleTree.grantedRule_of_criteria nofun rfl)
  | compose policy site entries =>
    exact c.uses_then_keeps _ _ fun uses t ht huses => c.child_keeps scope ht
      (RuleTree.grantedRule_of_criteria huses rfl)
  | importFile site expression =>
    exact (c.importFile_accounted _ _ _).bind fun _ => Build.keeps_pure _

theorem run_accounted (script : List Step) :
    ∀ t ∈ freshTree :: (c.run script).tree :: (c.run script).moments.map (·.tree),
      t.Accounted c.catalog :=
  run_throughout (fun call _ scope t _ ht => c.perform_keeps scope call t ht)
    (RuleTree.accounted_ofRoot rfl rfl)

/-! ## Declarations -/

/-- A call that does not fail declares its variables. -/
theorem perform_declared {scope id : RuleId} {call : Call} {t t' : RuleTree}
    (h : (c.perform scope call).run t = (.ok id, t')) :
    ∃ vs, call.Declares c vs ∧ t'.declared = t.declared.declareAll vs := by
  have houtcome := Build.outcome_eq_ok.mpr h
  have huse (kind : Capability.Kind) (e : Entry) {f : Capability → Build RuleId}
      (hf : ∀ use t r, (f use).outcome t = .ok r → r.2.declared = t.declared)
      (h : (c.use kind e >>= f).outcome t = .ok (id, t')) :
      ∃ vs, (e.granted c.catalog kind).map Use.found = .ok vs ∧
        t'.declared = t.declared.declareAll vs := by
    rw [Build.outcome_bind, use_outcome] at h
    cases hgranted : e.granted c.catalog kind with
    | error error =>
      rw [hgranted] at h
      cases h
    | ok u =>
      rw [hgranted] at h
      exact ⟨_, rfl, hf _ _ _ h⟩
  have hbehavior (e : Entry) := huse .behavior e
    (f := fun use => do
      modify fun t => t.change scope (Rule.addBehavior use)
      return scope) (fun _ _ _ h => by cases h; rfl)
  have hcriterion (e : Entry) := huse .criteria e
    (f := fun use => child scope { criteria := [use], provenance := some (.ofSite e.site) })
    (fun _ _ _ h => by cases h; rfl)
  cases call with
  | name text | comment text | group site label comment =>
    cases h
    exact ⟨[], rfl, rfl⟩
  | behavior e => exact hbehavior e houtcome
  | criteria e => exact hcriterion e houtcome
  | add kind e =>
    cases kind with
    | criteria => exact hcriterion e houtcome
    | behavior => exact hbehavior e houtcome
  | compose policy site entries =>
    rw [perform, Build.outcome_bind, uses_outcome] at houtcome
    cases hus : entries.mapM (Entry.granted c.catalog .criteria) with
    | error error =>
      rw [hus] at houtcome
      cases houtcome
    | ok us =>
      rw [hus] at houtcome
      cases houtcome
      exact ⟨us.flatMap Use.found, by rw [Call.Declares, hus]; rfl, rfl⟩
  | importFile site expression =>
    rw [perform, Build.outcome_bind] at houtcome
    cases himport : (c.importFile (site.directory c.sourceRoot) scope expression).outcome t with
    | error error =>
      rw [himport] at houtcome
      cases houtcome
    | ok result =>
      rw [himport] at houtcome
      cases houtcome
      obtain ⟨e, hfile, hplant⟩ := Workshop.importWithin_expands _ _ _ _ _ _ _ himport
      obtain ⟨vs, hvs, hdeclared⟩ := e.plant_declared hplant
      exact ⟨vs, ⟨e, hfile, hvs⟩, hdeclared⟩

mutual

theorem runStep_declared : ∀ (s : Step) (scope : RuleId) (t : RuleTree),
    (∀ m ∈ (c.runStep scope s t).moments, m.failure = none) →
      ∃ vs, s.Declares c vs ∧ (c.runStep scope s t).tree.declared = t.declared.declareAll vs
  | .mk call caught inner, scope, t, h => by
    rw [runStep] at h ⊢
    split at h
    · rename_i id t' heq
      obtain ⟨own, hown, hdeclared⟩ := c.perform_declared heq
      obtain ⟨below, hbelow, hdeclared'⟩ := runSteps_declared inner id t' fun m hm =>
        h m (List.mem_append_right _ hm)
      refine ⟨own ++ below, ⟨own, below, hown, hbelow, rfl⟩, ?_⟩
      rw [VariableTable.declareAll_append, ← hdeclared, ← hdeclared']
      rfl
    · cases h _ (List.mem_singleton_self _)

theorem runSteps_declared : ∀ (ss : List Step) (scope : RuleId) (t : RuleTree),
    (∀ m ∈ (c.runSteps scope ss t).moments, m.failure = none) →
      ∃ vs, Step.DeclaresAll c ss vs ∧
        (c.runSteps scope ss t).tree.declared = t.declared.declareAll vs
  | [], _, _, _ => ⟨[], rfl, rfl⟩
  | s :: ss, scope, t, h => by
    rw [runSteps] at h ⊢
    unfold Outcome.followedBy at h ⊢
    cases hfailure : (c.runStep scope s t).failure with
    | some e =>
      simp only [hfailure] at h
      obtain ⟨m, hm, hm'⟩ := c.runStep_failure s scope t e hfailure
      cases (h m hm).symm.trans hm'
    | none =>
      simp only [hfailure] at h ⊢
      obtain ⟨first, hfirst, hdeclared⟩ := runStep_declared s scope t fun m hm =>
        h m (List.mem_append_left _ hm)
      obtain ⟨rest, hrest, hdeclared'⟩ := runSteps_declared ss scope _ fun m hm =>
        h m (List.mem_append_right _ hm)
      refine ⟨first ++ rest, ⟨first, rest, hfirst, hrest, rfl⟩, ?_⟩
      rw [VariableTable.declareAll_append, ← hdeclared, ← hdeclared']

end

/-! ## Runs -/

/-- After every call the table can be kept with an index, by which the same variables are found. -/
theorem run_indexed (script : List Step) :
    ∀ t ∈ freshTree :: (c.run script).tree :: (c.run script).moments.map (·.tree),
      ∃ indexed : IndexedTable, indexed.table = t.declared ∧
        ∀ name, indexed.find? name = t.declared.find? name := by
  intro t ht
  have htable := IndexedTable.table_of_distinct (c.run_accounted script t ht).registered.distinct
  exact ⟨_, htable, fun name => by rw [IndexedTable.find?_eq, htable]⟩

/-- After every call, also one that failed, no variable is declared twice, a name leads to its one
entry, and what the uses of capabilities in the tree refer to is declared. If no call fails, the
script makes one list of declarations, and the table holds the first of each name. -/
theorem run_variables (script : List Step) :
    (∀ t ∈ freshTree :: (c.run script).tree :: (c.run script).moments.map (·.tree),
      t.Registered c.catalog ∧
        ∀ name v, t.declared.find? name = some v ↔ v ∈ t.declared ∧ v.name = name) ∧
    ((∀ m ∈ (c.run script).moments, m.failure = none) →
      ∃ vs, (∀ us, Step.DeclaresAll c script us ↔ us = vs) ∧
        (c.run script).tree.declared = VariableTable.firsts vs) := by
  constructor
  · intro t ht
    have hregistered := (c.run_accounted script t ht).registered
    exact ⟨hregistered, fun _ _ => hregistered.distinct.find?_eq_some⟩
  · intro hdone
    obtain ⟨vs, hvs, hdeclared⟩ := c.runSteps_declared script RuleTree.rootId freshTree hdone
    refine ⟨vs, fun us => ⟨fun hus => Step.DeclaresAll.unique script hus hvs, ?_⟩, ?_⟩
    · rintro rfl
      exact hvs
    · rw [← VariableTable.declareAll_nil]
      exact hdeclared

/-- A compiler that knows a behavior with variables, and two files of which one includes the
other. -/
def variableCompiler : Compiler where
  catalog := {
    behaviors := [{ Descriptor.bare "set" with
      variableHandling := { inline := ["value"], names := ["to"] } }] }
  registry := ⟨[("v1", ⟨.bool true, .d7⟩)]⟩
  files := .ofTexts [
    ("rules/part.json",
      "\x7b\"variables\": [\x7b\"name\": \"b\"\x7d], \"children\": [\"#include:more.json\"]\x7d"),
    ("rules/more.json",
      "\x7b\"behaviors\": [\x7b\"name\": \"set\", \"options\": \x7b\"to\": \"c\"\x7d\x7d]\x7d")]
  ruleFormat := "v1"
  excerptWidth := 80
  sourceRoot := ⟨"."⟩

/-- A use that refers to two variables, and an import that declares one of them again. -/
def variableScript : List Step :=
  [.mk (.behavior ⟨⟨"rules/site", 1⟩, "set",
      .object [("value", .string "\x7b\x7buser.b\x7d\x7d"), ("to", .string "a")]⟩) false [],
    .mk (.importFile ⟨"rules/site", 2⟩ "part.json") false []]

set_option maxRecDepth 10000 in
theorem run_variables_included :
    (∀ m ∈ (variableCompiler.run variableScript).moments, m.failure = none) ∧
      (variableCompiler.run variableScript).tree.declared.map (·.name) = ["a", "b", "c"] ∧
      ∃ vs, (∀ us, Step.DeclaresAll variableCompiler variableScript us ↔ us = vs) ∧
        (variableCompiler.run variableScript).tree.declared = VariableTable.firsts vs := by
  have hall : (variableCompiler.run variableScript).moments.all (·.failure.isNone) := by
    decide +kernel
  have hdone : ∀ m ∈ (variableCompiler.run variableScript).moments, m.failure = none :=
    fun m hm => Option.isNone_iff_eq_none.mp (List.all_eq_true.mp hall m hm)
  exact ⟨hdone, by decide +kernel, (variableCompiler.run_variables variableScript).2 hdone⟩

end Compiler

end DeliveryRules
