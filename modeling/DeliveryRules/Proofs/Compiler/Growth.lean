import DeliveryRules.Compiler.Script
import DeliveryRules.Proofs.Fragment.Growth

/-!
# Scripts make trees grow

- **What a call does** (`Call.effect`): apart from an import, a call changes the rule it is made on
  or puts one new rule below it. Which of them, or the error, depends on the catalog alone
  (`Compiler.perform_run`).
- **Growth**: a call, and with it a script, is work on the rule it is made on
  (`Compiler.runSteps_grows`), so the tree of every run is well-formed (`Compiler.run_wellFormed`).
- **Invariants** (`Compiler.run_throughout`): what holds of the fresh tree and is kept by every call
  of a script (`Step.calls`) holds after every call of the run.
-/

namespace DeliveryRules

/-! ## Steps that only look things up -/

namespace Build

variable {α β : Type}

/-- What the step gives back does not depend on the tree, and the rules are left alone. -/
def Consults (m : Build α) (x : Except CompileError α) : Prop :=
  ∀ t scope, ∃ t', m.run t = (x, t') ∧ t'.nodes = t.nodes ∧ RuleTree.Grows t scope t'

theorem consults_pure (a : α) : Consults (pure a) (.ok a) :=
  fun t _ => ⟨t, rfl, rfl, .refl⟩

theorem Consults.bind {m : Build α} {x : Except CompileError α} {f : α → Build β}
    {g : α → Except CompileError β} (hm : m.Consults x) (hf : ∀ a, (f a).Consults (g a)) :
    Consults (m >>= f) (x >>= g) := by
  intro t scope
  obtain ⟨t₁, hrun, hnodes, hgrows⟩ := hm t scope
  rw [run_bind, hrun]
  cases x with
  | error e => exact ⟨t₁, rfl, hnodes, hgrows⟩
  | ok a =>
    obtain ⟨t₂, hrun₂, hnodes₂, hgrows₂⟩ := hf a t₁ scope
    exact ⟨t₂, hrun₂, hnodes₂.trans hnodes, hgrows.trans (.inl rfl) hgrows₂⟩

theorem consults_mapM {f : α → Build β} {g : α → Except CompileError β}
    (hf : ∀ a, (f a).Consults (g a)) (as : List α) : Consults (as.mapM f) (as.mapM g) := by
  induction as with
  | nil => exact consults_pure []
  | cons a as ih =>
    rw [List.mapM_cons, List.mapM_cons]
    exact (hf a).bind fun b => ih.bind fun bs => consults_pure (b :: bs)

end Build

/-! ## What a call does -/

/-- The use of a capability that an entry stands for: its options laid over the defaults. -/
def Catalog.entry (c : Catalog) (kind : Capability.Kind) (e : Entry) :
    Except CompileError Capability :=
  (c.use kind e.name e.options (.ofSite e.site)).map (·.1)

inductive Effect where
  /-- Another content for the rule itself. -/
  | change (f : Rule → Rule)
  /-- A new last child. -/
  | child (r : Rule)

/-- What a call does, if it is not an import; of these nothing is said here. -/
def Call.effect (c : Catalog) : Call → Except CompileError Effect
  | .name text => .ok (.change fun r => { r with name := some text })
  | .comment text => .ok (.change fun r => { r with comment := some text })
  | .behavior e | .add .behavior e =>
    (c.entry .behavior e).map fun use => .change (Rule.addBehavior use)
  | .criteria e | .add .criteria e =>
    (c.entry .criteria e).map fun use =>
      .child { criteria := [use], provenance := some (.ofSite e.site) }
  | .group site label remark =>
    .ok (.child { name := some label, comment := remark, provenance := some (.ofSite site) })
  | .compose policy site entries =>
    (entries.mapM (c.entry .criteria)).map fun uses =>
      .child { criteria := uses, policy := some policy, provenance := some (.ofSite site) }
  | .importFile .. => .ok (.change id)

def Call.isImport : Call → Bool
  | .importFile .. => true
  | _ => false

/-- Whether an effect leaves the origin of every rule known. -/
def Effect.KeepsOrigins : Effect → Prop
  | .change f => ∀ r, (f r).provenance = r.provenance
  | .child r => r.provenance.isSome

theorem Call.keepsOrigins_effect {c : Catalog} {call : Call} {effect : Effect}
    (h : call.effect c = .ok effect) : effect.KeepsOrigins := by
  have hmap {α : Type} {x : Except CompileError α} {f : α → Effect}
      (hx : x.map f = .ok effect) (hf : ∀ a, (f a).KeepsOrigins) : effect.KeepsOrigins := by
    cases x with
    | error e => cases hx
    | ok a =>
      cases hx
      exact hf a
  cases call with
  | name text | comment text | importFile site expression =>
    cases h
    exact fun _ => rfl
  | group site label remark =>
    cases h
    rfl
  | behavior e => exact hmap h fun _ _ => rfl
  | criteria e => exact hmap h fun _ => rfl
  | add kind e =>
    cases kind with
    | criteria => exact hmap h fun _ => rfl
    | behavior => exact hmap h fun _ _ => rfl
  | compose policy site entries => exact hmap h fun _ => rfl

mutual

/-- The calls of a step and of those that follow on it. -/
def Step.calls : Step → List Call
  | .mk call _ inner => call :: Step.callsOfAll inner

def Step.callsOfAll : List Step → List Call
  | [] => []
  | s :: ss => s.calls ++ Step.callsOfAll ss

end

/-- Holds of the tree in the end and of the tree after each call. -/
def Outcome.Throughout (P : RuleTree → Prop) (o : Outcome) : Prop :=
  P o.tree ∧ ∀ m ∈ o.moments, P m.tree

theorem Outcome.Throughout.followedBy {P : RuleTree → Prop} {first : Outcome}
    (h : first.Throughout P) (next : RuleTree → Outcome)
    (hnext : (next first.tree).Throughout P) : (first.followedBy next).Throughout P := by
  unfold Outcome.followedBy
  split
  · exact h
  · exact ⟨hnext.1, List.forall_mem_append.mpr ⟨h.2, hnext.2⟩⟩

namespace Compiler

theorem use_consults (c : Compiler) (kind : Capability.Kind) (e : Entry) :
    (c.use kind e).Consults (c.catalog.entry kind e) := by
  intro t scope
  rw [use, Workshop.capability_run, Catalog.entry]
  split
  · rename_i cap names heq
    exact ⟨_, by rw [heq]; rfl, RuleTree.nodes_declareFound .., t.grows_declareFound ..⟩
  · rename_i e heq
    exact ⟨t, by rw [heq]; rfl, rfl, .refl⟩

/-- How an effect turns out on a tree in which the rules are known to be those of another. -/
def carryOut (scope : RuleId) (t : RuleTree) :
    Except CompileError Effect → Except CompileError RuleId × RuleTree
  | .error e => (.error e, t)
  | .ok (.change f) => (.ok scope, t.change scope f)
  | .ok (.child r) => (.ok t.size, t.insert scope r)

/-- A step that only looks something up, followed by the effect that this has. -/
theorem consults_then {α : Type} {m : Build α} {x : Except CompileError α} (hm : m.Consults x)
    (scope : RuleId) (act : α → Build RuleId) (effect : α → Effect)
    (hact : ∀ a t, (act a).run t = carryOut scope t (.ok (effect a))) (t : RuleTree) :
    ∃ t', t'.nodes = t.nodes ∧ t.Grows scope t' ∧
      (m >>= act).run t = carryOut scope t' (x.map effect) := by
  obtain ⟨t', hrun, hnodes, hgrows⟩ := hm t scope
  refine ⟨t', hnodes, hgrows, ?_⟩
  rw [run_bind, hrun]
  cases x with
  | error e => rfl
  | ok a => exact hact a t'

/-- A call looks up what it uses, which declares variables, and then has its effect. -/
theorem perform_run (c : Compiler) (scope : RuleId) {call : Call} (h : call.isImport = false)
    (t : RuleTree) :
    ∃ t', t'.nodes = t.nodes ∧ t.Grows scope t' ∧
      (c.perform scope call).run t = carryOut scope t' (call.effect c.catalog) := by
  have hbehavior (e : Entry) := consults_then (c.use_consults .behavior e) scope
    (fun use => do
      modify fun t => t.change scope (Rule.addBehavior use)
      return scope)
    (fun use => .change (Rule.addBehavior use)) (fun _ _ => rfl) t
  have hcriterion (e : Entry) := consults_then (c.use_consults .criteria e) scope
    (fun use => child scope { criteria := [use], provenance := some (.ofSite e.site) })
    (fun use => .child { criteria := [use], provenance := some (.ofSite e.site) })
    (fun _ _ => rfl) t
  cases call with
  | name text => exact ⟨t, rfl, .refl, rfl⟩
  | comment text => exact ⟨t, rfl, .refl, rfl⟩
  | behavior e => exact hbehavior e
  | criteria e => exact hcriterion e
  | add kind e =>
    cases kind with
    | criteria => exact hcriterion e
    | behavior => exact hbehavior e
  | group site label comment => exact ⟨t, rfl, .refl, rfl⟩
  | compose policy site entries =>
    exact consults_then (Build.consults_mapM (c.use_consults .criteria) entries) scope
      (fun uses => child scope
        { criteria := uses, policy := some policy, provenance := some (.ofSite site) })
      (fun uses => .child
        { criteria := uses, policy := some policy, provenance := some (.ofSite site) })
      (fun _ _ => rfl) t
  | importFile site expression => cases h

/-! ## Growth -/

theorem carryOut_grows {scope : RuleId} {t : RuleTree} (ht : scope < t.size)
    {x : Except CompileError Effect} (hx : ∀ effect, x = .ok effect → effect.KeepsOrigins) :
    t.Grows scope (carryOut scope t x).2 ∧
      ∀ id, (carryOut scope t x).1 = .ok id →
        (id = scope ∨ t.size ≤ id) ∧ id < (carryOut scope t x).2.size := by
  cases x with
  | error e => exact ⟨.refl, fun _ h => by cases h⟩
  | ok effect =>
    have hkeeps := hx effect rfl
    cases effect with
    | change f =>
      refine ⟨.change .refl (.inl rfl) hkeeps, fun id h => ?_⟩
      cases h
      exact ⟨.inl rfl, by simpa [carryOut] using ht⟩
    | child r =>
      refine ⟨.insert .refl (.inl rfl) ht hkeeps, fun id h => ?_⟩
      cases h
      exact ⟨.inr (Nat.le_refl _), by simp [carryOut]⟩

/-- A call is work on the rule it is made on, and gives back this rule or a new one. -/
theorem perform_grows (c : Compiler) {scope : RuleId} (call : Call) {t : RuleTree}
    (ht : scope < t.size) :
    t.Grows scope ((c.perform scope call).run t).2 ∧
      ∀ id, ((c.perform scope call).run t).1 = .ok id →
        (id = scope ∨ t.size ≤ id) ∧ id < ((c.perform scope call).run t).2.size := by
  cases himport : call.isImport with
  | false =>
    obtain ⟨t', hnodes, hgrows, hrun⟩ := c.perform_run scope himport t
    have hsize : t'.size = t.size := congrArg List.length hnodes
    have hcarry := carryOut_grows (hsize ▸ ht : scope < t'.size)
      fun effect (h : call.effect c.catalog = .ok effect) => Call.keepsOrigins_effect h
    rw [hsize] at hcarry
    rw [hrun]
    exact ⟨hgrows.trans (.inl rfl) hcarry.1, hcarry.2⟩
  | true =>
    cases call with
    | importFile site expression =>
      have himp :=
        c.toWorkshop.importFile_growsAt (site.directory c.sourceRoot) scope expression t ht
      rw [perform, run_bind]
      split
      · rename_i t' heq
        rw [heq] at himp
        refine ⟨himp, fun id h => ?_⟩
        cases h
        exact ⟨.inl rfl, Nat.lt_of_lt_of_le ht himp.size_le⟩
      · rename_i e t' heq
        rw [heq] at himp
        exact ⟨himp, fun id h => by cases h⟩
    | _ => cases himport

mutual

theorem runStep_grows (c : Compiler) : ∀ (s : Step) (scope : RuleId) (t : RuleTree),
    scope < t.size → t.Grows scope (c.runStep scope s t).tree
  | .mk call caught inner, scope, t, ht => by
    obtain ⟨hg, hid⟩ := c.perform_grows call ht
    rw [runStep]
    split
    · rename_i id t' heq
      rw [heq] at hg hid
      obtain ⟨hplace, hlt⟩ := hid id rfl
      exact hg.trans hplace (runSteps_grows c inner id t' hlt)
    · rename_i e t' heq
      rwa [heq] at hg

theorem runSteps_grows (c : Compiler) : ∀ (ss : List Step) (scope : RuleId) (t : RuleTree),
    scope < t.size → t.Grows scope (c.runSteps scope ss t).tree
  | [], _, _, _ => .refl
  | s :: ss, scope, t, ht => by
    have hfirst := runStep_grows c s scope t ht
    rw [runSteps, Outcome.followedBy]
    split
    · exact hfirst
    · exact hfirst.trans (.inl rfl)
        (runSteps_grows c ss scope _ (Nat.lt_of_lt_of_le ht hfirst.size_le))

end

theorem run_wellFormed (c : Compiler) (script : List Step) : (c.run script).tree.WellFormed :=
  (c.runSteps_grows script RuleTree.rootId freshTree Nat.zero_lt_one).wellFormed
    (RuleTree.wellFormed_ofRoot rfl)

/-! ## Invariants -/

section Invariants

variable {c : Compiler} {P : RuleTree → Prop}

mutual

theorem runStep_throughout : ∀ (s : Step) (scope : RuleId) (t : RuleTree),
    (∀ call ∈ s.calls, ∀ (scope : Nat) (t : RuleTree), scope < t.size → P t →
      P ((c.perform scope call).run t).2) →
    scope < t.size → P t → (c.runStep scope s t).Throughout P
  | .mk call caught inner, scope, t, hP, hscope, ht => by
    rw [Step.calls, List.forall_mem_cons] at hP
    have hperform := hP.1 scope t hscope ht
    have hid := (c.perform_grows call hscope).2
    rw [runStep]
    split
    · rename_i id t' heq
      rw [heq] at hperform hid
      have hfirst : Outcome.Throughout P ⟨[⟨call, id, none, t'⟩], t', none⟩ :=
        ⟨hperform, List.forall_mem_singleton.mpr hperform⟩
      exact hfirst.followedBy (c.runSteps id inner)
        (runSteps_throughout inner id t' hP.2 (hid id rfl).2 hperform)
    · rename_i e t' heq
      rw [heq] at hperform
      exact ⟨hperform, List.forall_mem_singleton.mpr hperform⟩

theorem runSteps_throughout : ∀ (ss : List Step) (scope : RuleId) (t : RuleTree),
    (∀ call ∈ Step.callsOfAll ss, ∀ (scope : Nat) (t : RuleTree), scope < t.size → P t →
      P ((c.perform scope call).run t).2) →
    scope < t.size → P t → (c.runSteps scope ss t).Throughout P
  | [], _, _, _, _, ht => ⟨ht, fun _ hm => absurd hm List.not_mem_nil⟩
  | s :: ss, scope, t, hP, hscope, ht => by
    rw [Step.callsOfAll, List.forall_mem_append] at hP
    have hfirst := runStep_throughout s scope t hP.1 hscope ht
    have hsize := (c.runStep_grows s scope t hscope).size_le
    rw [runSteps]
    exact hfirst.followedBy (c.runSteps scope ss)
      (runSteps_throughout ss scope _ hP.2 (Nat.lt_of_lt_of_le hscope hsize) hfirst.1)

end

/-- What holds of the fresh tree and is kept by every call, also where it fails, holds of the tree
at the start, after every call and at the end. -/
theorem run_throughout {script : List Step}
    (hP : ∀ call ∈ Step.callsOfAll script, ∀ (scope : Nat) (t : RuleTree), scope < t.size → P t →
      P ((c.perform scope call).run t).2)
    (hfresh : P freshTree) :
    ∀ t ∈ freshTree :: (c.run script).tree :: (c.run script).moments.map (·.tree), P t := by
  obtain ⟨htree, hmoments⟩ := runSteps_throughout script RuleTree.rootId freshTree hP
    Nat.zero_lt_one hfresh
  exact List.forall_mem_cons.mpr
    ⟨hfresh, List.forall_mem_cons.mpr ⟨htree, List.forall_mem_map.mpr hmoments⟩⟩

end Invariants

/-- A compiler that knows one criterion and one behavior, and no files. -/
def plainCompiler : Compiler where
  catalog := {
    criteria := [.bare "path"]
    behaviors := [{ Descriptor.bare "caching" with defaults := [("ttl", .string "1d")] }] }
  registry := .empty
  files := .ofTexts []
  ruleFormat := "v1"
  excerptWidth := 80
  sourceRoot := ⟨"."⟩

end Compiler

end DeliveryRules
