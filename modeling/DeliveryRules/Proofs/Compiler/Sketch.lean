import DeliveryRules.Proofs.Compiler.Growth
import DeliveryRules.Proofs.Rule.Sketch

/-!
# What a script means

- **Meaning** (`Step.grow`, `Step.growAll`): what the steps of a script make of the sketch of a
  rule, by recursion on the steps. There are no numbers and there is no tree under construction:
  steps on a new child make a sketch of their own, which is then added.
- `Compiler.runSteps_sketch`: running the steps on a rule of a tree does the same to the sketch of
  this rule, also if calls fail.
- `Compiler.compile_sketch`: so the tree that is compiled from a script is what the script means.
-/

namespace DeliveryRules

/-! ## Meaning -/

namespace Step

mutual

/-- What a step makes of a rule and those below it. A call that fails does nothing, and neither do
the steps that would go on with it. -/
def grow (c : Catalog) : Step → Sketch → Except CompileError Sketch
  | .mk call caught inner, s =>
    match call.effect c with
    | .error e => if caught then .ok s else .error e
    | .ok (.change f) => growAll c inner (s.change f)
    | .ok (.child r) => (growAll c inner (.node r [])).map s.add

def growAll (c : Catalog) : List Step → Sketch → Except CompileError Sketch
  | [], s => .ok s
  | step :: steps, s => (grow c step s).bind (growAll c steps)

end

mutual

/-- Whether there is no import among the calls of a step. -/
def isPlain : Step → Bool
  | .mk call _ inner => !call.isImport && allPlain inner

def allPlain : List Step → Bool
  | [] => true
  | step :: steps => isPlain step && allPlain steps

end

end Step

/-! ## Runs -/

namespace Outcome

/-- What has become of a rule, unless the run was ended. -/
def sketchAt (o : Outcome) (id : RuleId) : Except CompileError Sketch :=
  match o.failure with
  | some e => .error e
  | none => .ok (o.tree.sketchAt id)

theorem sketchAt_followedBy (first : Outcome) (next : RuleTree → Outcome) (id : RuleId) :
    (first.followedBy next).sketchAt id =
      match first.failure with
      | some e => .error e
      | none => (next first.tree).sketchAt id := by
  unfold followedBy sketchAt
  cases h : first.failure with
  | some e => simp [h]
  | none => rfl

end Outcome

namespace Compiler

mutual

theorem runStep_sketch (c : Compiler) : ∀ (s : Step) (scope : RuleId) (t : RuleTree),
    s.isPlain → t.WellFormed → scope < t.size →
      (c.runStep scope s t).sketchAt scope = s.grow c.catalog (t.sketchAt scope)
  | .mk call caught inner, scope, t, hs, ht, hscope => by
    rw [Step.isPlain, Bool.and_eq_true, Bool.not_eq_true'] at hs
    obtain ⟨t', hnodes, hgrows, hrun⟩ := c.perform_run scope hs.1 t
    have ht' := hgrows.wellFormed ht
    have hscope' := Nat.lt_of_lt_of_le hscope hgrows.size_le
    have hsketch := RuleTree.sketchAt_of_nodes ht hnodes hscope
    rw [runStep, hrun, Step.grow]
    cases heffect : call.effect c.catalog with
    | error e => cases caught <;> simp [carryOut, Outcome.sketchAt, hsketch]
    | ok effect =>
      have hkeeps := Call.keepsOrigins_effect heffect
      cases effect with
      | change f =>
        simp only [carryOut, Outcome.sketchAt_followedBy]
        rw [runSteps_sketch c inner scope _ hs.2 (ht'.change scope hkeeps) (by simpa using hscope'),
          RuleTree.sketchAt_change ht' hscope' hkeeps, hsketch]
      | child r =>
        -- The inner steps work on the new rule alone, which ends up as the last child.
        have hinner := runSteps_sketch c inner t'.size (t'.insert scope r) hs.2
          (ht'.insert hscope' hkeeps) (by simp)
        have hg := runSteps_grows c inner t'.size (t'.insert scope r) (by simp)
        rw [RuleTree.sketchAt_newest ht' hscope' hkeeps] at hinner
        have hadd := RuleTree.sketchAt_insert ht' hscope' hkeeps hg
        simp only [carryOut, Outcome.sketchAt_followedBy]
        rw [← hinner, ← hsketch]
        unfold Outcome.sketchAt
        split
        · rfl
        · rw [hadd]
          rfl

theorem runSteps_sketch (c : Compiler) : ∀ (ss : List Step) (scope : RuleId) (t : RuleTree),
    Step.allPlain ss → t.WellFormed → scope < t.size →
      (c.runSteps scope ss t).sketchAt scope = Step.growAll c.catalog ss (t.sketchAt scope)
  | [], _, _, _, _, _ => rfl
  | s :: ss, scope, t, hs, ht, hscope => by
    rw [Step.allPlain, Bool.and_eq_true] at hs
    have hfirst := runStep_sketch c s scope t hs.1 ht hscope
    have hg := runStep_grows c s scope t hscope
    rw [runSteps, Outcome.sketchAt_followedBy, Step.growAll, ← hfirst]
    unfold Outcome.sketchAt
    cases hfailure : (c.runStep scope s t).failure with
    | some e => rfl
    | none =>
      exact runSteps_sketch c ss scope _ hs.2 (hg.wellFormed ht)
        (Nat.lt_of_lt_of_le hscope hg.size_le)

end

mutual

/-- A run is ended by the failure of one of its calls. -/
theorem runStep_failure (c : Compiler) : ∀ (s : Step) (scope : RuleId) (t : RuleTree)
    (e : CompileError), (c.runStep scope s t).failure = some e →
      ∃ m ∈ (c.runStep scope s t).moments, m.failure = some e
  | .mk call caught inner, scope, t, e, h => by
    rw [runStep] at h ⊢
    split at h
    · rename_i id t' heq
      obtain ⟨m, hm, hfailure⟩ := runSteps_failure c inner id t' e h
      exact ⟨m, List.mem_append_right _ hm, hfailure⟩
    · rename_i e' t' heq
      cases caught
      · exact ⟨_, List.mem_singleton_self _, h⟩
      · cases h

theorem runSteps_failure (c : Compiler) : ∀ (ss : List Step) (scope : RuleId) (t : RuleTree)
    (e : CompileError), (c.runSteps scope ss t).failure = some e →
      ∃ m ∈ (c.runSteps scope ss t).moments, m.failure = some e
  | [], _, _, _, h => by cases h
  | s :: ss, scope, t, e, h => by
    have hfirst := runStep_failure c s scope t
    rw [runSteps] at h ⊢
    unfold Outcome.followedBy at h ⊢
    cases hfailure : (c.runStep scope s t).failure with
    | some e' =>
      simp only [hfailure] at h ⊢
      exact hfirst e (hfailure.trans h)
    | none =>
      simp only [hfailure] at h ⊢
      obtain ⟨m, hm, hm'⟩ := runSteps_failure c ss scope _ e h
      exact ⟨m, List.mem_append_right _ hm, hm'⟩

end

/-- The root as a script finds it. -/
def freshSketch : Sketch := .node { name := some rootName } []

/-- What becomes of the root in a run without imports is what the script means. -/
theorem run_sketch (c : Compiler) {script : List Step} (h : Step.allPlain script) :
    (c.run script).sketchAt RuleTree.rootId = Step.growAll c.catalog script freshSketch :=
  c.runSteps_sketch script RuleTree.rootId freshTree h (RuleTree.wellFormed_ofRoot rfl)
    Nat.zero_lt_one

/-- If no call of a script fails, then a tree is compiled from it, and this tree, read from its root
on with the children in order, is what the script means. -/
theorem compile_sketch (c : Compiler) {script : List Step} (hplain : Step.allPlain script)
    (hdone : ∀ m ∈ (c.run script).moments, m.failure = none) :
    ∃ t document, c.compile script = .ok (t, document) ∧
      Step.growAll c.catalog script freshSketch = .ok t.outline.sketch := by
  have hfailure : (c.run script).failure = none := by
    cases h : (c.run script).failure with
    | none => rfl
    | some e =>
      obtain ⟨m, hm, hm'⟩ := c.runSteps_failure script _ _ e h
      cases (hdone m hm).symm.trans hm'
  have hsketch := c.run_sketch hplain
  rw [Outcome.sketchAt, hfailure] at hsketch
  exact ⟨_, _, by rw [compile, hfailure], hsketch.symm⟩

/-- Calls on the root, on a new rule and on one below it, with the root in between. -/
def nestedScript : List Step :=
  let entry (line : Nat) (name : String) (options : Json) : Entry :=
    ⟨⟨"rules", line⟩, name, options⟩
  [.mk (.behavior (entry 1 "caching" (.object [("ttl", .string "2d")]))) false
    [.mk (.comment "long") false []],
  .mk (.compose .any ⟨"rules", 2⟩ [entry 3 "path" .null, entry 4 "path" .null]) false
    [.mk (.group ⟨"rules", 5⟩ "inner" none) false
      [.mk (.add .behavior (entry 6 "caching" .null)) false []],
    .mk (.name "outer") false []],
  .mk (.criteria (entry 7 "path" .null)) false []]

theorem compile_sketch_nested :
    Step.allPlain nestedScript ∧
      (∀ m ∈ (plainCompiler.run nestedScript).moments, m.failure = none) ∧
      ∃ t document, plainCompiler.compile nestedScript = .ok (t, document) ∧
        Step.growAll plainCompiler.catalog nestedScript freshSketch = .ok t.outline.sketch := by
  have hplain : Step.allPlain nestedScript := by decide
  have hall : (plainCompiler.run nestedScript).moments.all (·.failure.isNone) := by decide
  have hdone : ∀ m ∈ (plainCompiler.run nestedScript).moments, m.failure = none := fun m hm =>
    Option.isNone_iff_eq_none.mp (List.all_eq_true.mp hall m hm)
  exact ⟨hplain, hdone, plainCompiler.compile_sketch hplain hdone⟩

end Compiler

end DeliveryRules
