import DeliveryRules.Proofs.Compiler.Order
import DeliveryRules.Proofs.Compiler.Provenance
import DeliveryRules.Proofs.Fragment.Registered
import DeliveryRules.Proofs.Rule.Chronology

/-!
# Rules are put in where they stand in the document

The rule that work is done on always has the newest rule of the tree below it
(`RuleTree.Open`), because work below it is over before it gets another child.

- **Fragments** (`Workshop.importFile_open`): what is placed in an open rule leaves it open, also
  where it breaks off with rules half done.
- **Calls** (`Compiler.perform_open`): the rule that a call gives back is open, and below the one
  that the call was made on.
- **Scripts** (`Compiler.runSteps_open`): when the steps on a rule that was given back are over, the
  rule above it can go on.
- `Compiler.run_walk`: the walk through a tree of a run counts up from zero.
-/

namespace DeliveryRules

open RuleTree (rootId)

/-! ## Fragments -/

namespace Workshop

variable (w : Workshop) {scope : RuleId}

theorem capability_open (kind : Capability.Kind) (name : String) (given : Json)
    (p : Provenance) : (w.capability kind name given p).Keeps (RuleTree.Open · scope) := by
  intro t ht
  rw [capability_run]
  split
  · exact ht.of_nodes (t.nodes_declareFound p _)
  · exact ht

theorem placeVariables_open (s : Source) (way : List String) (declared : List FragmentVariable) :
    (placeVariables s way declared).Keeps (RuleTree.Open · scope) := by
  apply Build.keeps_forM
  intro _ _ t ht
  exact ht.of_nodes rfl

theorem placeEntries_open (s : Source) (kind : Capability.Kind) (way : List String)
    (entries : List FragmentEntry) (put : Capability → Rule → Rule) (id : RuleId) :
    (w.placeEntries s kind way entries put id).Keeps (RuleTree.Open · scope) := by
  apply Build.keeps_forM
  intro _ _
  refine (w.capability_open _ _ _ _).bind fun use => ?_
  exact fun t ht => ht.change id (put use)

/-- The head of a rule becomes an open rule below an open one. -/
theorem placeHead_open (s : Source) (h : FragmentHead) {parent : RuleId} (way : List String)
    (p : Provenance) {t : RuleTree} (ht : t.Open parent) :
    ((w.placeHead s h parent way p).run t).2.Open t.size ∧
      ((w.placeHead s h parent way p).run t).2.Below parent t.size := by
  constructor
  · rw [placeHead, run_bind, Build.run_get]
    simp only
    rw [run_bind, Build.run_modify]
    have hvariables : (placeVariables s way h.declared).Keeps (RuleTree.Open · t.size) :=
      placeVariables_open s way h.declared
    have hcriteria : (w.placeEntries s .criteria (way ++ ["criteria"]) h.criteria
        Rule.addCriterion t.size).Keeps (RuleTree.Open · t.size) :=
      w.placeEntries_open s .criteria _ h.criteria Rule.addCriterion t.size
    have hbehaviors : (w.placeEntries s .behavior (way ++ ["behaviors"]) h.behaviors
        Rule.addBehavior t.size).Keeps (RuleTree.Open · t.size) :=
      w.placeEntries_open s .behavior _ h.behaviors Rule.addBehavior t.size
    have hrest := hvariables.bind fun _ => hcriteria.bind fun _ => hbehaviors.bind fun _ =>
      Build.keeps_pure t.size
    exact hrest _ (ht.insert _)
  · obtain ⟨r, -, hgrows, -⟩ := w.placeHead_grows s h parent way p t
    apply hgrows.keeps_below
    exact RuleTree.Below.self.child (by rw [RuleTree.parent?_insert, if_pos rfl])

mutual

/-- A rule placed in an open one leaves it open, if the imports in it do so too. -/
theorem place_open {importer : Importer}
    (hgrows : ∀ directory id expression, Build.GrowsAt id (importer directory id expression))
    (hopen : ∀ directory (id : RuleId) expression,
      (importer directory id expression).Keeps (RuleTree.Open · id))
    (s : Source) : ∀ (r : FragmentRule) (parent : RuleId) (way : List String)
      (p : Provenance), (w.place importer s r parent way p).Keeps (RuleTree.Open · parent)
  | .mk head children, parent, way, p => by
    intro t ht
    obtain ⟨hnew, hbelow⟩ := w.placeHead_open s head way p ht
    obtain ⟨r', -, hhead, hid⟩ := w.placeHead_grows s head parent way p t
    have hsize := hhead.size_le
    rw [RuleTree.size_insert] at hsize
    have hlt := ht.lt_size
    rw [place, run_bind]
    split
    · rename_i id t' heq
      rw [heq] at hnew hbelow hid hsize
      simp only at hnew hbelow hid hsize
      obtain rfl := hid id rfl
      -- The rule above is as open as the new one when the children of this are placed.
      have hchildren :=
        placeChildren_open hgrows hopen s children t.size (way ++ ["children"]) 0 t' hnew
      have hall := w.placeChildren_growsAt hgrows s children t.size (way ++ ["children"]) 0 t' hsize
      have hle := hall.size_le
      exact hchildren.of_below (by omega) (hall.keeps_below hbelow)
    · rename_i e t' heq
      rw [heq] at hnew hbelow hsize
      simp only at hnew hbelow hsize
      exact hnew.of_below (by omega) hbelow

theorem placeChildren_open {importer : Importer}
    (hgrows : ∀ directory id expression, Build.GrowsAt id (importer directory id expression))
    (hopen : ∀ directory (id : RuleId) expression,
      (importer directory id expression).Keeps (RuleTree.Open · id))
    (s : Source) : ∀ (children : List FragmentChild) (id : RuleId) (way : List String)
      (count : Nat),
      (w.placeChildren importer s children id way count).Keeps (RuleTree.Open · id)
  | [], _, _, _ => Build.keeps_pure ()
  | child :: rest, id, way, count =>
    (placeChild_open hgrows hopen s child id (way ++ [toString count])).bind fun _ =>
      placeChildren_open hgrows hopen s rest id way (count + 1)

theorem placeChild_open {importer : Importer}
    (hgrows : ∀ directory id expression, Build.GrowsAt id (importer directory id expression))
    (hopen : ∀ directory (id : RuleId) expression,
      (importer directory id expression).Keeps (RuleTree.Open · id))
    (s : Source) : ∀ (child : FragmentChild) (id : RuleId) (way : List String),
      (w.placeChild importer s child id way).Keeps (RuleTree.Open · id)
  | .mention text, id, way => by
    rw [placeChild]
    split
    · exact hopen _ _ _
    · exact Build.keeps_throw _
  | .rule r, id, way => place_open hgrows hopen s r id way (s.provenanceAt way)

end

/-- An import leaves the rule open that it is made in, whatever the files hold. -/
theorem importFile_open (directory : Path) (scope : RuleId) (expression : String) :
    (w.importFile directory scope expression).Keeps (RuleTree.Open · scope) := by
  -- That a rule stays open is known of imports that are work on it.
  have hboth := importWithin_induction (w := w)
    (M := fun _ id _ m => Build.GrowsAt id m ∧ m.Keeps (RuleTree.Open · id))
    (fun _ _ _ e => ⟨Build.growsAt_throw e, Build.keeps_throw e⟩)
    (fun himp _ id _ s r _ _ _ =>
      have hgrows := fun directory id expression => (himp directory id expression).1
      ⟨w.place_growsAt hgrows s r id [] _,
        w.place_open hgrows (fun directory id expression => (himp directory id expression).2)
          s r id [] _⟩)
  exact (hboth _ _ directory scope expression).2

end Workshop

namespace Compiler

variable (c : Compiler) {scope : Nat} {t : RuleTree}

/-! ## Calls -/

theorem carryOut_open (ht : t.Open scope) (x : Except CompileError Effect) :
    (carryOut scope t x).2.Open scope ∧
      ∀ id, (carryOut scope t x).1 = .ok id →
        (carryOut scope t x).2.Open id ∧ (carryOut scope t x).2.Below scope id := by
  cases x with
  | error e => exact ⟨ht, nofun⟩
  | ok effect =>
    cases effect with
    | change f =>
      have hopen := ht.change scope f
      refine ⟨hopen, fun id hid => ?_⟩
      cases hid
      exact ⟨hopen, .self⟩
    | child r =>
      have hopen := ht.insert r
      have hbelow : (t.insert scope r).Below scope t.size :=
        RuleTree.Below.self.child (by rw [RuleTree.parent?_insert, if_pos rfl])
      have hlt := ht.lt_size
      refine ⟨hopen.of_below (by rw [RuleTree.size_insert]; omega) hbelow, fun id hid => ?_⟩
      cases hid
      exact ⟨hopen, hbelow⟩

/-- Whatever becomes of it, a call leaves the rule open that it is made on. The rule that it gives
back is open too, and below that one. -/
theorem perform_open (call : Call) (ht : t.Open scope) :
    ((c.perform scope call).run t).2.Open scope ∧
      ∀ id, ((c.perform scope call).run t).1 = .ok id →
        ((c.perform scope call).run t).2.Open id ∧
          ((c.perform scope call).run t).2.Below scope id := by
  cases himport : call.isImport with
  | false =>
    obtain ⟨t', hnodes, -, hrun⟩ := c.perform_run scope himport t
    rw [hrun]
    exact carryOut_open (ht.of_nodes hnodes) _
  | true =>
    cases call with
    | importFile site expression =>
      have himp := c.importFile_open (site.directory c.sourceRoot) scope expression t ht
      rw [perform, run_bind]
      split
      · rename_i t' heq
        rw [heq] at himp
        refine ⟨himp, fun id hid => ?_⟩
        cases hid
        exact ⟨himp, .self⟩
      · rename_i e t' heq
        rw [heq] at himp
        exact ⟨himp, fun id hid => by cases hid⟩
    | _ => cases himport

/-! ## Scripts -/

mutual

theorem runStep_open : ∀ (s : Step) (scope : RuleId) (t : RuleTree), t.Open scope →
    (c.runStep scope s t).tree.Open scope ∧
      (c.runStep scope s t).Throughout RuleTree.Chronological
  | .mk call caught inner, scope, t, ht => by
    obtain ⟨hopen, hid⟩ := c.perform_open call ht
    rw [runStep]
    split
    · rename_i id t' heq
      rw [heq] at hopen hid
      obtain ⟨hnew, hbelow⟩ := hid id rfl
      obtain ⟨hinner, hall⟩ := runSteps_open inner id t' hnew
      have hgrows := c.runSteps_grows inner id t' hnew.lt_size
      have hlt := Nat.lt_of_lt_of_le hopen.lt_size hgrows.size_le
      have hfirst : Outcome.Throughout RuleTree.Chronological ⟨[⟨call, id, none, t'⟩], t', none⟩ :=
        ⟨hnew.chronological, List.forall_mem_singleton.mpr hnew.chronological⟩
      exact ⟨hinner.of_below hlt (hgrows.keeps_below hbelow),
        hfirst.followedBy (c.runSteps id inner) hall⟩
    · rename_i e t' heq
      rw [heq] at hopen
      exact ⟨hopen, hopen.chronological, List.forall_mem_singleton.mpr hopen.chronological⟩

theorem runSteps_open : ∀ (ss : List Step) (scope : RuleId) (t : RuleTree), t.Open scope →
    (c.runSteps scope ss t).tree.Open scope ∧
      (c.runSteps scope ss t).Throughout RuleTree.Chronological
  | [], _, _, ht => ⟨ht, ht.chronological, fun _ hm => absurd hm List.not_mem_nil⟩
  | s :: ss, scope, t, ht => by
    obtain ⟨hopen, hall⟩ := runStep_open s scope t ht
    obtain ⟨hrest, hrestAll⟩ := runSteps_open ss scope _ hopen
    rw [runSteps]
    refine ⟨?_, hall.followedBy (c.runSteps scope ss) hrestAll⟩
    rw [Outcome.followedBy]
    split
    · exact hopen
    · exact hrest

end

theorem run_chronological (script : List Step) :
    ∀ t ∈ freshTree :: (c.run script).tree :: (c.run script).moments.map (·.tree),
      t.Chronological := by
  have hfresh : freshTree.Open rootId := RuleTree.open_ofRoot _
  obtain ⟨-, htree, hmoments⟩ := c.runSteps_open script rootId freshTree hfresh
  exact List.forall_mem_cons.mpr ⟨hfresh.chronological,
    List.forall_mem_cons.mpr ⟨htree, List.forall_mem_map.mpr hmoments⟩⟩

/-- The walk through a tree of a run gives the rules in the order in which they were put in, after
every call, whatever becomes of it, and in the end. So does the walk through the tree that is
compiled. -/
theorem run_walk (script : List Step) :
    (∀ t ∈ freshTree :: (c.run script).tree :: (c.run script).moments.map (·.tree),
      t.walk = List.range t.size) ∧
    ∀ t d, c.compile script = .ok (t, d) → t.walk = List.range t.size := by
  have hrun : ∀ t ∈ freshTree :: (c.run script).tree :: (c.run script).moments.map (·.tree),
      t.walk = List.range t.size := fun t ht =>
    (c.run_built script t ht).walk_eq_range (c.run_chronological script t ht)
  refine ⟨hrun, fun t d h => ?_⟩
  have ht := (eq_of_compile h).1
  exact hrun t (by simp [ht])

/-- A compiler with a file that has a child, an include and another child. What is included breaks
off below its second rule, at a behavior that is unknown. -/
def interruptedCompiler : Compiler :=
  { plainCompiler with
    registry := ⟨[("v1", ⟨.bool true, .d7⟩)]⟩
    files := .ofTexts [
      ("rules/part.json",
        "\x7b\"children\": [\x7b\"name\": \"a\"\x7d, \"#include:more.json\", \x7b\x7d]\x7d"),
      ("rules/more.json",
        "\x7b\"children\": [\x7b\"behaviors\": [\x7b\"name\": \"unknown\"\x7d]\x7d]\x7d")] }

/-- An import in a group that breaks off, and groups in that one and after it. -/
def interruptedScript : List Step :=
  [.mk (.group ⟨"rules/site", 1⟩ "first" none) false
    [.mk (.importFile ⟨"rules/site", 2⟩ "part.json") true [],
      .mk (.group ⟨"rules/site", 3⟩ "second" none) false []],
    .mk (.group ⟨"rules/site", 4⟩ "third" none) false []]

set_option maxRecDepth 10000 in
theorem run_walk_interrupted :
    (interruptedCompiler.run interruptedScript).failure = none ∧
      (interruptedCompiler.run interruptedScript).moments.map
          (fun m => (m.failure.isSome, m.tree.childrenOf 1, m.tree.walk)) =
        [(false, [], [0, 1]), (true, [2], [0, 1, 2, 3, 4, 5]),
          (false, [2, 6], [0, 1, 2, 3, 4, 5, 6]), (false, [2, 6], [0, 1, 2, 3, 4, 5, 6, 7])] ∧
      (interruptedCompiler.run interruptedScript).tree.walk =
        List.range (interruptedCompiler.run interruptedScript).tree.size ∧
      ∃ t d, interruptedCompiler.compile interruptedScript = .ok (t, d) ∧
        t.walk = List.range t.size := by
  obtain ⟨hrun, hcompile⟩ := interruptedCompiler.run_walk interruptedScript
  have hmoments : (interruptedCompiler.run interruptedScript).failure = none ∧
      (interruptedCompiler.run interruptedScript).moments.map
          (fun m => (m.failure.isSome, m.tree.childrenOf 1, m.tree.walk)) =
        [(false, [], [0, 1]), (true, [2], [0, 1, 2, 3, 4, 5]),
          (false, [2, 6], [0, 1, 2, 3, 4, 5, 6]), (false, [2, 6], [0, 1, 2, 3, 4, 5, 6, 7])] := by
    decide +kernel
  obtain ⟨t, d, hdone⟩ : ∃ t d, interruptedCompiler.compile interruptedScript = .ok (t, d) :=
    ⟨_, _, by unfold compile; simp only [hmoments.1]; rfl⟩
  exact ⟨hmoments.1, hmoments.2, hrun _ (List.mem_cons_of_mem _ List.mem_cons_self), t, d, hdone,
    hcompile t d hdone⟩

end Compiler

end DeliveryRules
