import DeliveryRules.CommandLine.Report
import DeliveryRules.Proofs.Compiler.Faithful
import DeliveryRules.Proofs.Fragment.Legible

/-!
# Documents are read again from their text

- **Calls** (`Call.Legible`): where the options in a script can be written down, so can those of all
  uses in the tree, after every call (`Compiler.run_legible`).
- **Documents** (`RuleTree.Legible.document`): then the document can be written down. It is nested
  twice as deep as the tree, at least (`RuleTree.depth_document`).
- `Compiler.read_compiled`: the text of a document is read unless it is nested too deep, and what is
  read has the provenances of the document.
-/

namespace DeliveryRules

/-! ## Calls -/

/-- The entries of a call. -/
def Call.entries : Call → List Entry
  | .behavior e | .criteria e | .add _ e => [e]
  | .compose _ _ entries => entries
  | .name _ | .comment _ | .group .. | .importFile .. => []

/-- The options in a call can be written down. -/
def Call.Legible (call : Call) : Prop := ∀ e ∈ call.entries, e.options.Legible

theorem Catalog.legible_of_entry {c : Catalog} (hc : c.Legible) {kind : Capability.Kind} {e : Entry}
    (he : e.options.Legible) {use : Capability} (h : c.entry kind e = .ok use) : use.Legible := by
  obtain ⟨u, hu, rfl⟩ := map_eq_ok.mp h
  exact legible_of_use hc he hu

/-- What becomes of a rule, or the new rule, can be written down. -/
def Effect.Legible : Effect → Prop
  | .change f => ∀ r, r.Legible → (f r).Legible
  | .child r => r.Legible

theorem Call.legible_effect {c : Catalog} (hc : c.Legible) {call : Call} (hcall : call.Legible)
    {effect : Effect} (h : call.effect c = .ok effect) : effect.Legible := by
  have hbehavior {e : Entry} (he : e.options.Legible)
      (h : ((c.entry .behavior e).map fun use => Effect.change (Rule.addBehavior use)) =
        .ok effect) : effect.Legible := by
    obtain ⟨use, huse, rfl⟩ := map_eq_ok.mp h
    exact fun r hr => hr.addBehavior (Catalog.legible_of_entry hc he huse)
  have hcriterion {e : Entry} (he : e.options.Legible)
      (h : ((c.entry .criteria e).map fun use =>
        Effect.child { criteria := [use], provenance := some (.ofSite e.site) }) = .ok effect) :
      effect.Legible := by
    obtain ⟨use, huse, rfl⟩ := map_eq_ok.mp h
    exact Rule.legible_of_criteria
      (List.forall_mem_singleton.mpr (Catalog.legible_of_entry hc he huse)) rfl
  cases call with
  | name text | comment text | importFile site expression =>
    cases h
    exact fun _ hr => hr
  | group site label remark =>
    cases h
    exact Rule.legible_of_criteria nofun rfl
  | behavior e => exact hbehavior (hcall e List.mem_cons_self) h
  | criteria e => exact hcriterion (hcall e List.mem_cons_self) h
  | add kind e =>
    cases kind with
    | criteria => exact hcriterion (hcall e List.mem_cons_self) h
    | behavior => exact hbehavior (hcall e List.mem_cons_self) h
  | compose policy site entries =>
    obtain ⟨uses, huses, rfl⟩ := map_eq_ok.mp h
    refine Rule.legible_of_criteria (fun use huse => ?_) rfl
    obtain ⟨e, he, hentry⟩ := exists_of_mem_mapM huses huse
    exact Catalog.legible_of_entry hc (hcall e he) hentry

namespace Compiler

variable {c : Compiler}

theorem carryOut_legible {scope : RuleId} {t : RuleTree} (ht : t.Legible)
    {x : Except CompileError Effect} (hx : ∀ effect, x = .ok effect → effect.Legible) :
    (carryOut scope t x).2.Legible := by
  cases x with
  | error e => exact ht
  | ok effect =>
    have heffect := hx effect rfl
    cases effect with
    | change f => exact ht.change scope heffect
    | child r => exact ht.insert scope heffect

/-- Whatever becomes of a call, the options of all uses can be written down. -/
theorem perform_legible (hc : c.catalog.Legible) (scope : RuleId) {call : Call}
    (hcall : call.Legible) : (c.perform scope call).Keeps RuleTree.Legible := by
  intro t ht
  cases himport : call.isImport with
  | false =>
    obtain ⟨t', hnodes, -, hrun⟩ := c.perform_run scope himport t
    rw [hrun]
    refine carryOut_legible ?_ fun effect heffect => Call.legible_effect hc hcall heffect
    rwa [RuleTree.Legible, hnodes]
  | true =>
    cases call with
    | importFile site expression =>
      exact (Workshop.importFile_legible hc _ _ _).bind (fun _ => Build.keeps_pure _) t ht
    | _ => cases himport

theorem legible_freshTree : freshTree.Legible := fun n hn => by
  obtain rfl := List.mem_singleton.mp hn
  exact Rule.legible_of_criteria nofun rfl

theorem run_legible (hc : c.catalog.Legible) {script : List Step}
    (hscript : ∀ call ∈ Step.callsOfAll script, call.Legible) :
    ∀ t ∈ freshTree :: (c.run script).tree :: (c.run script).moments.map (·.tree), t.Legible :=
  run_throughout (fun call hcall scope t _ ht => perform_legible hc scope (hscript call hcall) t ht)
    legible_freshTree

end Compiler

/-! ## Documents -/

theorem Capability.Legible.toJson {use : Capability} (h : use.Legible) : use.toJson.Legible := by
  refine Json.legible_object.mpr ⟨by simp, ?_⟩
  simp only [List.forall_mem_cons]
  exact ⟨Json.legible_string _, h, Json.legible_string _, nofun⟩

theorem Variable.legible_toJson (v : Variable) : v.toJson.Legible := by
  refine Json.legible_object.mpr ⟨by simp, ?_⟩
  simp only [List.forall_mem_cons]
  exact ⟨Json.legible_string _, Json.legible_string _, Json.legible_string _, Json.legible_bool _,
    Json.legible_bool _, Json.legible_string _, nofun⟩

theorem Rule.Legible.toMembers {r : Rule} (h : r.Legible) {declared children : List Json}
    (hdeclared : ∀ j ∈ declared, j.Legible) (hchildren : ∀ j ∈ children, j.Legible) :
    (Json.object (r.toMembers declared children)).Legible := by
  have hlist {name : String} {items : List Json} (hitems : ∀ j ∈ items, j.Legible)
      {m : String × Json} (hm : m ∈ unlessEmpty name items) : m.2.Legible := by
    rw [eq_of_mem_unlessEmpty hm]
    exact Json.legible_array.mpr hitems
  have huses (kind : Capability.Kind) : ∀ j ∈ (r.uses kind).map Capability.toJson, j.Legible :=
    List.forall_mem_map.mpr fun use huse => (h kind use huse).toJson
  obtain ⟨members, heq, -, hnames, -⟩ := r.inOrder_toMembers declared children
  cases heq
  refine Json.legible_object.mpr ⟨hnames.nodup (by decide), fun m hm => ?_⟩
  simp only [Rule.toMembers, List.mem_append, List.mem_cons, List.not_mem_nil, or_false,
    Option.mem_toList, Option.map_eq_some_iff] at hm
  rcases hm with ((((((hm | hm) | ⟨p, -, hm⟩) | hm) | ⟨p, -, hm⟩) | hm) | hm) | hm
  · exact hm ▸ Json.legible_string _
  · exact hm ▸ Json.legible_string _
  · exact hm ▸ Json.legible_string _
  · exact hlist (huses .criteria) hm
  · exact hm ▸ Json.legible_string _
  · exact hlist hdeclared hm
  · exact hlist (huses .behavior) hm
  · exact hlist hchildren hm

mutual

/-- With each rule on the way down there is an object, and an array of children but for the last. -/
theorem Outline.depth_le_toJson : ∀ (o : Outline) (declared : List Json),
    2 * o.depth ≤ (o.toJson declared).depth + 1
  | .node id r children, declared => by
    have hbelow := Outline.depth_le_below children
    rw [Outline.depth, Outline.toJson]
    cases children with
    | nil =>
      rw [Json.depth]
      exact Nat.le_add_left _ _
    | cons o os =>
      have hmem : ("children", Json.array (Outline.toJson.below (o :: os))) ∈
          r.toMembers declared (Outline.toJson.below (o :: os)) :=
        List.mem_append_right _ List.mem_cons_self
      have hlt := Json.depth_lt_of_member hmem
      omega

theorem Outline.depth_le_below : ∀ os : List Outline,
    2 * Outline.depth.deepest os ≤ (Json.array (Outline.toJson.below os)).depth
  | [] => Nat.zero_le _
  | o :: os => by
    have hfirst := Outline.depth_le_toJson o []
    have hrest := Outline.depth_le_below os
    rw [Json.depth] at hrest ⊢
    rw [Outline.depth.deepest, Outline.toJson.below, Json.depth.ofItems]
    omega

end

namespace RuleTree

variable {t : RuleTree}

theorem Legible.ruleAt (h : t.Legible) (id : RuleId) : (t.ruleAt id).Legible := by
  unfold RuleTree.ruleAt
  cases hn : t.node? id with
  | none => exact Rule.legible_of_criteria nofun rfl
  | some n => exact h n (List.mem_of_getElem? hn)

theorem Legible.outlineFrom (h : t.Legible) (fuel : Nat) (id : RuleId) {declared : List Json}
    (hdeclared : ∀ j ∈ declared, j.Legible) :
    ((t.outlineFrom fuel id).toJson declared).Legible := by
  induction fuel generalizing id declared with
  | zero => exact (h.ruleAt id).toMembers hdeclared (List.forall_mem_nil _)
  | succ fuel ih =>
    rw [RuleTree.outlineFrom, Outline.toJson, toJson_below, List.map_map]
    have hnone := List.forall_mem_nil Json.Legible
    exact (h.ruleAt id).toMembers hdeclared (List.forall_mem_map.mpr fun k _ => ih k hnone)

theorem Legible.document (h : t.Legible) (version : String) :
    (t.document version).toJson.Legible := by
  refine Json.legible_object.mpr ⟨by simp, ?_⟩
  simp only [List.forall_mem_cons]
  exact ⟨Json.legible_string _, h.outlineFrom _ _
    (List.forall_mem_map.mpr fun v _ => v.legible_toJson), nofun⟩

/-- The document is nested twice as deep as the tree, at least. -/
theorem depth_document (t : RuleTree) (version : String) :
    2 * t.depth ≤ (t.document version).toJson.depth := by
  have hrules := t.outline.depth_le_toJson (t.declared.map Variable.toJson)
  have hlt : t.rules.depth < (t.document version).toJson.depth :=
    Json.depth_lt_of_member (List.mem_cons_of_mem ("ruleFormat", _) List.mem_cons_self)
  rw [RuleTree.rules] at hlt
  rw [depth]
  omega

end RuleTree

namespace Compiler

open Pointer (nearestProvenance tokens)

/-- What a compile returns: the tree that a script builds, or that of a fragment, and its document.
The options in a script are values that can be written down. -/
inductive Returns (c : Compiler) : RuleTree → Document → Prop
  | script {script : List Step} {t : RuleTree} {document : Document}
      (hscript : ∀ call ∈ Step.callsOfAll script, call.Legible)
      (h : c.compile script = .ok (t, document)) : Returns c t document
  | fragment {path : Path} {t : RuleTree} (h : CommandLine.treeOf c path = .ok t) :
      Returns c t (t.document c.ruleFormat)

theorem Returns.legible {c : Compiler} (hc : c.catalog.Legible) {t : RuleTree} {document : Document}
    (h : c.Returns t document) : t.Legible ∧ document = t.document c.ruleFormat := by
  cases h with
  | script hscript h =>
    obtain ⟨rfl, rfl⟩ := eq_of_compile h
    exact ⟨run_legible hc hscript _ (List.mem_cons_of_mem _ List.mem_cons_self), rfl⟩
  | fragment h =>
    rename_i path
    have hkept := Workshop.importFile_legible hc ⟨"/"⟩ RuleTree.rootId path.text freshTree
      legible_freshTree
    unfold CommandLine.treeOf at h
    split at h
    · rename_i t' heq
      cases h
      rw [heq] at hkept
      exact ⟨hkept, rfl⟩
    · cases h

/-- The text of a document is read, with or without gaps after it, if and only if the document is
not nested too deep, which it is if the tree is. What is read has the provenance of the document for
every pointer. -/
theorem read_compiled {c : Compiler} (hc : c.catalog.Legible) {t : RuleTree} {document : Document}
    (h : c.Returns t document) {ending : String} (hending : ∀ ch ∈ ending.toList, Json.isGap ch) :
    ((∃ j, Json.read (document.text ++ ending) = .ok j) ↔ document.toJson.depth ≤ Json.maxDepth) ∧
      2 * t.depth ≤ document.toJson.depth ∧
      ∀ j, Json.read (document.text ++ ending) = .ok j → ∀ pointer,
        nearestProvenance j (tokens pointer) =
          nearestProvenance document.toJson (tokens pointer) := by
  obtain ⟨ht, rfl⟩ := h.legible hc
  have hlegible := ht.document c.ruleFormat
  refine ⟨⟨?_, ?_⟩, t.depth_document _, ?_⟩
  · rintro ⟨j, hj⟩
    exact Json.depth_of_read_pretty hlegible hending hj
  · intro hdepth
    obtain ⟨j, hj, -⟩ := Json.read_pretty hlegible hdepth hending
    exact ⟨j, hj⟩
  · intro j hj pointer
    obtain ⟨k, hk, hblurred⟩ :=
      Json.read_pretty hlegible (Json.depth_of_read_pretty hlegible hending hj) hending
    obtain rfl : j = k := Except.ok.inj (hj.symm.trans hk)
    exact Pointer.nearestProvenance_eq_of_blurred hblurred _

theorem legible_plainCatalog : plainCompiler.catalog.Legible := by
  intro kind d hd
  cases kind with
  | criteria =>
    obtain rfl := List.mem_singleton.mp hd
    exact Json.legible_object.mpr ⟨List.nodup_nil, nofun⟩
  | behavior =>
    obtain rfl := List.mem_singleton.mp hd
    exact Json.legible_object.mpr
      ⟨by decide, List.forall_mem_singleton.mpr (Json.legible_string _)⟩

/-- One behavior, in a group. -/
def groupedScript : List Step :=
  [.mk (.group ⟨"rules/site.rs", 3⟩ "assets" (some "kept\nlong")) false
    [.mk (.behavior ⟨⟨"rules/site.rs", 4⟩, "caching", .object [("ttl", .string "7d")]⟩) false []]]

theorem read_compiled_grouped :
    ∃ t document, plainCompiler.compile groupedScript = .ok (t, document) ∧
      ∃ j, Json.read (document.text ++ "\n") = .ok j ∧
        nearestProvenance j (tokens "/rules/children/0/behaviors/0/options/ttl") =
          some "rules/site.rs:4" := by
  have hscript : ∀ call ∈ Step.callsOfAll groupedScript, call.Legible := by
    refine List.forall_mem_cons.mpr ⟨nofun, List.forall_mem_singleton.mpr ?_⟩
    exact List.forall_mem_singleton.mpr (Json.legible_object.mpr
      ⟨by decide, List.forall_mem_singleton.mpr (Json.legible_string _)⟩)
  have hcompile : plainCompiler.compile groupedScript =
      .ok ((plainCompiler.run groupedScript).tree,
        (plainCompiler.run groupedScript).tree.document "v1") := rfl
  have hnewline : ∀ ch ∈ "\n".toList, Json.isGap ch := by simp [Json.isGap]
  obtain ⟨hread, -, hsame⟩ := read_compiled legible_plainCatalog (.script hscript hcompile) hnewline
  obtain ⟨j, hj⟩ := hread.mpr (by decide +kernel)
  refine ⟨_, _, hcompile, j, hj, ?_⟩
  rw [hsame j hj]
  decide +kernel

/-- Groups within groups. -/
def nestedGroups : Nat → List Step
  | 0 => []
  | n + 1 => [.mk (.group ⟨"rules/site.rs", n⟩ "deeper" none) false (nestedGroups n)]

theorem legible_nestedGroups (n : Nat) :
    ∀ call ∈ Step.callsOfAll (nestedGroups n), call.Legible := by
  induction n with
  | zero => exact nofun
  | succ n ih =>
    rw [nestedGroups, Step.callsOfAll, Step.calls, Step.callsOfAll, List.append_nil]
    exact List.forall_mem_cons.mpr ⟨nofun, ih⟩

/-- The document of a tree with 64 rules in a row has provenances, but its text is not read. -/
theorem unread_nestedGroups :
    ∃ t document, plainCompiler.compile (nestedGroups 63) = .ok (t, document) ∧
      nearestProvenance document.toJson (tokens "/rules/children/0/name") =
        some "rules/site.rs:62" ∧
      ∀ j, Json.read document.text ≠ .ok j := by
  have hfailure : (plainCompiler.run (nestedGroups 63)).failure = none := by decide +kernel
  have hdeep : (plainCompiler.run (nestedGroups 63)).tree.depth = 64 := by decide +kernel
  refine ⟨_, _, by unfold compile; simp only [hfailure]; rfl, by decide +kernel, fun j hj => ?_⟩
  have hlegible := run_legible legible_plainCatalog (legible_nestedGroups 63) _
    (List.mem_cons_of_mem _ List.mem_cons_self)
  have hgaps : ∀ ch ∈ "".toList, Json.isGap ch := by simp
  rw [← String.append_empty (s := Document.text _)] at hj
  have hroom := Json.depth_of_read_pretty (hlegible.document _) hgaps hj
  have hdepth := (plainCompiler.run (nestedGroups 63)).tree.depth_document plainCompiler.ruleFormat
  rw [hdeep] at hdepth
  exact absurd (Nat.le_trans hdepth hroom) (by decide)

end Compiler

end DeliveryRules
