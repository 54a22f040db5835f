import DeliveryRules.Proofs.Fragment.Includes
import DeliveryRules.Proofs.Rule.Alike

/-!
# Includes and rules written inline

- **The rule of an expansion** (`Expansion.rule`): the rule in which each mention has been replaced
  by the rule of the fragment, as it could have been written in one file.
- **Uses from elsewhere** (`FragmentHead.uses_alike`): where a head stands decides about nothing but
  the places of what it becomes.
- **Planting** (`Expansion.plant_alike`): expansions of the same rule, planted in trees that are
  alike, leave trees that are alike.
- `Workshop.importFile_alike_place`: what is imported without error could have been placed as one
  rule.
-/

namespace DeliveryRules

namespace Expansion

mutual

/-- The rule that an expansion stands for, without any mention. -/
def rule : Expansion → FragmentRule
  | .node _ _ _ head es => .mk head (rules es)

def rules : List Expansion → List FragmentChild
  | [] => []
  | e :: es => .rule (rule e) :: rules es

end

end Expansion

/-! ## Uses from elsewhere -/

/-- The same use, possibly from elsewhere. -/
structure Use.Alike (u u' : Use) : Prop where
  capability_eq : u.1.unplaced = u'.1.unplaced
  names_eq : u.2 = u'.2

theorem Use.Alike.found {u u' : Use} (h : Use.Alike u u') :
    List.Forall₂ Variable.Alike (Use.found u) (Use.found u') := by
  rw [Use.found, Use.found, h.names_eq, List.forall₂_map_left_iff, List.forall₂_map_right_iff]
  exact List.forall₂_same.mpr fun name _ => Variable.alike_found name _ _

theorem Catalog.use_alike {c : Catalog} {kind : Capability.Kind} {name : String} {given : Json}
    {p : Provenance} {u : Use} (h : c.use kind name given p = .ok u) (p' : Provenance) :
    ∃ u', c.use kind name given p' = .ok u' ∧ Use.Alike u u' := by
  obtain ⟨d, hd, hoptions, hnames, rfl, rfl⟩ := use_eq_ok h
  refine ⟨(⟨u.1.name, u.1.options, p'⟩, u.2), ?_, rfl, rfl⟩
  unfold use require
  simp [hd, hoptions, Descriptor.mentions_eq, hnames, bind, Except.bind, pure, Except.pure]

theorem Source.uses_alike {s : Source} {c : Catalog} {kind : Capability.Kind} {way : List String}
    {entries : List FragmentEntry} {us : List Use} (h : s.uses c kind way entries = .ok us)
    (s' : Source) (way' : List String) :
    ∃ us', s'.uses c kind way' entries = .ok us' ∧ List.Forall₂ Use.Alike us us' := by
  unfold uses at h ⊢
  simp only [mapM_eq_ok] at h ⊢
  generalize entries.zipIdx = es at h ⊢
  induction h with
  | nil => exact ⟨[], .nil, .nil⟩
  | @cons e u es us hfirst _ ih =>
    obtain ⟨u', hfirst', hu⟩ := c.use_alike hfirst (s'.provenanceAt (way' ++ [toString e.2]))
    obtain ⟨us', hrest, halike⟩ := ih
    exact ⟨u' :: us', .cons hfirst' hrest, .cons hu halike⟩

namespace FragmentHead

variable {h : FragmentHead} {c : Catalog}

theorem uses_alike {s : Source} {way : List String} {uses : List Use × List Use}
    (huses : h.uses c s way = .ok uses) (s' : Source) (way' : List String) :
    ∃ uses', h.uses c s' way' = .ok uses' ∧ List.Forall₂ Use.Alike uses.1 uses'.1 ∧
      List.Forall₂ Use.Alike uses.2 uses'.2 := by
  unfold FragmentHead.uses at huses ⊢
  cases hcriteria : s.uses c .criteria (way ++ ["criteria"]) h.criteria with
  | error error => simp [hcriteria, bind, Except.bind] at huses
  | ok criteria =>
    cases hbehaviors : s.uses c .behavior (way ++ ["behaviors"]) h.behaviors with
    | error error => simp [hcriteria, hbehaviors, bind, Except.bind] at huses
    | ok behaviors =>
      simp only [hcriteria, hbehaviors, bind, Except.bind, pure, Except.pure,
        Except.ok.injEq] at huses
      subst huses
      obtain ⟨criteria', hcriteria', hc⟩ := Source.uses_alike hcriteria s' (way' ++ ["criteria"])
      obtain ⟨behaviors', hbehaviors', hb⟩ :=
        Source.uses_alike hbehaviors s' (way' ++ ["behaviors"])
      refine ⟨(criteria', behaviors'), ?_, hc, hb⟩
      simp only [hcriteria', hbehaviors', bind, Except.bind, pure, Except.pure]

variable {uses uses' : List Use × List Use}

theorem rule_unplaced (hc : List.Forall₂ Use.Alike uses.1 uses'.1)
    (hb : List.Forall₂ Use.Alike uses.2 uses'.2) (p p' : Provenance) :
    (h.rule p uses).unplaced = (h.rule p' uses').unplaced := by
  have hmap {us us' : List Use} (hus : List.Forall₂ Use.Alike us us') :
      (us.map (·.1)).map Capability.unplaced = (us'.map (·.1)).map Capability.unplaced := by
    induction hus with
    | nil => rfl
    | cons hu _ ih => simp only [List.map_cons, hu.capability_eq, ih]
  rw [Rule.unplaced, Rule.unplaced, rule, rule, hmap hc, hmap hb]

theorem declarations_alike (hc : List.Forall₂ Use.Alike uses.1 uses'.1)
    (hb : List.Forall₂ Use.Alike uses.2 uses'.2) (s s' : Source) (way way' : List String) :
    List.Forall₂ Variable.Alike (h.declarations s way uses) (h.declarations s' way' uses') := by
  have hvariables : List.Forall₂ Variable.Alike (h.listed s way) (h.listed s' way') := by
    rw [FragmentHead.listed, FragmentHead.listed, List.forall₂_map_left_iff,
      List.forall₂_map_right_iff]
    refine List.forall₂_same.mpr fun (v, i) _ => ⟨rfl, rfl, rfl, ?_⟩
    cases hdescription : v.description with
    | none => exact .inr ⟨by simp [hdescription], by simp [hdescription]⟩
    | some text => exact .inl (by simp [hdescription])
  have hfound {us us' : List Use} (hus : List.Forall₂ Use.Alike us us') :
      List.Forall₂ Variable.Alike (us.flatMap Use.found) (us'.flatMap Use.found) :=
    List.rel_flatMap hus fun _ _ hu => hu.found
  exact List.rel_append (List.rel_append hvariables (hfound hc)) (hfound hb)

end FragmentHead

/-! ## Planting -/

namespace Expansion

variable {c : Catalog}

mutual

/-- Expansions of one rule leave trees alike. -/
theorem plant_alike : ∀ (e e' : Expansion), e.rule = e'.rule → ∀ {parent : RuleId}
    {t t₁ t' : RuleTree}, e.plant c parent t = .ok t₁ → t.Alike t' →
      ∃ t₁', e'.plant c parent t' = .ok t₁' ∧ t₁.Alike t₁'
  | .node s way origin head es, .node s' way' origin' head' es', hrule, parent, t, t₁, t', h,
      ht => by
    obtain ⟨rfl, hrules⟩ := FragmentRule.mk.inj hrule
    rw [plant] at h
    cases huses : head.uses c s way with
    | error error =>
      rw [huses] at h
      cases h
    | ok uses =>
      rw [huses] at h
      obtain ⟨uses', huses', hc, hb⟩ := FragmentHead.uses_alike huses s' way'
      have hhead := (ht.insert parent (FragmentHead.rule_unplaced (h := head) hc hb origin
        origin')).declareAll (FragmentHead.declarations_alike (h := head) hc hb s s' way way')
      rw [plant, huses', ← ht.size_eq]
      exact plantAll_alike es es' hrules h hhead

theorem plantAll_alike : ∀ (es es' : List Expansion), rules es = rules es' → ∀ {id : RuleId}
    {t t₁ t' : RuleTree}, plantAll c es id t = .ok t₁ → t.Alike t' →
      ∃ t₁', plantAll c es' id t' = .ok t₁' ∧ t₁.Alike t₁'
  | [], [], _, id, t, t₁, t', h, ht => by
    cases h
    exact ⟨t', rfl, ht⟩
  | [], _ :: _, hrules, _, _, _, _, _, _ => by cases hrules
  | _ :: _, [], hrules, _, _, _, _, _, _ => by cases hrules
  | e :: es, e' :: es', hrules, id, t, t₁, t', h, ht => by
    obtain ⟨hfirst, hrest⟩ := List.cons.inj hrules
    rw [plantAll] at h ⊢
    cases hplant : e.plant c id t with
    | error error =>
      rw [hplant] at h
      cases h
    | ok t₂ =>
      rw [hplant] at h
      obtain ⟨t₂', hplant', ht₂⟩ := plant_alike e e' (FragmentChild.rule.inj hfirst) hplant ht
      rw [hplant']
      exact plantAll_alike es es' hrest h ht₂

end

end Expansion

/-! ## One rule -/

namespace Workshop

variable {w : Workshop}

mutual

/-- Without a mention in it, the rule of an expansion means itself, wherever it is written. -/
theorem expands_rule : ∀ (e : Expansion) (s : Source) (way : List String),
    ∃ e', w.Expands s way (.rule e.rule) e' ∧ e'.rule = e.rule
  | .node _ _ _ head es, s, way => by
    obtain ⟨es', below, hrules⟩ := expandsAll_rules es s (way ++ ["children"]) 0
    exact ⟨_, .node (.rule _) below, by rw [Expansion.rule, Expansion.rule, hrules]⟩

theorem expandsAll_rules : ∀ (es : List Expansion) (s : Source) (way : List String) (count : Nat),
    ∃ es', w.ExpandsAll s way count (Expansion.rules es) es' ∧
      Expansion.rules es' = Expansion.rules es
  | [], _, _, _ => ⟨[], .nil, rfl⟩
  | e :: es, s, way, count => by
    obtain ⟨e', first, hrule⟩ := expands_rule e s (way ++ [toString count])
    obtain ⟨es', rest, hrules⟩ := expandsAll_rules es s way (count + 1)
    exact ⟨e' :: es', .cons first rest, by rw [Expansion.rules, Expansion.rules, hrule, hrules]⟩

end

mutual

theorem mentions_rule : ∀ e : Expansion, e.rule.mentions = []
  | .node _ _ _ _ es => mentionsIn_rules es

theorem mentionsIn_rules : ∀ es : List Expansion,
    FragmentRule.mentionsIn (Expansion.rules es) = []
  | [] => rfl
  | e :: es => by
    rw [Expansion.rules, FragmentRule.mentionsIn, FragmentRule.mentionsOf, mentions_rule e,
      mentionsIn_rules es]
    rfl

end

/-- A file that was imported without error has one expansion. The rule of this expansion, in which
there is no mention any more, could have been placed instead, as if it was written anywhere: it
would have left the same rules and variables, but for their places. -/
theorem importFile_alike_place (w : Workshop) {directory : Path} {parent : RuleId}
    {expression : String} {t t' : RuleTree}
    (h : (w.importFile directory parent expression).run t = (.ok (), t')) :
    ∃ e, (∀ e', w.ExpandsFile (directory.resolve expression) e' ↔ e' = e) ∧
      ∀ (importer : Importer) (s : Source) (way : List String) (p : Provenance),
        ∃ t'', (w.place importer s e.rule parent way p).run t = (.ok (), t'') ∧ t'.Alike t'' := by
  obtain ⟨e, hfile, hplant⟩ := importWithin_expands _ _ _ _ _ _ _ (Build.outcome_eq_ok.mpr h)
  refine ⟨e, fun e' => ⟨fun h' => h'.unique hfile, ?_⟩, fun importer s way p => ?_⟩
  · rintro rfl
    exact hfile
  · obtain ⟨s₀, way₀, origin, head, es⟩ := e
    obtain ⟨es', below, hrules⟩ := expandsAll_rules es s (way ++ ["children"]) 0 (w := w)
    have himp : importer.Plants w s (FragmentRule.mentionsIn (Expansion.rules es)) := by
      rw [mentionsIn_rules]
      exact nofun
    have houtcome : (w.place importer s (.mk head (Expansion.rules es)) parent way p).outcome t =
        _ := place_outcome below himp parent p t
    obtain ⟨t'', hplant', halike⟩ := Expansion.plant_alike _ (.node s way p head es')
      (by rw [Expansion.rule, Expansion.rule, hrules]) hplant (.refl t)
    rw [hplant'] at houtcome
    exact ⟨t'', Build.outcome_eq_ok.mp houtcome, halike⟩

/-- An inline child before an include, which leads into another directory and back. -/
def nested : Workshop :=
  { diamond with files := .ofTexts [
    ("a/top.json",
      "\x7b\"children\": [\x7b\"name\": \"inline\"\x7d, \"#include: b/part.json\"]\x7d"),
    ("a/b/part.json", "\x7b\"name\": \"part\", \"children\": [\"#include:../leaf.json\"]\x7d"),
    ("a/leaf.json", "\x7b\"name\": \"leaf\"\x7d")] }

theorem importFile_alike_place_nested :
    let result := (nested.importFile ⟨""⟩ RuleTree.rootId "a/top.json").run (.ofRoot {})
    result.2.nodes.map (·.rule.name) = [none, none, some "inline", some "part", some "leaf"] ∧
      result = (.ok (), result.2) ∧
      ∃ e, (∀ e', nested.ExpandsFile (Path.resolve ⟨""⟩ "a/top.json") e' ↔ e' = e) ∧
        ∀ (importer : Importer) (s : Source) (way : List String) (p : Provenance),
          ∃ t'', (nested.place importer s e.rule RuleTree.rootId way p).run (.ofRoot {}) =
            (.ok (), t'') ∧ result.2.Alike t'' := by
  have himported : nested.imported "a/top.json" =
      (true, [none, none, some "inline", some "part", some "leaf"]) := by
    set_option maxRecDepth 10000 in decide +kernel
  have hok := eq_ok_of_isOk (congrArg Prod.fst himported)
  have hresult : (nested.importFile ⟨""⟩ RuleTree.rootId "a/top.json").run (.ofRoot {}) =
      (.ok (), _) := Prod.ext hok rfl
  exact ⟨congrArg Prod.snd himported, hresult, nested.importFile_alike_place hresult⟩

end Workshop

end DeliveryRules
