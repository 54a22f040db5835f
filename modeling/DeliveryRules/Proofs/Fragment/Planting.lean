import DeliveryRules.Proofs.Fragment.Expansion
import DeliveryRules.Proofs.Rule.Sketch

/-!
# What planting leaves behind

- **The rules** (`Expansion.sketch`): a rule for each rule of an expansion, with the same children
  in the same order. Planting adds this sketch to the rule that is planted in, or fails with the
  error of the first use that is refused (`Expansion.plant_sketch`).
- **The variables** (`Expansion.declarations`): what a rule declares itself comes before what is
  declared below it. Planting declares these variables in this order (`Expansion.plant_declared`).
-/

namespace DeliveryRules

namespace Sketch

theorem foldl_add (r : Rule) (children added : List Sketch) :
    added.foldl add (.node r children) = .node r (children ++ added) := by
  induction added generalizing children with
  | nil => simp
  | cons s added ih => simp [add, ih]

end Sketch

namespace RuleTree

theorem grows_declareAll (t : RuleTree) (scope : RuleId) (vs : List Variable) :
    t.Grows scope (t.declareAll vs) := by
  suffices h : ∀ t', t.Grows scope t' → t.Grows scope (t'.declareAll vs) from h t .refl
  induction vs with
  | nil => exact fun _ h => h
  | cons v vs ih => exact fun t' h => ih _ (h.declare v)

end RuleTree

namespace Expansion

variable (c : Catalog)

mutual

/-- The rules that an expansion stands for, if all its uses of capabilities are granted. -/
def sketch : Expansion → Except CompileError Sketch
  | .node s way origin head es =>
    (head.uses c s way).bind fun uses =>
      (sketchAll es).map fun below => .node (head.rule origin uses) below

def sketchAll : List Expansion → Except CompileError (List Sketch)
  | [] => .ok []
  | e :: es => (sketch e).bind fun first => (sketchAll es).map fun rest => first :: rest

end

mutual

/-- The variables that an expansion declares, if all its uses of capabilities are granted. -/
def declarations : Expansion → Except CompileError (List Variable)
  | .node s way _ head es =>
    (head.uses c s way).bind fun uses =>
      (declarationsOfAll es).map fun below => head.declarations s way uses ++ below

def declarationsOfAll : List Expansion → Except CompileError (List Variable)
  | [] => .ok []
  | e :: es =>
    (declarations e).bind fun first => (declarationsOfAll es).map fun rest => first ++ rest

end

variable {c}

mutual

/-- Planting adds the sketch of an expansion below a rule, or fails as this does. -/
theorem plant_sketch : ∀ (e : Expansion) {parent : RuleId} {t : RuleTree}, t.WellFormed →
    parent < t.size →
      match e.sketch c with
      | .ok sketch => ∃ t', e.plant c parent t = .ok t' ∧ t.Grows parent t' ∧
          t'.sketchAt parent = (t.sketchAt parent).add sketch
      | .error error => e.plant c parent t = .error error
  | .node s way origin head es, parent, t, ht, hparent => by
    rw [sketch, plant]
    cases head.uses c s way with
    | error error => rfl
    | ok uses =>
      let r := head.rule origin uses
      let t₁ := (t.insert parent r).declareAll (head.declarations s way uses)
      have hr : r.provenance.isSome := rfl
      have hsize : t.size < (t.insert parent r).size := by simp
      have hdeclared : (t.insert parent r).Grows t.size t₁ := RuleTree.grows_declareAll _ _ _
      have ht₁ : t₁.WellFormed := hdeclared.wellFormed (ht.insert hparent hr)
      have hnewest : t₁.sketchAt t.size = .node r [] := by
        rw [RuleTree.sketchAt_of_nodes (ht.insert hparent hr) (RuleTree.nodes_declareAll _ _)
          hsize, RuleTree.sketchAt_newest ht hparent hr]
      have hbelow := plantAll_sketch es ht₁ (Nat.lt_of_lt_of_le hsize hdeclared.size_le)
      simp only [Except.bind]
      cases hes : sketchAll c es with
      | error error =>
        rw [hes] at hbelow
        exact hbelow
      | ok below =>
        rw [hes] at hbelow
        obtain ⟨t', hplant, hgrows, hsketch⟩ := hbelow
        have hg := hdeclared.trans (.inl rfl) hgrows
        rw [hnewest, Sketch.foldl_add, List.nil_append] at hsketch
        refine ⟨t', hplant, ?_, ?_⟩
        · exact .of_insert hr hparent hg
        · rw [RuleTree.sketchAt_insert ht hparent hr hg, hsketch]

theorem plantAll_sketch : ∀ (es : List Expansion) {id : RuleId} {t : RuleTree}, t.WellFormed →
    id < t.size →
      match sketchAll c es with
      | .ok below => ∃ t', plantAll c es id t = .ok t' ∧ t.Grows id t' ∧
          t'.sketchAt id = below.foldl Sketch.add (t.sketchAt id)
      | .error error => plantAll c es id t = .error error
  | [], _, t, _, _ => ⟨t, rfl, .refl, rfl⟩
  | e :: es, id, t, ht, hid => by
    have hfirst := plant_sketch e ht hid
    rw [sketchAll, plantAll]
    cases he : e.sketch c with
    | error error =>
      rw [he] at hfirst
      simp only at hfirst
      rw [hfirst]
      rfl
    | ok first =>
      rw [he] at hfirst
      obtain ⟨t₁, hplant, hgrows, hsketch⟩ := hfirst
      have hrest := plantAll_sketch es (hgrows.wellFormed ht)
        (Nat.lt_of_lt_of_le hid hgrows.size_le)
      rw [hplant]
      simp only [Except.bind]
      cases hes : sketchAll c es with
      | error error =>
        rw [hes] at hrest
        exact hrest
      | ok rest =>
        rw [hes] at hrest
        obtain ⟨t₂, hplants, hgrows', hsketch'⟩ := hrest
        exact ⟨t₂, hplants, hgrows.trans (.inl rfl) hgrows', by rw [hsketch', hsketch]; rfl⟩

end

mutual

/-- What was planted has declared its variables. -/
theorem plant_declared : ∀ (e : Expansion) {parent : RuleId} {t t' : RuleTree},
    e.plant c parent t = .ok t' →
      ∃ vs, e.declarations c = .ok vs ∧ t'.declared = t.declared.declareAll vs
  | .node s way origin head es, parent, t, t', h => by
    rw [plant] at h
    cases huses : head.uses c s way with
    | error error =>
      rw [huses] at h
      cases h
    | ok uses =>
      rw [huses] at h
      obtain ⟨below, hbelow, hdeclared⟩ := plantAll_declared es h
      refine ⟨head.declarations s way uses ++ below, ?_, ?_⟩
      · rw [declarations, huses]
        simp only [Except.bind, hbelow]
        rfl
      · rw [hdeclared, VariableTable.declareAll_append]
        rfl

theorem plantAll_declared : ∀ (es : List Expansion) {id : RuleId} {t t' : RuleTree},
    plantAll c es id t = .ok t' →
      ∃ vs, declarationsOfAll c es = .ok vs ∧ t'.declared = t.declared.declareAll vs
  | [], _, t, t', h => by
    cases h
    exact ⟨[], rfl, rfl⟩
  | e :: es, id, t, t', h => by
    rw [plantAll] at h
    cases hfirst : e.plant c id t with
    | error error =>
      rw [hfirst] at h
      cases h
    | ok t₁ =>
      rw [hfirst] at h
      obtain ⟨first, he, hdeclared⟩ := plant_declared e hfirst
      obtain ⟨rest, hes, hdeclared'⟩ := plantAll_declared es h
      refine ⟨first ++ rest, ?_, ?_⟩
      · rw [declarationsOfAll, he]
        simp only [Except.bind, hes]
        rfl
      · rw [hdeclared', hdeclared, VariableTable.declareAll_append]

end

end Expansion

end DeliveryRules
