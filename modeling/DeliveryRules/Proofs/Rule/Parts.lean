import DeliveryRules.Proofs.Json.Members
import DeliveryRules.Proofs.Pointer.Nearest
import DeliveryRules.Proofs.Rule.Sketch
import DeliveryRules.Rule.Document

/-!
# Parts of a tree and of its document

- **Members of a rule** (`get?_toMembers`): what stands under a name in the document.
- **Parts** (`Part`): what came from somewhere: the rules but for the root, the entries of
  capabilities and the variables. `RuleTree.part?` follows tokens through the tree itself, without
  the document; a name and an index lead to the part in a list (`RuleTree.partsUnder`).
- **Parts in the document** (`step?_ruleJson`): under a name a rule holds the values of these parts,
  in their order, or else nothing that came from somewhere. So what is found under a name is found
  in one of the parts (`nearestProvenance_under`).
-/

namespace DeliveryRules

open Pointer (step? recorded? nearestProvenance index? follow?)

/-! ## Members of a rule -/

/-- The value of a member that is there only if its list has items. -/
def filled (items : List Json) : Option Json :=
  if items.isEmpty then none else some (.array items)

theorem filled_of_mem {items : List Json} {j : Json} (h : j ∈ items) :
    filled items = some (.array items) := by
  cases items with
  | nil => cases h
  | cons item items => rfl

theorem lookup_unlessEmpty (name token : String) (items : List Json) :
    (unlessEmpty name items).lookup token = if token = name then filled items else none := by
  cases items with
  | nil => simp [unlessEmpty, filled]
  | cons item items => exact Members.lookup_cons (name, Json.array (item :: items)) [] token

theorem lookup_optional (name token : String) (value : Option Json) :
    (value.map fun j => (name, j)).toList.lookup token = if token = name then value else none := by
  cases value with
  | none => simp
  | some value => exact Members.lookup_cons (name, value) [] token

theorem get?_toMembers (r : Rule) (declared children : List Json) (token : String) :
    Members.get? (r.toMembers declared children) token =
      if token = "name" then some (.string r.label)
      else if token = "comment" then some (.string r.remark)
      else if token = "provenance" then r.provenance.map fun p => .string p.text
      else if token = "criteria" then filled (r.criteria.map Capability.toJson)
      else if token = "matchPolicy" then r.policy.map fun p => .string p.name
      else if token = "variables" then filled declared
      else if token = "behaviors" then filled (r.behaviors.map Capability.toJson)
      else if token = "children" then filled children
      else none := by
  have hprovenance := lookup_optional "provenance" token (r.provenance.map fun p => .string p.text)
  have hpolicy := lookup_optional "matchPolicy" token (r.policy.map fun p => .string p.name)
  rw [Option.map_map] at hprovenance hpolicy
  simp only [Function.comp_def] at hprovenance hpolicy
  simp only [Members.get?, Rule.toMembers, List.lookup_append, lookup_unlessEmpty, hprovenance,
    hpolicy, Members.lookup_cons, List.lookup_nil]
  clear hprovenance hpolicy
  by_cases h : token ∈ ["name", "comment", "provenance", "criteria", "matchPolicy", "variables",
    "behaviors", "children"]
  · simp only [List.mem_cons, List.not_mem_nil, or_false] at h
    rcases h with rfl | rfl | rfl | rfl | rfl | rfl | rfl | rfl <;> simp
  · simp only [List.mem_cons, List.not_mem_nil, or_false, not_or] at h
    simp [h]

/-! ## Parts -/

/-- A part of a tree that came from somewhere. -/
inductive Part where
  | rule (id : RuleId)
  | entry (c : Capability)
  | declared (v : Variable)

namespace RuleTree

/-- The variables that are written down with a rule. -/
def variablesAt (t : RuleTree) (id : RuleId) : List Variable :=
  if id = rootId then t.declared else []

/-- The parts of a rule that stand in a list under a name. -/
def partsUnder (t : RuleTree) (id : RuleId) : String → List Part
  | "criteria" => (t.ruleAt id).criteria.map .entry
  | "variables" => (t.variablesAt id).map .declared
  | "behaviors" => (t.ruleAt id).behaviors.map .entry
  | "children" => (t.childrenOf id).map .rule
  | _ => []

/-- The part that tokens lead to from a rule: a name and an index lead to a part in a list, and from
a child on it goes on in the same way. The root counts as no part. -/
def partFrom? (t : RuleTree) (id : RuleId) : List String → Option Part
  | [] => if id = rootId then none else some (.rule id)
  | [_] => none
  | name :: i :: way =>
    match (index? i).bind fun i => (t.partsUnder id name)[i]? with
    | none => none
    | some (.rule k) => t.partFrom? k way
    | some part => if way.isEmpty then some part else none

/-- The part that tokens lead to from a document. -/
def part? (t : RuleTree) : List String → Option Part
  | "rules" :: way => t.partFrom? rootId way
  | _ => none

/-- Where a part came from. -/
def originOf (t : RuleTree) : Part → Option Provenance
  | .rule id => (t.ruleAt id).provenance
  | .entry c => some c.provenance
  | .declared v => some v.provenance

def ruleJson (t : RuleTree) (id : RuleId) : Json :=
  (t.outlineAt id).toJson ((t.variablesAt id).map Variable.toJson)

/-- How a part is written down. -/
def partJson (t : RuleTree) : Part → Json
  | .rule id => t.ruleJson id
  | .entry c => c.toJson
  | .declared v => v.toJson

/-! ## Parts in the document -/

theorem toJson_below (os : List Outline) :
    Outline.toJson.below os = os.map (Outline.toJson []) := by
  induction os with
  | nil => rfl
  | cons o os ih => simp [Outline.toJson.below, ih]

theorem ruleJson_eq {t : RuleTree} (ht : t.Descending) {id : Nat} (hid : id < t.size) :
    t.ruleJson id = .object ((t.ruleAt id).toMembers ((t.variablesAt id).map Variable.toJson)
      ((t.childrenOf id).map t.ruleJson)) := by
  have hbelow : ((t.childrenOf id).map t.outlineAt).map (Outline.toJson []) =
      (t.childrenOf id).map t.ruleJson := by
    rw [List.map_map]
    refine List.map_congr_left fun k hk => ?_
    have hne : k ≠ rootId := Nat.ne_of_gt (Nat.lt_of_le_of_lt (Nat.zero_le _) (ht _ k hk).1)
    simp [ruleJson, variablesAt, hne]
  rw [ruleJson, outlineAt_eq ht hid, Outline.toJson, toJson_below, hbelow]

theorem recorded?_ruleJson {t : RuleTree} (ht : t.WellFormed) {id : Nat} (hid : id < t.size) :
    recorded? (t.ruleJson id) = (t.ruleAt id).provenance.map (·.text) := by
  rw [ruleJson_eq ht.descending hid, recorded?, Json.memberString?, Json.member?, Json.asObject?,
    Option.bind_some, get?_toMembers]
  cases (t.ruleAt id).provenance <;> rfl

/-- Under a name a rule holds a list of parts, or else nothing that came from somewhere. -/
theorem step?_ruleJson {t : RuleTree} (ht : t.WellFormed) {id : Nat} (hid : id < t.size)
    (name : String) :
    step? (t.ruleJson id) name = filled ((t.partsUnder id name).map t.partJson) ∨
      t.partsUnder id name = [] ∧
        ∀ j, step? (t.ruleJson id) name = some j → ∃ s, j = .string s := by
  rw [ruleJson_eq ht.descending hid, step?, get?_toMembers]
  by_cases hlist : name ∈ ["criteria", "variables", "behaviors", "children"]
  · left
    simp only [List.mem_cons, List.not_mem_nil, or_false] at hlist
    rcases hlist with rfl | rfl | rfl | rfl <;> simp [partsUnder, Function.comp_def, partJson]
  · right
    simp only [List.mem_cons, List.not_mem_nil, or_false, not_or] at hlist
    obtain ⟨hcriteria, hvariables, hbehaviors, hchildren⟩ := hlist
    constructor
    · unfold partsUnder
      split
      · exact absurd rfl hcriteria
      · exact absurd rfl hvariables
      · exact absurd rfl hbehaviors
      · exact absurd rfl hchildren
      · rfl
    · intro j hj
      simp only [hcriteria, hvariables, hbehaviors, hchildren, if_false] at hj
      repeat' split at hj
      · exact ⟨_, (Option.some.inj hj).symm⟩
      · exact ⟨_, (Option.some.inj hj).symm⟩
      · obtain ⟨p, -, rfl⟩ := Option.map_eq_some_iff.mp hj
        exact ⟨p.text, rfl⟩
      · obtain ⟨policy, -, rfl⟩ := Option.map_eq_some_iff.mp hj
        exact ⟨policy.name, rfl⟩
      · cases hj

theorem follow?_under {t : RuleTree} (ht : t.WellFormed) {id : Nat} (hid : id < t.size)
    {name i : String} {p : Part}
    (hp : ((index? i).bind fun i => (t.partsUnder id name)[i]?) = some p) (way : List String) :
    follow? (t.ruleJson id) (name :: i :: way) = follow? (t.partJson p) way := by
  obtain ⟨n, hn, hp⟩ := Option.bind_eq_some_iff.mp hp
  rcases step?_ruleJson ht hid name with hstep | ⟨hempty, -⟩
  · rw [filled_of_mem (List.mem_map_of_mem (List.mem_of_getElem? hp))] at hstep
    rw [follow?, hstep, Option.bind_some, follow?, Pointer.step?_array, hn, Option.bind_some,
      List.getElem?_map, hp]
    rfl
  · simp [hempty] at hp

/-- What is found under a name is found in the part that an index stands for. -/
theorem nearestProvenance_under {t : RuleTree} (ht : t.WellFormed) {id : Nat} (hid : id < t.size)
    (name : String) (way : List String) :
    (step? (t.ruleJson id) name).bind (nearestProvenance · way) =
      match way with
      | [] => none
      | i :: rest =>
        ((index? i).bind fun i => (t.partsUnder id name)[i]?).bind fun p =>
          nearestProvenance (t.partJson p) rest := by
  rcases step?_ruleJson ht hid name with hstep | ⟨hempty, hstring⟩
  · rw [hstep, filled]
    cases way with
    | nil => split <;> rfl
    | cons i rest =>
      dsimp only
      cases hi : index? i with
      | none => split <;> simp [Pointer.nearestProvenance_array, hi]
      | some n =>
        split
        · rename_i hempty
          rw [List.isEmpty_iff, List.map_eq_nil_iff] at hempty
          simp [hempty]
        · simp only [Pointer.nearestProvenance_array, hi, Option.bind_some, List.getElem?_map,
            Option.bind_map]
          rfl
  · have hnone : (step? (t.ruleJson id) name).bind (nearestProvenance · way) = none := by
      cases hj : step? (t.ruleJson id) name with
      | none => rfl
      | some j =>
        obtain ⟨s, rfl⟩ := hstring j hj
        exact Pointer.nearestProvenance_string s way
    rw [hnone]
    cases way with
    | nil => rfl
    | cons i rest => simp [hempty]

end RuleTree

end DeliveryRules
