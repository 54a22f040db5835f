import DeliveryRules.Proofs.Rule.Variables
import Mathlib.Data.List.Forall2

/-!
# Trees that differ in places only

- **Rules** (`Rule.unplaced`): a rule without the places that it and its uses came from.
- **Variables** (`Variable.Alike`): places may differ, and descriptions that only tell the place.
- **Trees** (`RuleTree.Alike`): the same rules with the same children, and the same table of
  variables. What puts in a rule or declares variables keeps trees alike.
-/

namespace DeliveryRules

/-! ## Parts of a tree -/

def Capability.unplaced (c : Capability) : Capability := { c with provenance := ⟨""⟩ }

/-- A rule without the places that it and its uses came from. -/
def Rule.unplaced (r : Rule) : Rule where
  name := r.name
  comment := r.comment
  criteria := r.criteria.map Capability.unplaced
  behaviors := r.behaviors.map Capability.unplaced
  policy := r.policy

def Node.unplaced (n : Node) : Node := { n with rule := n.rule.unplaced }

/-- The same declaration, possibly from elsewhere. A description that was given is the same. -/
structure Variable.Alike (v v' : Variable) : Prop where
  name_eq : v.name = v'.name
  hidden_eq : v.hidden = v'.hidden
  sensitive_eq : v.sensitive = v'.sensitive
  description : v.description = v'.description ∨
    v.description = foundAt v.provenance ∧ v'.description = foundAt v'.provenance

namespace Variable

theorem Alike.refl (v : Variable) : v.Alike v := ⟨rfl, rfl, rfl, .inl rfl⟩

theorem alike_found (name : String) (p p' : Provenance) : Alike (found name p) (found name p') :=
  ⟨rfl, rfl, rfl, .inr ⟨rfl, rfl⟩⟩

end Variable

/-! ## Tables -/

namespace VariableTable

variable {t t' : VariableTable}

theorem knows_of_alike (h : List.Forall₂ Variable.Alike t t') (name : String) :
    t.knows name = t'.knows name := by
  induction h with
  | nil => rfl
  | cons hv _ ih =>
    rw [knows, List.any_cons, hv.name_eq, ← knows, ih, knows, knows, List.any_cons]

theorem declare_alike (h : List.Forall₂ Variable.Alike t t') {v v' : Variable} (hv : v.Alike v') :
    List.Forall₂ Variable.Alike (t.declare v) (t'.declare v') := by
  unfold declare
  rw [knows_of_alike h, hv.name_eq]
  split
  · exact h
  · exact List.rel_append h (.cons hv .nil)

theorem declareAll_alike (h : List.Forall₂ Variable.Alike t t') {vs vs' : List Variable}
    (hvs : List.Forall₂ Variable.Alike vs vs') :
    List.Forall₂ Variable.Alike (t.declareAll vs) (t'.declareAll vs') := by
  induction hvs generalizing t t' with
  | nil => exact h
  | cons hv _ ih => exact ih (declare_alike h hv)

end VariableTable

/-! ## Trees -/

namespace RuleTree

/-- The same rules with the same children, and the same variables, possibly from elsewhere. -/
structure Alike (t t' : RuleTree) : Prop where
  nodes_eq : t.nodes.map Node.unplaced = t'.nodes.map Node.unplaced
  declared : List.Forall₂ Variable.Alike t.declared t'.declared

variable {t t' : RuleTree}

theorem Alike.refl (t : RuleTree) : t.Alike t :=
  ⟨rfl, List.forall₂_same.mpr fun v _ => .refl v⟩

theorem Alike.size_eq (h : t.Alike t') : t.size = t'.size := by
  simpa [size] using congrArg List.length h.nodes_eq

theorem map_unplaced_insert (t : RuleTree) (parent : RuleId) (r : Rule) :
    (t.insert parent r).nodes.map Node.unplaced =
      ((t.nodes.map Node.unplaced).modify parent fun n =>
        { n with children := n.children ++ [t.size] }) ++ [⟨r.unplaced, some parent, []⟩] := by
  rw [insert, List.map_append]
  congr 1
  refine List.ext_getElem? fun i => ?_
  simp only [List.getElem?_map, List.getElem?_modify]
  cases t.nodes[i]? with
  | none => rfl
  | some n => split <;> rfl

theorem Alike.insert (h : t.Alike t') (parent : RuleId) {r r' : Rule}
    (hr : r.unplaced = r'.unplaced) : (t.insert parent r).Alike (t'.insert parent r') where
  nodes_eq := by rw [map_unplaced_insert, map_unplaced_insert, h.nodes_eq, h.size_eq, hr]
  declared := h.declared

theorem Alike.declareAll (h : t.Alike t') {vs vs' : List Variable}
    (hvs : List.Forall₂ Variable.Alike vs vs') : (t.declareAll vs).Alike (t'.declareAll vs') where
  nodes_eq := h.nodes_eq
  declared := VariableTable.declareAll_alike h.declared hvs

end RuleTree

end DeliveryRules
