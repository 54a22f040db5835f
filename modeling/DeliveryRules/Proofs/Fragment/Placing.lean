import DeliveryRules.Proofs.Except
import DeliveryRules.Proofs.Fragment.Growth
import DeliveryRules.Proofs.Rule.Variables

/-!
# Placing the head of a rule

What a fragment says of a rule itself becomes one new rule and a list of declarations. Both follow
from the catalog and the text of the fragment alone.

- **Outcomes** (`Build.outcome`): what a step of a build comes to, where the tree that a failure
  leaves behind does not matter.
- **Uses** (`FragmentHead.uses`): the uses of capabilities that a head asks for, or the error of the
  first one that is refused.
- **Placing** (`Workshop.placeHead_outcome`): where no use is refused, the new rule is
  `FragmentHead.rule` and the variables declared are `FragmentHead.declarations`, in their order;
  where one is refused, placing fails with its error.
-/

namespace DeliveryRules

/-! ## Outcomes -/

namespace Build

variable {α β : Type}

/-- What a step gives back and the tree that it leaves, or its error. -/
def outcome (m : Build α) (t : RuleTree) : Except CompileError (α × RuleTree) :=
  match m.run t with
  | (.ok a, t') => .ok (a, t')
  | (.error e, _) => .error e

theorem outcome_congr {m m' : Build α} {t t' : RuleTree} (h : m.run t = m'.run t') :
    m.outcome t = m'.outcome t' := by
  rw [outcome, outcome, h]

theorem outcome_eq_ok {m : Build α} {t t' : RuleTree} {a : α} :
    m.outcome t = .ok (a, t') ↔ m.run t = (.ok a, t') := by
  unfold outcome
  cases m.run t with
  | mk x t'' =>
    cases x with
    | error e => exact ⟨nofun, nofun⟩
    | ok b =>
      constructor
      · rintro ⟨⟩
        rfl
      · rintro ⟨⟩
        rfl

theorem outcome_eq_error {m : Build α} {t : RuleTree} {e : CompileError} :
    m.outcome t = .error e ↔ (m.run t).1 = .error e := by
  unfold outcome
  cases m.run t with
  | mk x t'' => cases x <;> simp

theorem outcome_bind (m : Build α) (f : α → Build β) (t : RuleTree) :
    (m >>= f).outcome t = (m.outcome t).bind fun r => (f r.1).outcome r.2 := by
  unfold outcome
  rw [run_bind]
  cases m.run t with
  | mk x t'' => cases x <;> rfl

@[simp] theorem outcome_pure (a : α) (t : RuleTree) :
    (pure a : Build α).outcome t = .ok (a, t) := rfl

@[simp] theorem outcome_get (t : RuleTree) : (get : Build RuleTree).outcome t = .ok (t, t) := rfl

@[simp] theorem outcome_modify (f : RuleTree → RuleTree) (t : RuleTree) :
    (modify f : Build Unit).outcome t = .ok ((), f t) := rfl

end Build

/-! ## Uses -/

/-- A use of a capability, with the names of the variables that it refers to. -/
abbrev Use := Capability × List String

/-- The declarations of the variables that a use refers to. -/
def Use.found (u : Use) : List Variable := u.2.map (.found · u.1.provenance)

/-- To take no part in the handling of variables is to refer to none. -/
theorem Descriptor.mentions_eq (d : Descriptor) (options : Members) :
    d.mentions options = d.references options := by
  unfold mentions
  split
  · rename_i h
    simp only [VariableHandling.isEmpty, Bool.and_eq_true, List.isEmpty_iff] at h
    obtain ⟨⟨hinline, hnames⟩, hlists⟩ := h
    rw [references, hinline, hnames, hlists]
    rfl
  · rfl

/-- What it takes for a use to be granted, and what it then is. -/
theorem Catalog.use_eq_ok {c : Catalog} {kind : Capability.Kind} {name : String} {given : Json}
    {p : Provenance} {u : Use} (h : c.use kind name given p = .ok u) :
    ∃ d, c.find? kind name = some d ∧ d.resolve given = .ok u.1.options ∧
      d.references u.1.options = .ok u.2 ∧ u.1.name = name ∧ u.1.provenance = p := by
  unfold use require at h
  cases hd : c.find? kind name with
  | none => simp [hd, bind, Except.bind] at h
  | some d =>
    cases hr : d.resolve given with
    | error e => simp [hd, hr, bind, Except.bind] at h
    | ok options =>
      cases hm : d.mentions options with
      | error e => simp [hd, hr, hm, bind, Except.bind] at h
      | ok names =>
        simp only [hd, hr, hm, bind, Except.bind, pure, Except.pure, Except.ok.injEq] at h
        subst h
        exact ⟨d, rfl, hr, d.mentions_eq options ▸ hm, rfl, rfl⟩

/-- The uses that a list of entries asks for. -/
def Source.uses (s : Source) (c : Catalog) (kind : Capability.Kind) (way : List String)
    (entries : List FragmentEntry) : Except CompileError (List Use) :=
  entries.zipIdx.mapM fun (e, i) =>
    c.use kind e.name e.options (s.provenanceAt (way ++ [toString i]))

namespace FragmentHead

/-- The uses that a head asks for, those of criteria and those of behaviors. -/
def uses (h : FragmentHead) (c : Catalog) (s : Source) (way : List String) :
    Except CompileError (List Use × List Use) := do
  let criteria ← s.uses c .criteria (way ++ ["criteria"]) h.criteria
  let behaviors ← s.uses c .behavior (way ++ ["behaviors"]) h.behaviors
  return (criteria, behaviors)

theorem uses_eq_ok {head : FragmentHead} {c : Catalog} {s : Source} {way : List String}
    {criteria behaviors : List Use} :
    head.uses c s way = .ok (criteria, behaviors) ↔
      s.uses c .criteria (way ++ ["criteria"]) head.criteria = .ok criteria ∧
        s.uses c .behavior (way ++ ["behaviors"]) head.behaviors = .ok behaviors := by
  unfold FragmentHead.uses
  simp only [bind, bind_eq_ok, pure, Except.pure]
  simp

/-- The rule that a head becomes. -/
def rule (h : FragmentHead) (p : Provenance) (uses : List Use × List Use) : Rule where
  name := h.name
  comment := h.comment
  criteria := uses.1.map (·.1)
  behaviors := uses.2.map (·.1)
  policy := h.policy
  provenance := some p

/-- The variables that a head lists. -/
def listed (h : FragmentHead) (s : Source) (way : List String) : List Variable :=
  h.declared.zipIdx.map fun (v, i) =>
    let p := s.provenanceAt (way ++ ["variables", toString i])
    ⟨v.name, v.description.getD (Variable.foundAt p), v.hidden, v.sensitive, p⟩

/-- What a head declares: first the variables that it lists, then those that its criteria refer to,
then those that its behaviors refer to. -/
def declarations (h : FragmentHead) (s : Source) (way : List String)
    (uses : List Use × List Use) : List Variable :=
  h.listed s way ++ uses.1.flatMap Use.found ++ uses.2.flatMap Use.found

end FragmentHead

/-! ## Trees with a new rule -/

namespace RuleTree

@[simp] theorem nodes_declareAll (t : RuleTree) (vs : List Variable) :
    (t.declareAll vs).nodes = t.nodes := rfl

theorem declareAll_append (t : RuleTree) (us vs : List Variable) :
    t.declareAll (us ++ vs) = (t.declareAll us).declareAll vs := by
  simp [declareAll, VariableTable.declareAll_append]

theorem declareFound_eq (t : RuleTree) (p : Provenance) (names : List String) :
    t.declareFound p names = t.declareAll (names.map (.found · p)) := by
  induction names generalizing t with
  | nil => rfl
  | cons name names ih =>
    rw [declareFound, List.foldl_cons, ← declareFound, ih]
    rfl

/-- To change a rule right after it was put in is to put in the changed rule. -/
theorem change_insert (t : RuleTree) (parent : RuleId) (r : Rule) (f : Rule → Rule) :
    (t.insert parent r).change t.size f = t.insert parent (f r) := by
  have hnodes : ((t.insert parent r).change t.size f).nodes = (t.insert parent (f r)).nodes := by
    refine List.ext_getElem? fun id => ?_
    change ((t.insert parent r).change t.size f).node? id = (t.insert parent (f r)).node? id
    rw [node?_change, node?_insert, node?_insert]
    split <;> rfl
  change (⟨((t.insert parent r).change t.size f).nodes, t.declared⟩ : RuleTree) = _
  rw [hnodes]
  rfl

end RuleTree

/-! ## Placing -/

namespace Workshop

variable (w : Workshop) (s : Source)

theorem capability_outcome (kind : Capability.Kind) (name : String) (given : Json)
    (p : Provenance) (t : RuleTree) :
    (w.capability kind name given p).outcome t =
      (w.catalog.use kind name given p).map fun u => (u.1, t.declareAll (Use.found u)) := by
  unfold Build.outcome
  rw [capability_run]
  cases hu : w.catalog.use kind name given p with
  | error e => rfl
  | ok u =>
    obtain ⟨d, -, -, -, -, hp⟩ := Catalog.use_eq_ok hu
    simp [Except.map, RuleTree.declareFound_eq, Use.found, hp]

theorem placeVariables_outcome (h : FragmentHead) (way : List String) (t : RuleTree) :
    (placeVariables s way h.declared).outcome t =
      .ok ((), t.declareAll (h.listed s way)) := by
  unfold placeVariables FragmentHead.listed
  generalize h.declared.zipIdx = vs
  induction vs generalizing t with
  | nil => rfl
  | cons v vs ih =>
    rw [List.forM, Build.outcome_bind]
    exact ih _

/-- Entries are placed on a rule that was just put in, as `r`, after `vs` were declared. -/
theorem placeEntries_outcome (kind : Capability.Kind) (way : List String)
    (entries : List FragmentEntry) (put : Capability → Rule → Rule) (t : RuleTree)
    (parent : RuleId) (r : Rule) (vs : List Variable) :
    (w.placeEntries s kind way entries put t.size).outcome ((t.insert parent r).declareAll vs) =
      (s.uses w.catalog kind way entries).map fun us =>
        ((), (t.insert parent (us.foldl (fun r u => put u.1 r) r)).declareAll
          (vs ++ us.flatMap Use.found)) := by
  unfold Source.uses placeEntries
  generalize entries.zipIdx = es
  induction es generalizing r vs with
  | nil => simpa [Except.map, pure, Except.pure] using Build.outcome_pure () _
  | cons e es ih =>
    obtain ⟨e, i⟩ := e
    rw [List.forM, List.mapM_cons, Build.outcome_bind, Build.outcome_bind, capability_outcome]
    simp only
    cases w.catalog.use kind e.name e.options (s.provenanceAt (way ++ [toString i])) with
    | error error => rfl
    | ok u =>
      have hchange : (((t.insert parent r).declareAll vs).declareAll (Use.found u)).change t.size
          (put u.1) = (t.insert parent (put u.1 r)).declareAll (vs ++ Use.found u) := by
        rw [← t.change_insert parent r (put u.1), ← RuleTree.declareAll_append]
        rfl
      have hrest := ih (put u.1 r) (vs ++ Use.found u)
      simp only [Except.map, Except.bind, Build.outcome_modify, hchange, hrest]
      cases es.mapM fun (e, i) =>
          w.catalog.use kind e.name e.options (s.provenanceAt (way ++ [toString i])) with
      | error error => rfl
      | ok us => simp [bind, Except.bind, pure, Except.pure]

theorem foldl_addCriterion (us : List Use) (r : Rule) :
    us.foldl (fun r u => Rule.addCriterion u.1 r) r =
      { r with criteria := r.criteria ++ us.map (·.1) } := by
  induction us generalizing r with
  | nil => simp
  | cons u us ih => rw [List.foldl_cons, ih]; simp [Rule.addCriterion]

theorem foldl_addBehavior (us : List Use) (r : Rule) :
    us.foldl (fun r u => Rule.addBehavior u.1 r) r =
      { r with behaviors := r.behaviors ++ us.map (·.1) } := by
  induction us generalizing r with
  | nil => simp
  | cons u us ih => rw [List.foldl_cons, ih]; simp [Rule.addBehavior]

/-- Placing a head puts in one rule and declares its variables, unless a use is refused. -/
theorem placeHead_outcome (h : FragmentHead) (parent : RuleId) (way : List String)
    (p : Provenance) (t : RuleTree) :
    (w.placeHead s h parent way p).outcome t =
      (h.uses w.catalog s way).map fun uses =>
        (t.size, (t.insert parent (h.rule p uses)).declareAll (h.declarations s way uses)) := by
  unfold placeHead FragmentHead.uses
  rw [Build.outcome_bind, Build.outcome_get]
  simp only [Except.bind]
  rw [Build.outcome_bind, Build.outcome_modify]
  simp only [Build.outcome_bind, placeVariables_outcome, RuleTree.nextId, Except.bind,
    placeEntries_outcome]
  cases s.uses w.catalog .criteria (way ++ ["criteria"]) h.criteria with
  | error e => rfl
  | ok criteria =>
    simp only [Except.map, placeEntries_outcome]
    cases s.uses w.catalog .behavior (way ++ ["behaviors"]) h.behaviors with
    | error e => rfl
    | ok behaviors =>
      simp only [foldl_addCriterion, foldl_addBehavior]
      rfl

end Workshop

end DeliveryRules
