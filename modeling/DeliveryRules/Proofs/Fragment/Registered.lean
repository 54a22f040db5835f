import DeliveryRules.Proofs.Fragment.Placing

/-!
# References are declared

- **Registered trees** (`RuleTree.Registered`): no variable is declared twice, and the variables
  that uses of capabilities refer to are declared.
- **Accounted trees** (`RuleTree.Accounted`): moreover, every use of a capability is one that the
  catalog granted, on some options. This is what steps keep.
- **Changes to a tree**: declarations keep a tree accounted, and so do new rules and changed rules
  whose uses were granted.
- **Invariants of steps** (`Build.Keeps`): what is kept where a head is placed is kept by placing
  and importing whole fragments, also where this fails (`Workshop.importFile_keeps`).
- **Accounted steps**: a use of a capability declares what it refers to before it is put on a rule
  (`Workshop.capability_keeps`), so a tree stays accounted (`Workshop.importFile_accounted`).
-/

namespace DeliveryRules

/-! ## Registered trees -/

/-- The uses of capabilities of a kind on a rule. -/
def Rule.uses (r : Rule) : Capability.Kind → List Capability
  | .criteria => r.criteria
  | .behavior => r.behaviors

namespace Rule

variable {P : Capability.Kind → Capability → Prop} {r : Rule} {use : Capability}

theorem forall_uses_of_criteria (hcriteria : ∀ use ∈ r.criteria, P .criteria use)
    (hbehaviors : r.behaviors = []) : ∀ kind, ∀ use ∈ r.uses kind, P kind use := by
  intro kind use huse
  cases kind with
  | criteria => exact hcriteria use huse
  | behavior =>
    rw [uses, hbehaviors] at huse
    cases huse

theorem forall_uses_addCriterion (h : ∀ kind, ∀ use ∈ r.uses kind, P kind use)
    (huse : P .criteria use) : ∀ kind, ∀ u ∈ (r.addCriterion use).uses kind, P kind u := by
  intro kind u hu
  cases kind with
  | criteria =>
    rcases List.mem_append.mp hu with hu | hu
    · exact h .criteria u hu
    · rwa [List.mem_singleton.mp hu]
  | behavior => exact h .behavior u hu

theorem forall_uses_addBehavior (h : ∀ kind, ∀ use ∈ r.uses kind, P kind use)
    (huse : P .behavior use) : ∀ kind, ∀ u ∈ (r.addBehavior use).uses kind, P kind u := by
  intro kind u hu
  cases kind with
  | criteria => exact h .criteria u hu
  | behavior =>
    rcases List.mem_append.mp hu with hu | hu
    · exact h .behavior u hu
    · rwa [List.mem_singleton.mp hu]

end Rule

namespace RuleTree

/-- The variables that a use refers to, by its descriptor, are declared. -/
def Knows (c : Catalog) (t : RuleTree) (kind : Capability.Kind) (use : Capability) : Prop :=
  ∃ d names, c.find? kind use.name = some d ∧ d.references use.options = .ok names ∧
    ∀ name ∈ names, t.declared.knows name

/-- The variables that the uses on a rule refer to are declared. -/
def KnowsRule (c : Catalog) (t : RuleTree) (r : Rule) : Prop :=
  (∀ use ∈ r.criteria, t.Knows c .criteria use) ∧ ∀ use ∈ r.behaviors, t.Knows c .behavior use

structure Registered (c : Catalog) (t : RuleTree) : Prop where
  distinct : t.declared.Distinct
  knows : ∀ n ∈ t.nodes, t.KnowsRule c n.rule

/-- The use was granted on some options, and the variables that it refers to are declared. -/
def Granted (c : Catalog) (t : RuleTree) (kind : Capability.Kind) (use : Capability) : Prop :=
  ∃ given names, c.use kind use.name given use.provenance = .ok (use, names) ∧
    ∀ name ∈ names, t.declared.knows name

/-- The uses on a rule were granted. -/
def GrantedRule (c : Catalog) (t : RuleTree) (r : Rule) : Prop :=
  ∀ kind, ∀ use ∈ r.uses kind, t.Granted c kind use

structure Accounted (c : Catalog) (t : RuleTree) : Prop where
  distinct : t.declared.Distinct
  granted : ∀ n ∈ t.nodes, t.GrantedRule c n.rule

variable {c : Catalog} {t : RuleTree} {kind : Capability.Kind} {use : Capability}

theorem Granted.knows (h : t.Granted c kind use) : t.Knows c kind use := by
  obtain ⟨given, names, huse, hknown⟩ := h
  obtain ⟨d, hd, -, hnames, -, -⟩ := Catalog.use_eq_ok huse
  exact ⟨d, names, hd, hnames, hknown⟩

theorem Accounted.registered (h : t.Accounted c) : t.Registered c where
  distinct := h.distinct
  knows n hn := ⟨fun use huse => (h.granted n hn .criteria use huse).knows,
    fun use huse => (h.granted n hn .behavior use huse).knows⟩

/-- A new rule has no behaviors. -/
theorem grantedRule_of_criteria {r : Rule}
    (hcriteria : ∀ use ∈ r.criteria, t.Granted c .criteria use) (hbehaviors : r.behaviors = []) :
    t.GrantedRule c r :=
  Rule.forall_uses_of_criteria hcriteria hbehaviors

theorem accounted_ofRoot {root : Rule} (hcriteria : root.criteria = [])
    (hbehaviors : root.behaviors = []) : (ofRoot root).Accounted c where
  distinct := VariableTable.distinct_nil
  granted n hn := by
    obtain rfl := List.mem_singleton.mp hn
    exact grantedRule_of_criteria (by simp [hcriteria]) hbehaviors

theorem Granted.declareAll (h : t.Granted c kind use) (vs : List Variable) :
    (t.declareAll vs).Granted c kind use := by
  obtain ⟨given, names, huse, hknown⟩ := h
  refine ⟨given, names, huse, fun name hname => ?_⟩
  exact (VariableTable.knows_declareAll vs name).mpr (.inl (hknown name hname))

/-- A use is granted for good where its variables are declared. -/
theorem granted_of_use {name : String} {given : Json} {p : Provenance} {u : Use}
    (h : c.use kind name given p = .ok u) {vs : List Variable} (hvs : ∀ v ∈ Use.found u, v ∈ vs) :
    (t.declareAll vs).Granted c kind u.1 := by
  obtain ⟨d, -, -, -, rfl, rfl⟩ := Catalog.use_eq_ok h
  refine ⟨given, u.2, h, fun name hname => ?_⟩
  exact (VariableTable.knows_declareAll vs name).mpr
    (.inr ⟨_, hvs _ (List.mem_map_of_mem hname), rfl⟩)

/-! ## Changes to a tree -/

theorem mem_nodes_insert {parent : RuleId} {r : Rule} {n : Node}
    (h : n ∈ (t.insert parent r).nodes) : n.rule = r ∨ ∃ old ∈ t.nodes, n.rule = old.rule := by
  obtain ⟨id, hid⟩ := List.mem_iff_getElem?.mp h
  rw [← node?, node?_insert] at hid
  split at hid
  · cases hid
    exact .inl rfl
  · split at hid
    · obtain ⟨old, hold, rfl⟩ := Option.map_eq_some_iff.mp hid
      exact .inr ⟨old, List.mem_of_getElem? hold, rfl⟩
    · exact .inr ⟨n, List.mem_of_getElem? hid, rfl⟩

theorem mem_nodes_change {id : RuleId} {f : Rule → Rule} {n : Node}
    (h : n ∈ (t.change id f).nodes) :
    ∃ old ∈ t.nodes, n.rule = old.rule ∨ n.rule = f old.rule := by
  obtain ⟨i, hi⟩ := List.mem_iff_getElem?.mp h
  rw [← node?, node?_change] at hi
  split at hi
  · obtain ⟨old, hold, rfl⟩ := Option.map_eq_some_iff.mp hi
    exact ⟨old, List.mem_of_getElem? hold, .inr rfl⟩
  · exact ⟨n, List.mem_of_getElem? hi, .inl rfl⟩

theorem Accounted.declareAll (h : t.Accounted c) (vs : List Variable) :
    (t.declareAll vs).Accounted c where
  distinct := by
    have hdistinct : ∀ table : VariableTable, table.Distinct → (table.declareAll vs).Distinct := by
      induction vs with
      | nil => exact fun _ h => h
      | cons v vs ih => exact fun table h => ih _ (h.declare v)
    exact hdistinct _ h.distinct
  granted n hn kind use huse := (h.granted n hn kind use huse).declareAll vs

theorem Accounted.insert (h : t.Accounted c) (parent : RuleId) {r : Rule}
    (hr : t.GrantedRule c r) : (t.insert parent r).Accounted c where
  distinct := h.distinct
  granted n hn := by
    rcases mem_nodes_insert hn with hnew | ⟨old, hold, hsame⟩
    · exact hnew ▸ hr
    · exact hsame ▸ h.granted old hold

theorem Accounted.change (h : t.Accounted c) (id : RuleId) {f : Rule → Rule}
    (hf : ∀ r, t.GrantedRule c r → t.GrantedRule c (f r)) : (t.change id f).Accounted c where
  distinct := h.distinct
  granted n hn := by
    obtain ⟨old, hold, hsame | hchanged⟩ := mem_nodes_change hn
    · exact hsame ▸ h.granted old hold
    · exact hchanged ▸ hf _ (h.granted old hold)

theorem GrantedRule.addCriterion {r : Rule} (h : t.GrantedRule c r)
    (huse : t.Granted c .criteria use) : t.GrantedRule c (r.addCriterion use) :=
  Rule.forall_uses_addCriterion h huse

theorem GrantedRule.addBehavior {r : Rule} (h : t.GrantedRule c r)
    (huse : t.Granted c .behavior use) : t.GrantedRule c (r.addBehavior use) :=
  Rule.forall_uses_addBehavior h huse

end RuleTree

/-! ## Invariants of steps -/

namespace Build

variable {α β : Type} {P : RuleTree → Prop}

/-- Whatever becomes of it, the step leaves a tree with `P` where it found one. -/
def Keeps (P : RuleTree → Prop) (m : Build α) : Prop :=
  ∀ t : RuleTree, P t → P (m.run t).2

theorem Keeps.bind {m : Build α} {f : α → Build β} (hm : m.Keeps P) (hf : ∀ a, (f a).Keeps P) :
    (m >>= f).Keeps P := by
  intro t ht
  have h := hm t ht
  rw [run_bind]
  split
  · rename_i a t' heq
    rw [heq] at h
    exact hf a t' h
  · rename_i e t' heq
    rwa [heq] at h

theorem keeps_pure (a : α) : (pure a : Build α).Keeps P := fun _ h => h

theorem keeps_throw (e : CompileError) : (throw e : Build α).Keeps P := fun _ h => h

theorem keeps_get : (get : Build RuleTree).Keeps P := fun _ h => h

theorem keeps_modify {f : RuleTree → RuleTree} (hf : ∀ t, P t → P (f t)) :
    (modify f : Build Unit).Keeps P := hf

theorem keeps_forM {f : α → Build PUnit} {as : List α} (hf : ∀ a ∈ as, (f a).Keeps P) :
    (as.forM f).Keeps P := by
  induction as with
  | nil => exact keeps_pure _
  | cons a as ih =>
    rw [List.forall_mem_cons] at hf
    exact hf.1.bind fun _ => ih hf.2

end Build

/-! ## What a fragment says of its rules -/

mutual

/-- What a fragment says of each of its rules. -/
def FragmentRule.heads : FragmentRule → List FragmentHead
  | .mk head children => head :: FragmentChild.headsOfAll children

def FragmentChild.heads : FragmentChild → List FragmentHead
  | .mention _ => []
  | .rule r => r.heads

def FragmentChild.headsOfAll : List FragmentChild → List FragmentHead
  | [] => []
  | c :: cs => c.heads ++ FragmentChild.headsOfAll cs

end

namespace Workshop

section Invariants

variable {w : Workshop} {P : RuleTree → Prop} {importer : Importer}

/-- Wherever the head of a rule is placed, `P` is kept. -/
def KeepsHead (w : Workshop) (P : RuleTree → Prop) (s : Source) (head : FragmentHead) : Prop :=
  ∀ parent way p, (w.placeHead s head parent way p).Keeps P

/-- What new rules, declarations and uses of capabilities keep is kept where a head is placed. -/
theorem placeHead_keeps {s : Source} {head : FragmentHead}
    (hinsert : ∀ t parent p, P t → P (t.insert parent
      { name := head.name, comment := head.comment, policy := head.policy, provenance := some p }))
    (hdeclare : ∀ t v, P t → P (t.declare v))
    (hcriteria : ∀ way id,
      (w.placeEntries s .criteria way head.criteria Rule.addCriterion id).Keeps P)
    (hbehaviors : ∀ way id,
      (w.placeEntries s .behavior way head.behaviors Rule.addBehavior id).Keeps P) :
    w.KeepsHead P s head := by
  intro parent way p
  have hvariables : (placeVariables s way head.declared).Keeps P :=
    Build.keeps_forM fun _ _ => Build.keeps_modify fun t => hdeclare t _
  have hrule := Build.keeps_modify fun t => hinsert t parent p
  exact Build.keeps_get.bind fun t => hrule.bind fun _ => hvariables.bind fun _ =>
    (hcriteria _ _).bind fun _ => (hbehaviors _ _).bind fun _ => Build.keeps_pure _

/-- A use of a capability that is not granted changes nothing, and what goes on with one that is may
rely on the catalog. -/
theorem capability_bind_keeps {α : Type} {kind : Capability.Kind} {name : String} {given : Json}
    {p : Provenance} {f : Capability → Build α}
    (hf : ∀ u t, w.catalog.use kind name given p = .ok u → P t →
      P ((f u.1).run (t.declareFound p u.2)).2) :
    (w.capability kind name given p >>= f).Keeps P := by
  intro t ht
  rw [run_bind, capability_run]
  cases huse : w.catalog.use kind name given p with
  | error e => exact ht
  | ok u => exact hf u t huse ht

mutual

theorem place_keeps (himp : ∀ directory id expression, (importer directory id expression).Keeps P)
    (s : Source) : ∀ (r : FragmentRule) (parent : RuleId) (way : List String) (p : Provenance),
      (∀ head ∈ r.heads, w.KeepsHead P s head) → (w.place importer s r parent way p).Keeps P
  | .mk head cs, parent, way, p, hheads => by
    rw [FragmentRule.heads, List.forall_mem_cons] at hheads
    exact (hheads.1 parent way p).bind fun _ => placeChildren_keeps himp s cs _ _ _ hheads.2

theorem placeChildren_keeps
    (himp : ∀ directory id expression, (importer directory id expression).Keeps P) (s : Source) :
    ∀ (cs : List FragmentChild) (id : RuleId) (way : List String) (count : Nat),
      (∀ head ∈ FragmentChild.headsOfAll cs, w.KeepsHead P s head) →
      (w.placeChildren importer s cs id way count).Keeps P
  | [], _, _, _, _ => Build.keeps_pure ()
  | c :: cs, id, way, count, hheads => by
    rw [FragmentChild.headsOfAll, List.forall_mem_append] at hheads
    exact (placeChild_keeps himp s c id _ hheads.1).bind fun _ =>
      placeChildren_keeps himp s cs id way (count + 1) hheads.2

theorem placeChild_keeps
    (himp : ∀ directory id expression, (importer directory id expression).Keeps P) (s : Source) :
    ∀ (c : FragmentChild) (id : RuleId) (way : List String),
      (∀ head ∈ c.heads, w.KeepsHead P s head) → (w.placeChild importer s c id way).Keeps P
  | .mention text, id, way, _ => by
    rw [placeChild]
    split
    · exact himp _ _ _
    · exact Build.keeps_throw _
  | .rule r, id, way, hheads => place_keeps himp s r id way _ hheads

end

/-- What is kept by placing the heads of fragments that load is kept by an import. -/
theorem importFile_keeps
    (hload : ∀ (s : Source) r, w.load s = .ok r → ∀ head ∈ r.heads, w.KeepsHead P s head)
    (directory : Path) (parent : RuleId) (expression : String) :
    (w.importFile directory parent expression).Keeps P :=
  importWithin_induction (M := fun _ _ _ m => m.Keeps P) (fun _ _ _ => Build.keeps_throw)
    (fun himp _ id _ s r _ _ hr => place_keeps himp s r id [] _ (hload s r hr)) _ _ _ _ _

end Invariants

/-! ## Accounted steps -/

variable (w : Workshop)

/-- What goes on with a use may rely on its variables. -/
theorem capability_keeps {α : Type} (kind : Capability.Kind) (name : String) (given : Json)
    (p : Provenance) {f : Capability → Build α}
    (hf : ∀ (use : Capability) (t : RuleTree), t.Accounted w.catalog →
      t.Granted w.catalog kind use → ((f use).run t).2.Accounted w.catalog) :
    (w.capability kind name given p >>= f).Keeps (RuleTree.Accounted w.catalog) := by
  refine capability_bind_keeps fun u t huse ht => ?_
  obtain ⟨d, -, -, -, -, hp⟩ := Catalog.use_eq_ok huse
  have hdeclared : t.declareFound p u.2 = t.declareAll (Use.found u) := by
    rw [RuleTree.declareFound_eq, ← hp]
    rfl
  rw [hdeclared]
  exact hf u.1 _ (ht.declareAll _) (RuleTree.granted_of_use huse fun _ h => h)

theorem placeEntries_accounted (s : Source) (kind : Capability.Kind) (way : List String)
    (entries : List FragmentEntry) {put : Capability → Rule → Rule}
    (hput : ∀ (t : RuleTree) (r : Rule) (use : Capability), t.GrantedRule w.catalog r →
      t.Granted w.catalog kind use → t.GrantedRule w.catalog (put use r)) (id : RuleId) :
    (w.placeEntries s kind way entries put id).Keeps (RuleTree.Accounted w.catalog) := by
  refine Build.keeps_forM fun (e, i) _ => ?_
  exact w.capability_keeps _ _ _ _ fun use t ht huse =>
    ht.change id fun r hr => hput t r use hr huse

theorem placeHead_accounted (s : Source) (head : FragmentHead) :
    w.KeepsHead (RuleTree.Accounted w.catalog) s head := by
  refine placeHead_keeps (fun t parent p ht => ?_) (fun t v ht => ht.declareAll [v])
    (fun _ _ => ?_) (fun _ _ => ?_)
  · exact ht.insert parent (RuleTree.grantedRule_of_criteria nofun rfl)
  · exact w.placeEntries_accounted s .criteria _ _ (fun _ _ _ hr huse => hr.addCriterion huse) _
  · exact w.placeEntries_accounted s .behavior _ _ (fun _ _ _ hr huse => hr.addBehavior huse) _

theorem importFile_accounted (directory : Path) (parent : RuleId) (expression : String) :
    (w.importFile directory parent expression).Keeps (RuleTree.Accounted w.catalog) :=
  importFile_keeps (fun s _ _ head _ => w.placeHead_accounted s head) _ _ _

end Workshop

end DeliveryRules
