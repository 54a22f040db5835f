import DeliveryRules.Fragment.Import
import DeliveryRules.Proofs.Except
import DeliveryRules.Proofs.Rule.Tree

/-!
# Fragments make trees grow

- **Running a build** (`Build.run_bind_ok`): a step that fails ends the build, and the tree stays as
  the step left it.
- **A use of a capability** (`Workshop.capability_run`): what it gives back depends on the catalog
  alone (`Catalog.use`), and no rule of the tree is touched.
- **Imports** (`Workshop.importWithin_induction`): an import gives up, or places the rule of a file
  with imports that do the same.
- **Growth** (`Build.GrowsAt`): placing and importing a fragment is work on the rule it is placed
  in (`Workshop.importFile_growsAt`), also where it fails.
-/

namespace DeliveryRules

/-! ## Running a build -/

namespace Build

variable {α β : Type}

/-- A build that gives something back went through its first step. -/
theorem run_bind_ok {m : Build α} {f : α → Build β} {t : RuleTree} {b : β}
    (h : ((m >>= f).run t).1 = .ok b) : ∃ a t', ((f a).run t').1 = .ok b := by
  rw [run_bind] at h
  split at h
  · exact ⟨_, _, h⟩
  · cases h

@[simp] theorem run_pure (a : α) (t : RuleTree) : (pure a : Build α).run t = (.ok a, t) := rfl

@[simp] theorem run_get (t : RuleTree) : (get : Build RuleTree).run t = (.ok t, t) := rfl

@[simp] theorem run_set (t t' : RuleTree) : (set t' : Build Unit).run t = (.ok (), t') := rfl

@[simp] theorem run_modify (f : RuleTree → RuleTree) (t : RuleTree) :
    (modify f : Build Unit).run t = (.ok (), f t) := rfl

@[simp] theorem run_check (x : Except CompileError α) (t : RuleTree) :
    (Workshop.capability.check x).run t = (x, t) := rfl

/-- Whatever becomes of it, the step is work on the rule `scope`. -/
def GrowsAt (scope : RuleId) (m : Build α) : Prop :=
  ∀ t : RuleTree, scope < t.size → t.Grows scope (m.run t).2

variable {scope : RuleId} {m : Build α}

theorem GrowsAt.bind {f : α → Build β} (hm : GrowsAt scope m) (hf : ∀ a, GrowsAt scope (f a)) :
    GrowsAt scope (m >>= f) := by
  intro t ht
  have h := hm t ht
  rw [run_bind]
  split
  · rename_i a t' heq
    rw [heq] at h
    exact h.trans (.inl rfl) (hf a t' (Nat.lt_of_lt_of_le ht h.size_le))
  · rename_i e t' heq
    rwa [heq] at h

theorem growsAt_pure (a : α) : GrowsAt scope (pure a : Build α) :=
  fun _ _ => .refl

theorem growsAt_throw (e : CompileError) : GrowsAt scope (throw e : Build α) :=
  fun _ _ => .refl

theorem growsAt_change {f : Rule → Rule} (hf : ∀ r, (f r).provenance = r.provenance) :
    GrowsAt scope (modify fun t => t.change scope f : Build Unit) :=
  fun _ _ => .change .refl (.inl rfl) hf

theorem growsAt_forM {f : α → Build PUnit} (hf : ∀ a, GrowsAt scope (f a)) (as : List α) :
    GrowsAt scope (as.forM f) := by
  induction as with
  | nil => exact growsAt_pure _
  | cons a as ih => exact (hf a).bind fun _ => ih

end Build

/-! ## Uses of capabilities -/

/-- The variables that options refer to, of a capability that takes part in their handling. -/
def Descriptor.mentions (d : Descriptor) (options : Members) : Except CompileError (List String) :=
  if d.variableHandling.isEmpty then .ok [] else d.references options

/-- A use of a capability, and the variables it refers to. -/
def Catalog.use (c : Catalog) (kind : Capability.Kind) (name : String) (given : Json)
    (p : Provenance) : Except CompileError (Capability × List String) := do
  let d ← c.require kind name
  let options ← d.resolve given
  let names ← d.mentions options
  return (⟨name, options, p⟩, names)

namespace RuleTree

def declareFound (t : RuleTree) (p : Provenance) (names : List String) : RuleTree :=
  names.foldl (fun t name => t.declare (.found name p)) t

theorem declareReferences_eq (t : RuleTree) (d : Descriptor) (options : Members)
    (p : Provenance) :
    t.declareReferences d options p = (d.mentions options).map (t.declareFound p) := by
  unfold declareReferences Descriptor.mentions
  split <;> rfl

@[simp] theorem nodes_declareFound (t : RuleTree) (p : Provenance) (names : List String) :
    (t.declareFound p names).nodes = t.nodes := by
  unfold declareFound
  induction names generalizing t with
  | nil => rfl
  | cons name names ih => exact ih _

theorem grows_declareFound (t : RuleTree) (scope : RuleId) (p : Provenance)
    (names : List String) : t.Grows scope (t.declareFound p names) := by
  unfold declareFound
  suffices h : ∀ t', t.Grows scope t' →
      t.Grows scope (names.foldl (fun t name => t.declare (.found name p)) t') from h t .refl
  induction names with
  | nil => exact fun _ h => h
  | cons name names ih => exact fun t' h => ih _ (h.declare _)

end RuleTree

namespace Workshop

/-- A use of a capability changes nothing but the variables, and nothing at all if it fails. -/
theorem capability_run (w : Workshop) (kind : Capability.Kind) (name : String) (given : Json)
    (p : Provenance) (t : RuleTree) :
    (w.capability kind name given p).run t =
      match w.catalog.use kind name given p with
      | .ok (c, names) => (.ok c, t.declareFound p names)
      | .error e => (.error e, t) := by
  rw [capability, run_bind, Build.run_check, Catalog.use]
  cases w.catalog.require kind name with
  | error e => rfl
  | ok d =>
    simp only
    rw [run_bind, Build.run_check]
    cases hr : d.resolve given with
    | error e => simp [bind, Except.bind, hr]
    | ok options =>
      simp only
      rw [run_bind, Build.run_get]
      simp only
      rw [run_bind, Build.run_check, RuleTree.declareReferences_eq]
      cases hm : d.mentions options with
      | error e => simp [bind, Except.bind, hr, hm, Except.map]
      | ok names =>
        simp only [Except.map]
        rw [run_bind, Build.run_set]
        simp only
        rw [Build.run_pure]
        simp [bind, Except.bind, hr, hm, pure, Except.pure]

/-! ## Imports -/

/-- What holds of a build that gives up, and of one that places the rule of a file if it holds of
the imports in that rule, holds of every import. -/
theorem importWithin_induction {w : Workshop} {M : Path → RuleId → String → Build Unit → Prop}
    (hthrow : ∀ directory id expression e, M directory id expression (throw e))
    (hplace : ∀ {importer : Importer},
      (∀ directory id expression, M directory id expression (importer directory id expression)) →
      ∀ directory id expression (s : Source) r, s.path = directory.resolve expression →
        w.files.read s.path = .ok s.text → w.load s = .ok r →
          M directory id expression (w.place importer s r id [] (.ofPath s.path)))
    (fuel : Nat) (chain : List Path) (directory : Path) (id : RuleId) (expression : String) :
    M directory id expression (w.importWithin fuel chain directory id expression) := by
  induction fuel generalizing chain directory id expression with
  | zero => exact hthrow _ _ _ _
  | succ fuel ih =>
    rw [importWithin]
    split
    · exact hthrow _ _ _ _
    · simp only
      split
      · exact hthrow _ _ _ _
      · rename_i text hread
        split
        · exact hthrow _ _ _ _
        · rename_i r hload
          exact hplace (ih _) directory id expression ⟨_, text⟩ r rfl hread hload

/-! ## Growth -/

variable {scope : RuleId}

theorem capability_growsAt (w : Workshop) (kind : Capability.Kind) (name : String) (given : Json)
    (p : Provenance) : Build.GrowsAt scope (w.capability kind name given p) := by
  intro t _
  rw [capability_run]
  split
  · exact t.grows_declareFound scope p _
  · exact .refl

theorem placeVariables_growsAt (s : Source) (way : List String)
    (declared : List FragmentVariable) : Build.GrowsAt scope (placeVariables s way declared) :=
  Build.growsAt_forM (fun _ _ _ => .declare .refl _) _

theorem placeEntries_growsAt (w : Workshop) (s : Source) (kind : Capability.Kind)
    (way : List String) (entries : List FragmentEntry) {put : Capability → Rule → Rule}
    (hput : ∀ c r, (put c r).provenance = r.provenance) :
    Build.GrowsAt scope (w.placeEntries s kind way entries put scope) :=
  Build.growsAt_forM
    (fun _ => .bind (w.capability_growsAt _ _ _ _) fun c => Build.growsAt_change (hput c)) _

/-- The head of a rule becomes a new rule, which is worked on from then on. -/
theorem placeHead_grows (w : Workshop) (s : Source) (h : FragmentHead) (parent : RuleId)
    (way : List String) (p : Provenance) (t : RuleTree) :
    ∃ r : Rule, r.provenance = some p ∧
      (t.insert parent r).Grows t.size ((w.placeHead s h parent way p).run t).2 ∧
      ∀ id, ((w.placeHead s h parent way p).run t).1 = .ok id → id = t.size := by
  refine ⟨{ name := h.name, comment := h.comment, policy := h.policy, provenance := some p },
    rfl, ?_⟩
  rw [placeHead, run_bind, Build.run_get]
  simp only
  rw [run_bind, Build.run_modify]
  constructor
  · have hvariables : Build.GrowsAt t.size (placeVariables s way h.declared) :=
      placeVariables_growsAt s way h.declared
    have hcriteria : Build.GrowsAt t.size
        (w.placeEntries s .criteria (way ++ ["criteria"]) h.criteria Rule.addCriterion t.size) :=
      w.placeEntries_growsAt _ _ _ _ fun _ _ => rfl
    have hbehaviors : Build.GrowsAt t.size
        (w.placeEntries s .behavior (way ++ ["behaviors"]) h.behaviors Rule.addBehavior t.size) :=
      w.placeEntries_growsAt _ _ _ _ fun _ _ => rfl
    have hrest := hvariables.bind fun _ => hcriteria.bind fun _ => hbehaviors.bind fun _ =>
      Build.growsAt_pure t.size
    exact hrest _ (by simp)
  · intro id hid
    obtain ⟨_, _, hid⟩ := Build.run_bind_ok hid
    obtain ⟨_, _, hid⟩ := Build.run_bind_ok hid
    obtain ⟨_, _, hid⟩ := Build.run_bind_ok hid
    cases hid
    rfl

mutual

/-- The rule of a fragment becomes a new rule, which is worked on from then on. -/
theorem place_grows (w : Workshop) {importer : Importer}
    (himp : ∀ directory id expression, Build.GrowsAt id (importer directory id expression))
    (s : Source) : ∀ (r : FragmentRule) (parent : RuleId) (way : List String) (p : Provenance)
      (t : RuleTree), ∃ r' : Rule, r'.provenance = some p ∧
        (t.insert parent r').Grows t.size ((w.place importer s r parent way p).run t).2
  | .mk head children, parent, way, p, t => by
    obtain ⟨r', hr', hg, hid⟩ := w.placeHead_grows s head parent way p t
    refine ⟨r', hr', ?_⟩
    rw [place, run_bind]
    split
    · rename_i id t' heq
      rw [heq] at hg hid
      obtain rfl := hid id rfl
      have hsize := hg.size_le
      rw [RuleTree.size_insert] at hsize
      exact hg.trans (.inl rfl) (placeChildren_growsAt w himp s children _ _ 0 t' hsize)
    · rename_i e t' heq
      rwa [heq] at hg

theorem placeChildren_growsAt (w : Workshop) {importer : Importer}
    (himp : ∀ directory id expression, Build.GrowsAt id (importer directory id expression))
    (s : Source) : ∀ (children : List FragmentChild) (id : RuleId) (way : List String)
      (count : Nat), Build.GrowsAt id (w.placeChildren importer s children id way count)
  | [], _, _, _ => Build.growsAt_pure ()
  | child :: rest, id, way, count =>
    .bind (placeChild_growsAt w himp s child id _) fun _ =>
      placeChildren_growsAt w himp s rest id way (count + 1)

theorem placeChild_growsAt (w : Workshop) {importer : Importer}
    (himp : ∀ directory id expression, Build.GrowsAt id (importer directory id expression))
    (s : Source) : ∀ (child : FragmentChild) (id : RuleId) (way : List String),
      Build.GrowsAt id (w.placeChild importer s child id way)
  | .mention text, id, way => by
    rw [placeChild]
    split
    · exact himp _ _ _
    · exact Build.growsAt_throw _
  | .rule r, id, way => by
    intro t ht
    obtain ⟨r', hr', hg⟩ := place_grows w himp s r id way (s.provenanceAt way) t
    exact .of_insert (by simp [hr']) ht hg

end

theorem place_growsAt (w : Workshop) {importer : Importer}
    (himp : ∀ directory id expression, Build.GrowsAt id (importer directory id expression))
    (s : Source) (r : FragmentRule) (parent : RuleId) (way : List String) (p : Provenance) :
    Build.GrowsAt parent (w.place importer s r parent way p) := by
  intro t ht
  obtain ⟨r', hr', hg⟩ := w.place_grows himp s r parent way p t
  exact .of_insert (by simp [hr']) ht hg

theorem importWithin_growsAt (w : Workshop) (fuel : Nat) (chain : List Path) (directory : Path)
    (parent : RuleId) (expression : String) :
    Build.GrowsAt parent (w.importWithin fuel chain directory parent expression) :=
  importWithin_induction (M := fun _ id _ m => Build.GrowsAt id m)
    (fun _ _ _ => Build.growsAt_throw)
    (fun himp _ id _ s r _ _ _ => w.place_growsAt himp s r id [] _)
    fuel chain directory parent expression

/-- An import is work on the rule it is made in, whatever the files hold. -/
theorem importFile_growsAt (w : Workshop) (directory : Path) (scope : RuleId)
    (expression : String) : Build.GrowsAt scope (w.importFile directory scope expression) :=
  w.importWithin_growsAt _ _ directory scope expression

end Workshop

end DeliveryRules
