import DeliveryRules.Proofs.Capability.References
import DeliveryRules.Proofs.Fragment.Requests

/-!
# Why placing is refused

An error that ends the placing of a rule is that of a use of a capability, that of a child without
the mark, or that of a request.

- **Uses** (`Catalog.use_eq_error`, `Descriptor.Misuse`): why a use of a capability is refused.
- **Placing** (`Workshop.place_error`): where the error comes from. Apart from the errors of
  requests none says that a fragment includes itself (`Workshop.place_cycleAt?`).
-/

namespace DeliveryRules

/-! ## Uses -/

/-- An option in which a variable is to be named is not what it has to be. -/
inductive Descriptor.Misuse (d : Descriptor) : CompileError → Prop
  | name {option : String} (h : option ∈ d.variableHandling.names) :
      Misuse d (.typeMismatch d.name option .string)
  | list {option : String} {expected : OptionShape} (h : option ∈ d.variableHandling.lists)
      (hexpected : expected = .array ∨ expected = .strings) :
      Misuse d (.typeMismatch d.name option expected)

theorem Descriptor.references_eq_error {d : Descriptor} {options : Members} {e : CompileError}
    (h : d.references options = .error e) : d.Misuse e := by
  rw [references_eq] at h
  cases hfirst : (d.misfits options).head? with
  | none =>
    rw [hfirst] at h
    cases h
  | some m =>
    rw [hfirst] at h
    cases h
    have hmem := List.mem_of_mem_head? hfirst
    rcases List.mem_append.mp hmem with hmem | hmem
    · obtain ⟨option, hoption, hm⟩ := List.mem_filterMap.mp hmem
      obtain ⟨expected, hexpected, rfl⟩ := Option.map_eq_some_iff.mp hm
      obtain ⟨j, -, hj⟩ := Option.bind_eq_some_iff.mp hexpected
      obtain rfl : expected = .string := by
        cases j <;> cases hj
        all_goals rfl
      exact .name hoption
    · obtain ⟨option, hoption, hm⟩ := List.mem_filterMap.mp hmem
      obtain ⟨expected, hexpected, rfl⟩ := Option.map_eq_some_iff.mp hm
      obtain ⟨j, -, hj⟩ := Option.bind_eq_some_iff.mp hexpected
      refine .list hoption ?_
      unfold listMisfit? at hj
      split at hj
      · cases hj
      · split at hj
        · cases hj
        · cases hj
          exact .inr rfl
      · cases hj
        exact .inl rfl

theorem Catalog.use_eq_error {c : Catalog} {kind : Capability.Kind} {name : String} {given : Json}
    {p : Provenance} {e : CompileError} (h : c.use kind name given p = .error e) :
    (c.find? kind name = none ∧ e = .unknownCapability kind name) ∨
      ∃ d, c.find? kind name = some d ∧ (d.resolve given = .error e ∨ d.Misuse e) := by
  rcases bind_eq_error.mp h with hrequire | ⟨d, hrequire, h⟩
  · unfold require at hrequire
    split at hrequire
    · cases hrequire
    · rename_i hnone
      cases hrequire
      exact .inl ⟨hnone, rfl⟩
  · unfold require at hrequire
    split at hrequire
    · rename_i d' hd
      cases hrequire
      refine .inr ⟨d, hd, ?_⟩
      rcases bind_eq_error.mp h with hresolve | ⟨options, -, h⟩
      · exact .inl hresolve
      · rcases bind_eq_error.mp h with hmentions | ⟨names, -, h⟩
        · rw [d.mentions_eq] at hmentions
          exact .inr (Descriptor.references_eq_error hmentions)
        · cases h
    · cases hrequire

/-- No use is refused because a fragment includes itself. -/
theorem Catalog.use_noCycle (c : Catalog) (kind : Capability.Kind) (name : String) (given : Json)
    (p : Provenance) : NoCycle (c.use kind name given p) := by
  intro e h
  rcases use_eq_error h with ⟨-, rfl⟩ | ⟨d, -, hresolve | hmisuse⟩
  · rfl
  · unfold Descriptor.resolve at hresolve
    split at hresolve
    · cases hresolve
    · cases hresolve
    · cases hresolve
      rfl
  · cases hmisuse <;> rfl

/-! ## Placing -/

namespace FragmentHead

def entries (h : FragmentHead) : Capability.Kind → List FragmentEntry
  | .criteria => h.criteria
  | .behavior => h.behaviors

end FragmentHead

namespace FragmentRule

mutual

/-- The uses of capabilities of one kind in a rule, inline children and their children included. -/
def entries (kind : Capability.Kind) : FragmentRule → List FragmentEntry
  | .mk head cs => head.entries kind ++ entriesIn kind cs

def entriesIn (kind : Capability.Kind) : List FragmentChild → List FragmentEntry
  | [] => []
  | c :: cs => entriesOf kind c ++ entriesIn kind cs

def entriesOf (kind : Capability.Kind) : FragmentChild → List FragmentEntry
  | .mention _ => []
  | .rule r => entries kind r

end

mutual

/-- Whether all texts among the children of a rule, and further below, have the mark of a
mention. -/
def isMarked : FragmentRule → Bool
  | .mk _ cs => allMarked cs

def allMarked : List FragmentChild → Bool
  | [] => true
  | c :: cs => isMarkedChild c && allMarked cs

def isMarkedChild : FragmentChild → Bool
  | .mention text => (Workshop.mentioned? text).isSome
  | .rule r => isMarked r

end

end FragmentRule

namespace Workshop

variable {w : Workshop} {f : List Path → Importer} {chain : List Path} {s : Source}
  {e : CompileError}

/-- The error comes from what is placed itself: one of its entries is refused, or a child that is a
text has no mark. -/
inductive Refuses (w : Workshop) (s : Source) (entries : Capability.Kind → List FragmentEntry)
    (marked : Bool) (e : CompileError) : Prop
  | entry {kind : Capability.Kind} {entry : FragmentEntry} {p : Provenance}
      (hmem : entry ∈ entries kind)
      (huse : w.catalog.use kind entry.name entry.options p = .error e)
  | child {message pointer : String} (hmarked : marked = false)
      (hfault : e = s.fault w.excerptWidth message pointer)

theorem Refuses.mono {entries entries' : Capability.Kind → List FragmentEntry}
    {marked marked' : Bool} (h : w.Refuses s entries marked e)
    (hentries : ∀ kind, entries kind ⊆ entries' kind) (hmarked : marked = false → marked' = false) :
    w.Refuses s entries' marked' e := by
  cases h with
  | entry hmem huse => exact .entry (hentries _ hmem) huse
  | child h hfault => exact .child (hmarked h) hfault

theorem placeHead_error {head : FragmentHead} {parent : RuleId} {way : List String}
    {p : Provenance} {t : RuleTree}
    (h : ((w.placeHead s head parent way p).run t).1 = .error e) :
    w.Refuses s head.entries true e := by
  have huses (kind : Capability.Kind) {way : List String}
      (h : s.uses w.catalog kind way (head.entries kind) = .error e) :
      w.Refuses s head.entries true e := by
    obtain ⟨⟨entry, i⟩, hmem, huse⟩ := mapM_eq_error h
    exact .entry (List.fst_mem_of_mem_zipIdx hmem) huse
  have houtcome := Build.outcome_eq_error.mpr h
  rw [placeHead_outcome] at houtcome
  cases hhead : head.uses w.catalog s way with
  | ok uses =>
    rw [hhead] at houtcome
    cases houtcome
  | error e' =>
    rw [hhead] at houtcome
    cases houtcome
    rcases bind_eq_error.mp hhead with hcriteria | ⟨criteria, -, hrest⟩
    · exact huses .criteria hcriteria
    · rcases bind_eq_error.mp hrest with hbehaviors | ⟨behaviors, -, hnothing⟩
      · exact huses .behavior hbehaviors
      · cases hnothing

mutual

/-- The error that ends placing comes from the rule itself or from a request. -/
theorem place_error : ∀ (r : FragmentRule) {parent : RuleId} {way : List String} {p : Provenance}
    {t : RuleTree}, ((w.place (f chain) s r parent way p).run t).1 = .error e →
      w.Refuses s (FragmentRule.entries · r) r.isMarked e ∨
        ∃ q ∈ w.requests f chain s r parent way p t, (q.run f).1 = .error e
  | .mk head cs, parent, way, p, t, h => by
    rw [place, run_bind] at h
    rw [requests]
    split at h
    · rename_i id t' heq
      rw [heq]
      refine (placeChildren_error cs h).imp_left fun h => h.mono (fun kind => ?_) fun h => h
      exact List.subset_append_right _ _
    · rename_i e' t' heq
      cases h
      refine .inl ((placeHead_error (congrArg Prod.fst heq)).mono (fun kind => ?_) nofun)
      exact List.subset_append_left _ _

theorem placeChildren_error : ∀ (cs : List FragmentChild) {id : RuleId} {way : List String}
    {count : Nat} {t : RuleTree},
    ((w.placeChildren (f chain) s cs id way count).run t).1 = .error e →
      w.Refuses s (FragmentRule.entriesIn · cs) (FragmentRule.allMarked cs) e ∨
        ∃ q ∈ w.requestsOfAll f chain s cs id way count t, (q.run f).1 = .error e
  | [], _, _, _, _, h => by cases h
  | c :: cs, id, way, count, t, h => by
    rw [placeChildren, run_bind] at h
    rw [requestsOfAll]
    split at h
    · rename_i t' heq
      rw [heq]
      rcases placeChildren_error cs h with h | ⟨q, hq, hrun⟩
      · refine .inl (h.mono (fun kind => List.subset_append_right _ _) fun h => ?_)
        rw [FragmentRule.allMarked, h, Bool.and_false]
      · exact .inr ⟨q, List.mem_append_right _ hq, hrun⟩
    · rename_i e' t' heq
      cases h
      rcases placeChild_error c (congrArg Prod.fst heq) with h | ⟨q, hq, hrun⟩
      · refine .inl (h.mono (fun kind => List.subset_append_left _ _) fun h => ?_)
        rw [FragmentRule.allMarked, h, Bool.false_and]
      · exact .inr ⟨q, List.mem_append_left _ hq, hrun⟩

theorem placeChild_error : ∀ (c : FragmentChild) {id : RuleId} {way : List String} {t : RuleTree},
    ((w.placeChild (f chain) s c id way).run t).1 = .error e →
      w.Refuses s (FragmentRule.entriesOf · c) (FragmentRule.isMarkedChild c) e ∨
        ∃ q ∈ w.requestsOf f chain s c id way t, (q.run f).1 = .error e
  | .mention text, id, way, t, h => by
    rw [placeChild] at h
    rw [requestsOf]
    cases hmentioned : mentioned? text with
    | some expression =>
      rw [hmentioned] at h
      exact .inr ⟨_, List.mem_singleton_self _, h⟩
    | none =>
      rw [hmentioned] at h
      cases h
      refine .inl (.child ?_ rfl)
      rw [FragmentRule.isMarkedChild, hmentioned]
      rfl
  | .rule r, id, way, t, h => by
    rw [placeChild] at h
    exact place_error r h

end

/-- Where placing says that a fragment includes itself, a request said so. -/
theorem place_cycleAt? {q : Path} (he : e.cycleAt? = some q) {r : FragmentRule} {parent : RuleId}
    {way : List String} {p : Provenance} {t : RuleTree}
    (h : ((w.place (f chain) s r parent way p).run t).1 = .error e) :
    ∃ q ∈ w.requests f chain s r parent way p t, (q.run f).1 = .error e := by
  refine (place_error r h).resolve_left fun hrefuses => ?_
  cases hrefuses with
  | entry _ huse => cases (w.catalog.use_noCycle _ _ _ _ e huse).symm.trans he
  | child _ hfault =>
    subst hfault
    cases he

end Workshop

end DeliveryRules
