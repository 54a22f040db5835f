import DeliveryRules.Proofs.Fragment.Placing

/-!
# Fragments with their includes in place

- **Expansions** (`Expansion`): a rule of a fragment in which every mention of another fragment has
  been replaced by the rule of that one. Each rule keeps the file it was read from, its place there
  and where it is said to come from. `Workshop.Expands` says what a child of a rule becomes, by the
  rules of mentioning alone: there is no tree and no chain of files.
- **One expansion at most** (`ExpandsFile.unique`): files and their contents leave no choice.
- **Planting** (`Expansion.plant`): puts an expansion into a tree, rule by rule, by recursion on the
  expansion.
- **Placing** (`Workshop.place_outcome`, `Workshop.placeChild_expands`): where mentioned fragments
  are planted, so is the rule that mentions them; and a rule that was placed without error has an
  expansion, which was planted.
- `Workshop.importWithin_expands`: an import without error has planted the expansion of its file.
-/

namespace DeliveryRules

/-- A rule of a fragment with those below it, included ones in place. -/
inductive Expansion where
  | node (source : Source) (way : List String) (origin : Provenance) (head : FragmentHead)
      (children : List Expansion)

namespace Expansion

mutual

/-- The number of rules. -/
def size : Expansion → Nat
  | .node _ _ _ _ es => sizeOfAll es + 1

def sizeOfAll : List Expansion → Nat
  | [] => 0
  | e :: es => size e + sizeOfAll es

end

mutual

/-- Puts the rules of an expansion into a tree, as a new last child of a rule. -/
def plant (c : Catalog) : Expansion → RuleId → RuleTree → Except CompileError RuleTree
  | .node s way origin head es, parent, t =>
    (head.uses c s way).bind fun uses => plantAll c es t.size
      ((t.insert parent (head.rule origin uses)).declareAll (head.declarations s way uses))

/-- Puts expansions into a tree as last children of one rule. -/
def plantAll (c : Catalog) : List Expansion → RuleId → RuleTree → Except CompileError RuleTree
  | [], _, t => .ok t
  | e :: es, id, t => (plant c e id t).bind (plantAll c es id)

end

end Expansion

namespace FragmentRule

mutual

/-- What the children of a rule mention, inline children and their children included, in order. -/
def mentions : FragmentRule → List String
  | .mk _ cs => mentionsIn cs

def mentionsIn : List FragmentChild → List String
  | [] => []
  | c :: cs => mentionsOf c ++ mentionsIn cs

def mentionsOf : FragmentChild → List String
  | .mention text => (Workshop.mentioned? text).toList
  | .rule r => mentions r

end

end FragmentRule

namespace Workshop

variable {w : Workshop}

/-! ## What a child becomes -/

/-- The file at `path` is there and holds the rule `r`. -/
structure Holds (w : Workshop) (path : Path) (s : Source) (r : FragmentRule) : Prop where
  path_eq : s.path = path
  read_eq : w.files.read path = .ok s.text
  load_eq : w.load s = .ok r

/-- The rule that a child of a rule in `s` stands for, the place where it is written and where it is
said to come from. A mention stands for the rule of the file that it leads to from the directory of
`s`. -/
inductive Means (w : Workshop) (s : Source) (way : List String) :
    FragmentChild → Source → List String → Provenance → FragmentRule → Prop
  | rule (r : FragmentRule) : Means w s way (.rule r) s way (s.provenanceAt way) r
  | mention {text expression : String} {s' : Source} {r : FragmentRule}
      (h : mentioned? text = some expression)
      (holds : w.Holds (s.directory.resolve expression) s' r) :
      Means w s way (.mention text) s' [] (.ofPath (s.directory.resolve expression)) r

mutual

/-- What a child of a rule becomes that stands in `s` at `way`. -/
inductive Expands (w : Workshop) : Source → List String → FragmentChild → Expansion → Prop
  | node {s : Source} {way : List String} {child : FragmentChild} {s' : Source}
      {way' : List String} {origin : Provenance} {head : FragmentHead}
      {cs : List FragmentChild} {es : List Expansion}
      (means : w.Means s way child s' way' origin (.mk head cs))
      (below : ExpandsAll w s' (way' ++ ["children"]) 0 cs es) :
      Expands w s way child (.node s' way' origin head es)

/-- What children become, of which the first is the one with the number `count`. -/
inductive ExpandsAll (w : Workshop) :
    Source → List String → Nat → List FragmentChild → List Expansion → Prop
  | nil {s : Source} {way : List String} {count : Nat} : ExpandsAll w s way count [] []
  | cons {s : Source} {way : List String} {count : Nat} {c : FragmentChild}
      {cs : List FragmentChild} {e : Expansion} {es : List Expansion}
      (first : Expands w s (way ++ [toString count]) c e)
      (rest : ExpandsAll w s way (count + 1) cs es) : ExpandsAll w s way count (c :: cs) (e :: es)

end

/-- What the file at a path becomes. -/
inductive ExpandsFile (w : Workshop) (path : Path) : Expansion → Prop
  | mk {s : Source} {head : FragmentHead} {cs : List FragmentChild} {es : List Expansion}
      (holds : w.Holds path s (.mk head cs)) (below : w.ExpandsAll s ["children"] 0 cs es) :
      ExpandsFile w path (.node s [] (.ofPath path) head es)

theorem expands_mention {s : Source} {way : List String} {text : String} {e : Expansion} :
    w.Expands s way (.mention text) e ↔
      ∃ expression, mentioned? text = some expression ∧
        w.ExpandsFile (s.directory.resolve expression) e := by
  constructor
  · intro h
    cases h with
    | node means below =>
      cases means with
      | mention h holds => exact ⟨_, h, .mk holds below⟩
  · rintro ⟨expression, h, hfile⟩
    cases hfile with
    | mk holds below => exact .node (.mention h holds) below

/-! ## One expansion at most -/

theorem Holds.unique {path : Path} {s s' : Source} {r r' : FragmentRule} (h : w.Holds path s r)
    (h' : w.Holds path s' r') : s = s' ∧ r = r' := by
  have hpath : s.path = s'.path := h.path_eq.trans h'.path_eq.symm
  have htext : s.text = s'.text := Except.ok.inj (h.read_eq.symm.trans h'.read_eq)
  obtain rfl : s = s' := by
    cases s
    cases s'
    simp_all
  exact ⟨rfl, Except.ok.inj (h.load_eq.symm.trans h'.load_eq)⟩

mutual

theorem Expands.unique : ∀ (e : Expansion) {s : Source} {way : List String} {c : FragmentChild}
    {e' : Expansion}, w.Expands s way c e → w.Expands s way c e' → e = e'
  | .node s₁ way₁ origin head es, s, way, c, _, h, h' => by
    cases h with
    | node means below =>
      cases h' with
      | node means' below' =>
        cases means with
        | rule =>
          cases means'
          rw [ExpandsAll.unique es below below']
        | mention h holds =>
          cases means' with
          | mention h' holds' =>
            obtain rfl := Option.some.inj (h.symm.trans h')
            obtain ⟨rfl, heq⟩ := holds.unique holds'
            cases heq
            rw [ExpandsAll.unique es below below']

theorem ExpandsAll.unique : ∀ (es : List Expansion) {s : Source} {way : List String} {count : Nat}
    {cs : List FragmentChild} {es' : List Expansion},
    w.ExpandsAll s way count cs es → w.ExpandsAll s way count cs es' → es = es'
  | [], _, _, _, _, _, h, h' => by
    cases h
    cases h'
    rfl
  | e :: es, _, _, _, _, _, h, h' => by
    cases h with
    | cons first rest =>
      cases h' with
      | cons first' rest' => rw [first.unique e first', rest.unique es rest']

end

theorem ExpandsFile.unique {path : Path} {e e' : Expansion} (h : w.ExpandsFile path e)
    (h' : w.ExpandsFile path e') : e = e' := by
  cases h with
  | mk holds below =>
    cases h' with
    | mk holds' below' =>
      obtain ⟨rfl, heq⟩ := holds.unique holds'
      cases heq
      rw [below.unique _ below']

/-! ## Mentions -/

mutual

theorem Expands.mentions : ∀ (e : Expansion) {s : Source} {way : List String} {c : FragmentChild},
    w.Expands s way c e → ∀ expression ∈ FragmentRule.mentionsOf c,
      ∃ e', w.ExpandsFile (s.directory.resolve expression) e' ∧ e'.size ≤ e.size
  | .node s' way' origin head es, s, way, .mention text, h, expression, hmem => by
    obtain ⟨expression', h', hfile⟩ := expands_mention.mp h
    rw [FragmentRule.mentionsOf, h'] at hmem
    obtain rfl := List.mem_singleton.mp hmem
    exact ⟨_, hfile, Nat.le_refl _⟩
  | .node s' way' origin head es, s, way, .rule (.mk head' cs), h, expression, hmem => by
    cases h with
    | node means below =>
      cases means with
      | rule =>
        rw [FragmentRule.mentionsOf, FragmentRule.mentions] at hmem
        obtain ⟨e', hfile, hsize⟩ := below.mentions es expression hmem
        exact ⟨e', hfile, Nat.le_succ_of_le hsize⟩

/-- What is mentioned in some children has an expansion, which is part of theirs. -/
theorem ExpandsAll.mentions : ∀ (es : List Expansion) {s : Source} {way : List String}
    {count : Nat} {cs : List FragmentChild}, w.ExpandsAll s way count cs es →
      ∀ expression ∈ FragmentRule.mentionsIn cs,
        ∃ e', w.ExpandsFile (s.directory.resolve expression) e' ∧
          e'.size ≤ Expansion.sizeOfAll es
  | [], _, _, _, _, h, expression, hmem => by
    cases h
    cases hmem
  | e :: es, _, _, _, _, h, expression, hmem => by
    cases h with
    | cons first rest =>
      rw [FragmentRule.mentionsIn] at hmem
      rcases List.mem_append.mp hmem with hmem | hmem
      · obtain ⟨e', hfile, hsize⟩ := first.mentions e expression hmem
        exact ⟨e', hfile, by rw [Expansion.sizeOfAll]; omega⟩
      · obtain ⟨e', hfile, hsize⟩ := rest.mentions es expression hmem
        exact ⟨e', hfile, by rw [Expansion.sizeOfAll]; omega⟩

end

/-! ## Placing -/

/-- What is imported for the expressions is planted. -/
def Importer.Plants (importer : Importer) (w : Workshop) (s : Source)
    (expressions : List String) : Prop :=
  ∀ expression ∈ expressions, ∀ e, w.ExpandsFile (s.directory.resolve expression) e →
    ∀ id t, (importer s.directory id expression).outcome t =
      (e.plant w.catalog id t).map fun t' => ((), t')

variable {importer : Importer}

/-- Placing a rule is planting it, if its children are planted. -/
theorem place_mk_outcome {s : Source} {way : List String} {head : FragmentHead}
    {cs : List FragmentChild} {es : List Expansion}
    (hchildren : ∀ id t, (w.placeChildren importer s cs id (way ++ ["children"]) 0).outcome t =
      (Expansion.plantAll w.catalog es id t).map fun t' => ((), t'))
    (parent : RuleId) (p : Provenance) (t : RuleTree) :
    (w.place importer s (.mk head cs) parent way p).outcome t =
      (Expansion.plant w.catalog (.node s way p head es) parent t).map fun t' => ((), t') := by
  rw [place, Build.outcome_bind, placeHead_outcome, Expansion.plant]
  cases head.uses w.catalog s way with
  | error e => rfl
  | ok uses => exact hchildren _ _

mutual

theorem placeChild_outcome {s : Source} : ∀ (e : Expansion) {c : FragmentChild}
    {way : List String}, w.Expands s way c e →
      importer.Plants w s (FragmentRule.mentionsOf c) → ∀ (id : RuleId) (t : RuleTree),
        (w.placeChild importer s c id way).outcome t =
          (e.plant w.catalog id t).map fun t' => ((), t')
  | .node s' way' origin head es, .mention text, way, h, himp, id, t => by
    obtain ⟨expression, h', hfile⟩ := expands_mention.mp h
    rw [placeChild, h']
    exact himp expression (by simp [FragmentRule.mentionsOf, h']) _ hfile id t
  | .node s' way' origin head es, .rule (.mk head' cs), way, h, himp, id, t => by
    cases h with
    | node means below =>
      cases means with
      | rule => exact place_mk_outcome (placeChildren_outcome es below himp) _ _ _

theorem placeChildren_outcome {s : Source} : ∀ (es : List Expansion) {cs : List FragmentChild}
    {way : List String} {count : Nat}, w.ExpandsAll s way count cs es →
      importer.Plants w s (FragmentRule.mentionsIn cs) → ∀ (id : RuleId) (t : RuleTree),
        (w.placeChildren importer s cs id way count).outcome t =
          (Expansion.plantAll w.catalog es id t).map fun t' => ((), t')
  | [], _, _, _, h, _, id, t => by
    cases h
    rfl
  | e :: es, _, way, count, h, himp, id, t => by
    cases h with
    | cons first rest =>
      have hfirst := placeChild_outcome e first
        (fun x hx => himp x (List.mem_append_left _ hx)) id t
      have hrest := placeChildren_outcome es rest
        (fun x hx => himp x (List.mem_append_right _ hx)) id
      rw [placeChildren, Build.outcome_bind, hfirst, Expansion.plantAll]
      cases e.plant w.catalog id t with
      | error error => rfl
      | ok t' => exact hrest t'

end

/-- Where the mentions in it are planted, so is a rule. -/
theorem place_outcome {s : Source} {way : List String} {head : FragmentHead}
    {cs : List FragmentChild} {es : List Expansion}
    (below : w.ExpandsAll s (way ++ ["children"]) 0 cs es)
    (himp : importer.Plants w s (FragmentRule.mentionsIn cs)) (parent : RuleId) (p : Provenance)
    (t : RuleTree) :
    (w.place importer s (.mk head cs) parent way p).outcome t =
      (Expansion.plant w.catalog (.node s way p head es) parent t).map fun t' => ((), t') :=
  place_mk_outcome (placeChildren_outcome es below himp) parent p t

/-- What is imported without error was planted. -/
def Importer.OnlyPlants (importer : Importer) (w : Workshop) : Prop :=
  ∀ (directory : Path) (id : RuleId) (expression : String) (t t' : RuleTree),
    (importer directory id expression).outcome t = .ok ((), t') →
      ∃ e, w.ExpandsFile (directory.resolve expression) e ∧ e.plant w.catalog id t = .ok t'

/-- A rule that was placed without error was planted, if its children were. -/
theorem place_mk_expands {s : Source} {way : List String} {head : FragmentHead}
    {cs : List FragmentChild} {parent : RuleId} {p : Provenance} {t t' : RuleTree}
    (h : (w.place importer s (.mk head cs) parent way p).outcome t = .ok ((), t'))
    (hchildren : ∀ id t,
      (w.placeChildren importer s cs id (way ++ ["children"]) 0).outcome t = .ok ((), t') →
        ∃ es, w.ExpandsAll s (way ++ ["children"]) 0 cs es ∧
          Expansion.plantAll w.catalog es id t = .ok t') :
    ∃ es, w.ExpandsAll s (way ++ ["children"]) 0 cs es ∧
      Expansion.plant w.catalog (.node s way p head es) parent t = .ok t' := by
  rw [place, Build.outcome_bind, placeHead_outcome] at h
  cases huses : head.uses w.catalog s way with
  | error e =>
    rw [huses] at h
    cases h
  | ok uses =>
    rw [huses] at h
    obtain ⟨es, below, hplant⟩ := hchildren _ _ h
    exact ⟨es, below, by rw [Expansion.plant, huses]; exact hplant⟩

mutual

theorem placeChild_expands (himp : importer.OnlyPlants w) {s : Source} : ∀ (c : FragmentChild)
    {id : RuleId} {way : List String} {t t' : RuleTree},
    (w.placeChild importer s c id way).outcome t = .ok ((), t') →
      ∃ e, w.Expands s way c e ∧ e.plant w.catalog id t = .ok t'
  | .mention text, id, way, t, t', h => by
    rw [placeChild] at h
    split at h
    · rename_i expression h'
      obtain ⟨e, hfile, hplant⟩ := himp _ _ _ _ _ h
      exact ⟨e, expands_mention.mpr ⟨expression, h', hfile⟩, hplant⟩
    · cases h
  | .rule (.mk head cs), id, way, t, t', h => by
    rw [placeChild] at h
    obtain ⟨es, below, hplant⟩ := place_mk_expands h fun _ _ => placeChildren_expands himp cs
    exact ⟨_, .node (.rule _) below, hplant⟩

theorem placeChildren_expands (himp : importer.OnlyPlants w) {s : Source} :
    ∀ (cs : List FragmentChild) {id : RuleId} {way : List String} {count : Nat}
      {t t' : RuleTree}, (w.placeChildren importer s cs id way count).outcome t = .ok ((), t') →
        ∃ es, w.ExpandsAll s way count cs es ∧ Expansion.plantAll w.catalog es id t = .ok t'
  | [], _, _, _, t, t', h => by
    cases h
    exact ⟨[], .nil, rfl⟩
  | c :: cs, id, way, count, t, t', h => by
    rw [placeChildren, Build.outcome_bind] at h
    cases hfirst : (w.placeChild importer s c id (way ++ [toString count])).outcome t with
    | error error =>
      rw [hfirst] at h
      cases h
    | ok first =>
      obtain ⟨⟨⟩, t₁⟩ := first
      rw [hfirst] at h
      obtain ⟨e, he, hplant⟩ := placeChild_expands himp c hfirst
      obtain ⟨es, hes, hplants⟩ := placeChildren_expands himp cs h
      exact ⟨e :: es, .cons he hes, by rw [Expansion.plantAll, hplant]; exact hplants⟩

end

/-- An import without error has planted the expansion of its file. -/
theorem importWithin_expands (fuel : Nat) (chain : List Path) :
    (w.importWithin fuel chain).OnlyPlants w := by
  refine importWithin_induction (M := fun directory id expression m => ∀ t t' : RuleTree,
    m.outcome t = .ok ((), t') →
      ∃ e, w.ExpandsFile (directory.resolve expression) e ∧ e.plant w.catalog id t = .ok t')
    (fun _ _ _ _ _ _ h => nomatch h) ?_ fuel chain
  intro importer himp directory id expression s r hpath hread hload t t' h
  obtain ⟨head, cs⟩ := r
  obtain ⟨es, below, hplant⟩ := place_mk_expands h fun _ _ => placeChildren_expands himp cs
  rw [hpath] at hread hplant
  exact ⟨_, .mk ⟨hpath, hread, hload⟩ below, hplant⟩

end Workshop

end DeliveryRules
