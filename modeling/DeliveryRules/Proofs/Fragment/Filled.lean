import DeliveryRules.Proofs.Fragment.Accepted
import DeliveryRules.Proofs.Fragment.Includes
import DeliveryRules.Proofs.Fragment.Registered
import DeliveryRules.Proofs.Fragment.Written

/-!
# Options and names that come from accepted fragments

The schema of fragments sees options before they are laid over defaults, and it sees no names of
variables but those that are listed.

- **Uses** (`Catalog.Fills`): the options of a use are the defaults, or accepted options over them
  (`Grammar.IsEntry.fills`).
- **Names** (`Catalog.ListsEmptyName`): an empty name of a variable can only come from an option
  that is a list of names (`Descriptor.listed_of_references`).
- **Trees** (`RuleTree.Filled`): what this comes to for all uses and variables of a tree. Planting
  an expansion whose heads were accepted keeps it (`Expansion.plant_filled`).
- `Workshop.importFile_filled`: so does an import, where all files on chains of includes are
  accepted.
-/

namespace DeliveryRules

/-! ## Uses -/

namespace Catalog

/-- The options of the use are the defaults of its descriptor, or options that the option schema
accepts, laid over the defaults. -/
def Fills (c : Catalog) (kind : Capability.Kind) (use : Capability) : Prop :=
  ∃ d, c.find? kind use.name = some d ∧
    (use.options = d.defaults ∨
      ∃ given, c.AcceptsOptions d (.object given) ∧ use.options = Members.merge d.defaults given)

/-- An option of the use that is a list of names has an empty one. -/
def ListsEmptyName (c : Catalog) (kind : Capability.Kind) (use : Capability) : Prop :=
  ∃ d option items, c.find? kind use.name = some d ∧ option ∈ d.variableHandling.lists ∧
    Members.get? use.options option = some (.array items) ∧ Json.string "" ∈ items

theorem mem_of_find? {c : Catalog} {kind : Capability.Kind} {name : String} {d : Descriptor}
    (h : c.find? kind name = some d) : d ∈ c.descriptors kind ∧ d.name = name := by
  unfold find? at h
  exact ⟨List.mem_of_find?_eq_some h, by simpa using List.find?_some h⟩

end Catalog

/-- What an accepted entry asks for is granted with its options over the defaults. -/
theorem Grammar.IsEntry.fills {c : Catalog} {kind : Capability.Kind} {j : Json}
    (h : IsEntry c kind j) {p : Provenance} {u : Use}
    (huse : c.use kind (FragmentEntry.saidBy j).name (FragmentEntry.saidBy j).options p = .ok u) :
    c.Fills kind u.1 := by
  obtain ⟨d, hd, hresolve, -, hname, -⟩ := Catalog.use_eq_ok huse
  obtain ⟨hmem, hdname⟩ := Catalog.mem_of_find? hd
  refine ⟨d, hname ▸ hd, ?_⟩
  rcases Descriptor.resolve_eq_ok hresolve with ⟨-, hdefaults⟩ | ⟨given, hgiven, hmerge⟩
  · exact .inl hdefaults
  · refine .inr ⟨given, ?_, hmerge⟩
    have hobject := h
    cases hobject with
    | @object members _ _ hoptions =>
      obtain ⟨text, hget, -⟩ := h.get?_name
      rw [FragmentEntry.name_saidBy hget] at hdname
      refine hoptions d hmem (hdname ▸ hget) _ ?_
      have hsaid : (FragmentEntry.saidBy (.object members)).options =
          (Members.get? members "options").getD .null := rfl
      rw [hsaid] at hgiven
      cases hstated : Members.get? members "options" with
      | none =>
        rw [hstated] at hgiven
        cases hgiven
      | some value =>
        rw [hstated] at hgiven
        exact congrArg some hgiven

/-! ## Names -/

theorem ne_empty_of_inlineReferences {cs : List Char} {name : String}
    (h : name ∈ inlineReferences cs) : name ≠ "" := by
  rw [inlineReferences_eq_everyReference] at h
  induction cs with
  | nil => cases h
  | cons ch cs ih =>
    rcases List.mem_append.mp h with h | h
    · obtain ⟨found, hfound, rfl⟩ := Option.map_eq_some_iff.mp (Option.mem_toList.mp h)
      exact fun heq => (referenceHere?_eq_some.mp hfound).1 (String.ofList_eq_empty_iff.mp heq)
    · exact ih h

/-- An empty name comes from a list of names. -/
theorem Descriptor.listed_of_references {d : Descriptor} {options : Members} {names : List String}
    (h : d.references options = .ok names) (hempty : "" ∈ names) :
    ∃ option ∈ d.variableHandling.lists, ∃ items,
      Members.get? options option = some (.array items) ∧ Json.string "" ∈ items := by
  rw [references_eq] at h
  cases hfirst : (d.misfits options).head? with
  | some m =>
    rw [hfirst] at h
    cases h
  | none =>
    rw [hfirst] at h
    cases h
    rcases List.mem_append.mp hempty with hempty | hinline
    · rcases List.mem_append.mp hempty with hempty | hlisted
      · obtain ⟨option, -, hgiven⟩ := List.mem_filterMap.mp hempty
        exact absurd rfl (of_decide_eq_true (Option.filter_eq_some_iff.mp hgiven).2)
      · obtain ⟨option, hoption, hname⟩ := List.mem_flatMap.mp hlisted
        unfold listedNames at hname
        split at hname
        · rename_i items hget
          obtain ⟨item, hitem, hstring⟩ := List.mem_filterMap.mp hname
          cases item <;> cases hstring
          exact ⟨option, hoption, items, hget, hitem⟩
        · cases hname
    · obtain ⟨option, -, hname⟩ := List.mem_flatMap.mp hinline
      obtain ⟨text, -, hname⟩ := List.mem_flatMap.mp hname
      exact absurd rfl (ne_empty_of_inlineReferences hname)

/-- A variable that a use refers to has a name, unless an option of the use lists an empty one. -/
theorem Catalog.ne_empty_of_found {c : Catalog} {kind : Capability.Kind} {name : String}
    {given : Json} {p : Provenance} {u : Use} (h : c.use kind name given p = .ok u) {v : Variable}
    (hv : v ∈ Use.found u) : v.name ≠ "" ∨ c.ListsEmptyName kind u.1 := by
  obtain ⟨d, hd, -, hnames, hname, -⟩ := use_eq_ok h
  obtain ⟨found, hfound, rfl⟩ := List.mem_map.mp hv
  by_cases hempty : found = ""
  · subst hempty
    obtain ⟨option, hmem, items, hget, hitem⟩ := Descriptor.listed_of_references hnames hfound
    exact .inr ⟨d, option, items, hname ▸ hd, hmem, hget, hitem⟩
  · exact .inl hempty

/-! ## Heads -/

/-- The head is what an accepted rule says of itself. -/
def FragmentHead.IsAccepted (c : Catalog) (head : FragmentHead) : Prop :=
  ∃ j, Grammar.IsRule c j ∧ head = .saidBy j

theorem Grammar.IsVariable.ne_empty {j : Json} (h : IsVariable j) :
    (FragmentVariable.saidBy j).name ≠ "" := by
  cases h with
  | @object members hmembers hhas =>
    obtain ⟨value, hget⟩ := Members.has_iff.mp hhas
    rw [FragmentVariable.saidBy, Json.memberString?, Json.member?, Json.asObject?,
      Option.bind_some, hget]
    generalize hfield : "name" = field at hget
    cases hmembers _ (Members.mem_of_get? hget) with
    | name hne => exact hne
    | text hmem => simp [← hfield] at hmem
    | flag hmem => simp [← hfield] at hmem

theorem Grammar.IsRuleMember.isVariable {c : Catalog} {j : Json}
    (h : IsRuleMember c "variables" j) : ∀ i ∈ j.items, IsVariable i := by
  generalize hname : "variables" = name at h
  cases h with
  | declarations hitems => exact hitems
  | text => exact fun _ h => absurd h List.not_mem_nil
  | matchPolicy => exact fun _ h => absurd h List.not_mem_nil
  | _ => exact absurd hname (by decide)

/-- The uses of one kind that a head asks for. -/
def FragmentHead.usesOf (uses : List Use × List Use) : Capability.Kind → List Use
  | .criteria => uses.1
  | .behavior => uses.2

theorem FragmentHead.uses_rule (head : FragmentHead) (p : Provenance) (uses : List Use × List Use)
    (kind : Capability.Kind) : (head.rule p uses).uses kind = (usesOf uses kind).map (·.1) := by
  cases kind <;> rfl

theorem Source.granted_of_uses {c : Catalog} {s : Source} {kind : Capability.Kind}
    {way : List String} {entries : List FragmentEntry} {us : List Use}
    (h : s.uses c kind way entries = .ok us) {u : Use} (hu : u ∈ us) :
    ∃ e ∈ entries, ∃ p, c.use kind e.name e.options p = .ok u := by
  obtain ⟨⟨e, i⟩, hmem, huse⟩ := exists_of_mem_mapM h hu
  exact ⟨e, List.fst_mem_of_mem_zipIdx hmem, _, huse⟩

namespace FragmentHead.IsAccepted

variable {c : Catalog} {head : FragmentHead} {s : Source} {way : List String}
  {uses : List Use × List Use}

/-- What an accepted head asks for was granted for accepted entries. -/
theorem granted (h : head.IsAccepted c) (huses : head.uses c s way = .ok uses)
    {kind : Capability.Kind} {u : Use} (hu : u ∈ usesOf uses kind) :
    ∃ i p, Grammar.IsEntry c kind i ∧
      c.use kind (FragmentEntry.saidBy i).name (FragmentEntry.saidBy i).options p = .ok u := by
  obtain ⟨j, hrule, rfl⟩ := h
  obtain ⟨criteria, behaviors⟩ := uses
  obtain ⟨hcriteria, hbehaviors⟩ := uses_eq_ok.mp huses
  have hentry : ∃ e ∈ (saidBy j).entries kind, ∃ p, c.use kind e.name e.options p = .ok u := by
    cases kind with
    | criteria => exact Source.granted_of_uses hcriteria hu
    | behavior => exact Source.granted_of_uses hbehaviors hu
  obtain ⟨e, he, p, huse⟩ := hentry
  obtain ⟨i, hi, rfl⟩ := hrule.entries_saidBy he
  exact ⟨i, p, hi, huse⟩

theorem fills (h : head.IsAccepted c) (huses : head.uses c s way = .ok uses) {p : Provenance}
    {kind : Capability.Kind} {use : Capability} (hmem : use ∈ (head.rule p uses).uses kind) :
    c.Fills kind use := by
  rw [uses_rule] at hmem
  obtain ⟨u, hu, rfl⟩ := List.mem_map.mp hmem
  obtain ⟨i, p', hi, huse⟩ := h.granted huses hu
  exact hi.fills huse

/-- Variables are listed with names. -/
theorem ne_empty_of_listed (h : head.IsAccepted c) {v : Variable} (hv : v ∈ head.listed s way) :
    v.name ≠ "" := by
  obtain ⟨j, hrule, rfl⟩ := h
  obtain ⟨⟨said, i⟩, hmem, rfl⟩ := List.mem_map.mp hv
  obtain ⟨item, hitem, rfl⟩ := List.mem_map.mp (List.fst_mem_of_mem_zipIdx hmem)
  exact (hrule.itemsOf (fun _ hvalue => hvalue.isVariable) item hitem).ne_empty

/-- The variables that an accepted head declares have names, but for those that options list as
empty ones. -/
theorem ne_empty_of_declarations (h : head.IsAccepted c) (huses : head.uses c s way = .ok uses)
    (p : Provenance) {v : Variable} (hv : v ∈ head.declarations s way uses) :
    v.name ≠ "" ∨ ∃ kind, ∃ use ∈ (head.rule p uses).uses kind, c.ListsEmptyName kind use := by
  have hfound (kind : Capability.Kind) (hv : v ∈ (usesOf uses kind).flatMap Use.found) :
      v.name ≠ "" ∨ ∃ kind, ∃ use ∈ (head.rule p uses).uses kind, c.ListsEmptyName kind use := by
    obtain ⟨u, hu, hv⟩ := List.mem_flatMap.mp hv
    obtain ⟨i, p', -, huse⟩ := h.granted huses hu
    refine (Catalog.ne_empty_of_found huse hv).imp id fun hempty => ?_
    refine ⟨kind, u.1, ?_, hempty⟩
    rw [uses_rule]
    exact List.mem_map_of_mem hu
  rcases List.mem_append.mp hv with hv | hv
  · rcases List.mem_append.mp hv with hv | hv
    · exact .inl (h.ne_empty_of_listed hv)
    · exact hfound .criteria hv
  · exact hfound .behavior hv

end FragmentHead.IsAccepted

/-! ## Trees -/

namespace RuleTree

/-- The capability is used on a rule of the tree. -/
def HasUse (t : RuleTree) (kind : Capability.Kind) (use : Capability) : Prop :=
  ∃ id < t.size, use ∈ (t.ruleAt id).uses kind

theorem hasUse_insert {t : RuleTree} {parent : RuleId} {r : Rule} {kind : Capability.Kind}
    {use : Capability} :
    (t.insert parent r).HasUse kind use ↔ t.HasUse kind use ∨ use ∈ r.uses kind := by
  unfold HasUse
  simp only [size_insert, ruleAt_insert]
  constructor
  · rintro ⟨id, hid, huse⟩
    split at huse
    · exact .inr huse
    · exact .inl ⟨id, by omega, huse⟩
  · rintro (⟨id, hid, huse⟩ | huse)
    · exact ⟨id, by omega, by rwa [if_neg (Nat.ne_of_lt hid)]⟩
    · exact ⟨t.size, Nat.lt_succ_self _, by rwa [if_pos rfl]⟩

/-- The uses have the options of accepted entries over their defaults, and the variables have names
but for those that options list as empty ones. -/
structure Filled (c : Catalog) (t : RuleTree) : Prop where
  uses : ∀ kind use, t.HasUse kind use → c.Fills kind use
  names : ∀ v ∈ t.declared,
    v.name ≠ "" ∨ ∃ kind use, t.HasUse kind use ∧ c.ListsEmptyName kind use

variable {c : Catalog} {t : RuleTree}

theorem filled_ofRoot {root : Rule} (hcriteria : root.criteria = [])
    (hbehaviors : root.behaviors = []) : (ofRoot root).Filled c where
  uses kind use h := by
    obtain ⟨id, hid, huse⟩ := h
    obtain rfl : id = rootId := Nat.lt_one_iff.mp hid
    have hnone : root.uses kind = [] := by cases kind <;> assumption
    change use ∈ root.uses kind at huse
    rw [hnone] at huse
    cases huse
  names v hv := by cases hv

/-- To put in the rule of an accepted head, with its declarations, keeps a tree filled. -/
theorem Filled.insert (ht : t.Filled c) {head : FragmentHead} (h : head.IsAccepted c) {s : Source}
    {way : List String} {uses : List Use × List Use} (huses : head.uses c s way = .ok uses)
    (parent : RuleId) (p : Provenance) :
    ((t.insert parent (head.rule p uses)).declareAll (head.declarations s way uses)).Filled c where
  uses kind use huse := by
    rcases hasUse_insert.mp huse with hold | hnew
    · exact ht.uses kind use hold
    · exact h.fills huses hnew
  names v hv := by
    rcases VariableTable.mem_of_mem_declareAll hv with hold | hnew
    · refine (ht.names v hold).imp id fun ⟨kind, use, huse, hempty⟩ => ?_
      exact ⟨kind, use, hasUse_insert.mpr (.inl huse), hempty⟩
    · refine (h.ne_empty_of_declarations huses p hnew).imp id fun ⟨kind, use, huse, hempty⟩ => ?_
      exact ⟨kind, use, hasUse_insert.mpr (.inr huse), hempty⟩

end RuleTree

/-! ## Expansions -/

namespace Expansion

mutual

/-- What the rules of an expansion say of themselves. -/
def heads : Expansion → List FragmentHead
  | .node _ _ _ head es => head :: headsOfAll es

def headsOfAll : List Expansion → List FragmentHead
  | [] => []
  | e :: es => heads e ++ headsOfAll es

end

variable {c : Catalog}

mutual

/-- To plant an expansion with accepted heads keeps a tree filled. -/
theorem plant_filled : ∀ (e : Expansion) {parent : RuleId} {t t' : RuleTree},
    (∀ head ∈ e.heads, head.IsAccepted c) → t.Filled c → e.plant c parent t = .ok t' → t'.Filled c
  | .node s way origin head es, parent, t, t', hheads, ht, hplant => by
    rw [heads, List.forall_mem_cons] at hheads
    obtain ⟨uses, huses, hplant⟩ := bind_eq_ok.mp hplant
    exact plantAll_filled es hheads.2 (ht.insert hheads.1 huses parent origin) hplant

theorem plantAll_filled : ∀ (es : List Expansion) {id : RuleId} {t t' : RuleTree},
    (∀ head ∈ headsOfAll es, head.IsAccepted c) → t.Filled c → plantAll c es id t = .ok t' →
      t'.Filled c
  | [], _, t, t', _, ht, hplant => by
    cases hplant
    exact ht
  | e :: es, id, t, t', hheads, ht, hplant => by
    rw [headsOfAll, List.forall_mem_append] at hheads
    obtain ⟨t₁, hfirst, hrest⟩ := bind_eq_ok.mp hplant
    exact plantAll_filled es hheads.2 (plant_filled e hheads.1 ht hfirst) hrest

end

end Expansion

namespace Workshop

variable {w : Workshop} {start : Path}

/-- The document of a file is accepted by the schema made from the catalog. -/
def Accepts (w : Workshop) (schema : Schema) (path : Path) : Prop :=
  ∀ text document, w.files.read path = .ok text → Json.read text = .ok document →
    schema.violation? document = none

/-- What was loaded of an accepted document is what the document says. -/
theorem Holds.says {path : Path} {s : Source} {r : FragmentRule} (holds : w.Holds path s r)
    (haccepts : w.Accepts ⟨w.catalog.ruleSchema, .d7⟩ path) :
    ∃ document, Grammar.IsRule w.catalog document ∧ document.SaysRule r := by
  obtain ⟨document, hread, hload⟩ := bind_eq_ok.mp holds.load_eq
  have hread := mapError_eq_ok.mp hread
  have hrule := Catalog.violation?_ruleSchema.mp (haccepts _ _ holds.read_eq hread)
  obtain ⟨rule, hdecode, hstated⟩ :=
    FragmentRule.decode_of_isRule hrule (Json.distinct_of_read hread)
  refine ⟨document, hrule, ?_⟩
  simp only at hload
  split at hload
  · cases hload
  · split at hload
    · cases hload
    · rw [hdecode] at hload
      cases hload
      exact hstated

/-- What a rule says of itself is accepted, and so are its children. -/
theorem isAccepted_of_saysRule {c : Catalog} {j : Json} {head : FragmentHead}
    {cs : List FragmentChild} (hstated : j.SaysRule (.mk head cs)) (hrule : Grammar.IsRule c j) :
    head.IsAccepted c ∧ ∃ items, List.Forall₂ Json.SaysChild items cs ∧
      ∀ i ∈ items, Grammar.IsChild c i := by
  cases hstated with
  | mk below =>
    exact ⟨⟨_, hrule, rfl⟩, _, below, hrule.itemsOf fun _ hvalue => hvalue.items.2.2 rfl⟩

mutual

/-- The heads of what a child becomes are accepted, where all files on chains of includes are. -/
theorem heads_of_expands
    (haccepts : ∀ chain path, w.IncludeChain start chain path →
      w.Accepts ⟨w.catalog.ruleSchema, .d7⟩ path) :
    ∀ (e : Expansion) {s : Source} {way : List String} {child : FragmentChild} {j : Json},
      j.SaysChild child → Grammar.IsChild w.catalog j → w.Expands s way child e →
      (∀ expression ∈ FragmentRule.mentionsOf child,
        ∃ chain, w.IncludeChain start chain (s.directory.resolve expression)) →
      ∀ head ∈ e.heads, head.IsAccepted w.catalog
  | .node s' way' origin head es, s, way, child, j, hstated, hchild, h, hchains => by
    rw [Expansion.heads, List.forall_mem_cons]
    cases h with
    | node means below =>
      cases means with
      | rule =>
        cases hstated with
        | rule hstated =>
          cases hchild with
          | mention _ => cases hstated
          | rule hrule =>
            obtain ⟨hhead, items, hitems, hchildren⟩ := isAccepted_of_saysRule hstated hrule
            exact ⟨hhead, headsOfAll_of_expandsAll haccepts es hitems hchildren below hchains⟩
      | @mention text expression _ _ hmentioned holds =>
        obtain ⟨chain, hchain⟩ :=
          hchains expression (by simp [FragmentRule.mentionsOf, hmentioned])
        obtain ⟨document, hrule, hstated⟩ := holds.says (haccepts _ _ hchain)
        obtain ⟨hhead, items, hitems, hchildren⟩ := isAccepted_of_saysRule hstated hrule
        exact ⟨hhead, headsOfAll_of_expandsAll haccepts es hitems hchildren below
          fun expression' hmem => ⟨_, hchain.step holds hmem⟩⟩

theorem headsOfAll_of_expandsAll
    (haccepts : ∀ chain path, w.IncludeChain start chain path →
      w.Accepts ⟨w.catalog.ruleSchema, .d7⟩ path) :
    ∀ (es : List Expansion) {s : Source} {way : List String} {count : Nat}
      {cs : List FragmentChild} {items : List Json},
      List.Forall₂ Json.SaysChild items cs → (∀ i ∈ items, Grammar.IsChild w.catalog i) →
      w.ExpandsAll s way count cs es →
      (∀ expression ∈ FragmentRule.mentionsIn cs,
        ∃ chain, w.IncludeChain start chain (s.directory.resolve expression)) →
      ∀ head ∈ Expansion.headsOfAll es, head.IsAccepted w.catalog
  | [], s, way, count, cs, items, hstated, hitems, h, hchains =>
    fun _ h => absurd h List.not_mem_nil
  | e :: es, s, way, count, cs, items, hstated, hitems, h, hchains => by
    rw [Expansion.headsOfAll, List.forall_mem_append]
    cases h with
    | cons first rest =>
      cases hstated with
      | cons hfirst hrest =>
        rw [List.forall_mem_cons] at hitems
        constructor
        · exact heads_of_expands haccepts e hfirst hitems.1 first
            fun x hx => hchains x (List.mem_append_left _ hx)
        · exact headsOfAll_of_expandsAll haccepts es hrest hitems.2 rest
            fun x hx => hchains x (List.mem_append_right _ hx)

end

/-- An import without an error keeps a tree filled, where all files on chains of includes are
accepted. -/
theorem importFile_filled {directory : Path} {expression : String} {parent : RuleId}
    {t t' : RuleTree}
    (haccepts : ∀ chain path, w.IncludeChain (directory.resolve expression) chain path →
      w.Accepts ⟨w.catalog.ruleSchema, .d7⟩ path)
    (ht : t.Filled w.catalog)
    (himport : (w.importFile directory parent expression).outcome t = .ok ((), t')) :
    t'.Filled w.catalog := by
  obtain ⟨e, hfile, hplant⟩ := importWithin_expands _ _ _ _ _ _ _ himport
  refine e.plant_filled ?_ ht hplant
  cases hfile with
  | mk holds below =>
    obtain ⟨document, hrule, hstated⟩ := holds.says (haccepts _ _ .start)
    obtain ⟨hhead, items, hitems, hchildren⟩ := isAccepted_of_saysRule hstated hrule
    rw [Expansion.heads, List.forall_mem_cons]
    exact ⟨hhead, headsOfAll_of_expandsAll haccepts _ hitems hchildren below
      fun expression' hmem => ⟨_, IncludeChain.start.step holds hmem⟩⟩

end Workshop

end DeliveryRules
