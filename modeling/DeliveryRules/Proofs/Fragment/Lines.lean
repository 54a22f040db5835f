import DeliveryRules.Capability.Written
import DeliveryRules.Proofs.Fragment.Accepted
import DeliveryRules.Proofs.Fragment.Includes
import DeliveryRules.Proofs.Pointer.Place
import DeliveryRules.Proofs.Pointer.RoundTrip

/-!
# Lines of what is put into a tree

- **Places** (`Source.Marks`): a provenance that says in which file a part starts, and on which
  line.
- **Documents that are read** (`Source.Reads`): the items of a part are where the indices below it
  lead (`Source.Reads.item`), in the value that is read as in the text.
- **Spliced rules** (`Workshop.Spliced`): a sketch and a list of variables that come from a part of
  a document, position by position, each with the place of what it comes from. A mention stands for
  the file that it leads to, whose rule has the path of this file.
- **Heads** (`Workshop.marksHead_of_uses`) and, by recursion on the expansion, whole rules
  (`Workshop.spliced_of_expands`).
- `Workshop.importFile_spliced`: an import without error has put in a spliced file.
-/

namespace DeliveryRules

namespace Located

/-- The items of the array under a name. -/
def itemsOf (l : Located) (name : String) : List Located := ((l.step? name).map items).getD []

end Located

namespace Source

/-- The place of a part: its file, and the line on which it starts. -/
def Marks (s : Source) (l : Located) (p : Provenance) : Prop :=
  ∃ before, s.text.toList = before ++ l.start ∧ p = .atLine s.path (before.count '\n' + 1)

/-- The text is that of a document in which no name is repeated. It is no longer than texts in
memory are, so all items of its arrays have an index. -/
structure Reads (s : Source) (doc : Located) : Prop where
  read : Json.readLocated s.text = .ok doc
  noRepeats : doc.NoRepeats
  size : s.text.toList.length ≤ Pointer.maxIndex

variable {s : Source} {doc l : Located} {way : List String}

theorem Reads.marks (h : s.Reads doc) (hway : doc.follow? way = some l) :
    s.Marks l (s.provenanceAt way) := by
  obtain ⟨before, hbefore, hlocate, -⟩ := Pointer.locate_follow? h.read hway
  exact ⟨before, hbefore, by rw [provenanceAt, hlocate]⟩

/-- A part is read from what the text goes on with where it starts. -/
theorem Reads.part (h : s.Reads doc) (hway : doc.follow? way = some l) :
    ∃ rest, Json.readValue Json.maxDepth l.start = .ok (l, rest) ∧
      l.start.length ≤ Pointer.maxIndex := by
  obtain ⟨before, hbefore, -, rest, hrest⟩ := Pointer.locate_follow? h.read hway
  refine ⟨rest, hrest, Nat.le_trans ?_ h.size⟩
  rw [hbefore, List.length_append]
  exact Nat.le_add_left _ _

end Source

namespace Located

/-- The items of what is read are the items of its value. -/
theorem items_toJson {depth : Nat} {cs rest : List Char} {l : Located}
    (h : Json.readValue depth cs = .ok (l, rest)) : l.toJson.items = l.items.map toJson := by
  have hvalue := Json.readValue_valueAt h
  generalize Json.skipGaps cs = start at hvalue
  cases hvalue with
  | @word _ _ _ _ j _ _ hj =>
    cases j with
    | array items =>
      obtain rfl := Json.eq_nil_of_items hj
      rfl
    | _ => rfl
  | string _ => rfl
  | array _ =>
    rw [toJson, toJson_ofItems]
    rfl
  | object _ => rfl

end Located

namespace Source

variable {s : Source} {doc l : Located} {way : List String}

/-- Under the name of a list the indices lead to its items. -/
theorem Reads.item (h : s.Reads doc) (hway : doc.follow? way = some l) {name : String} {i : Nat}
    {item : Located} (hitem : (l.itemsOf name)[i]? = some item) :
    doc.follow? (way ++ [name] ++ [toString i]) = some item := by
  rw [Located.itemsOf] at hitem
  cases hstep : l.step? name with
  | none =>
    rw [hstep] at hitem
    cases hitem
  | some k =>
    rw [hstep] at hitem
    have hk := Located.follow?_snoc hway hstep
    obtain ⟨rest, hread, hsize⟩ := h.part hk
    cases k with
    | array start items =>
      have hitems : items[i]? = some item := hitem
      obtain ⟨hlt, -⟩ := List.getElem?_eq_some_iff.mp hitems
      have hcount : items.length ≤ start.length := by
        have hall := Json.countable_of_readValue hread
        rw [Located.toJson, Located.toJson_ofItems, Json.throughout_array] at hall
        simpa [Located.start] using hall.1 _ rfl
      have hle : i ≤ Pointer.maxIndex :=
        Nat.le_trans (Nat.le_of_lt hlt) (Nat.le_trans hcount hsize)
      refine Located.follow?_snoc hk ?_
      rw [Located.step?, Pointer.index?_toString hle, Option.bind_some, hitems]
    | _ => cases hitem

/-- The items under a name are the items in the value. -/
theorem Reads.itemsOf (h : s.Reads doc) (hway : doc.follow? way = some l) {members : Members}
    (hobject : l.toJson = .object members) (name : String) :
    l.toJson.itemsOf name = (l.itemsOf name).map Located.toJson := by
  obtain ⟨rest, hread, -⟩ := h.part hway
  have hmember : l.toJson.member? name = (l.step? name).map Located.toJson := by
    rw [← Pointer.step?_toJson hread (h.noRepeats.follow? hway), hobject]
    rfl
  rw [Json.itemsOf, hmember, Located.itemsOf]
  cases hstep : l.step? name with
  | none => rfl
  | some k =>
    have hk := Located.follow?_snoc hway hstep
    obtain ⟨rest, hread, -⟩ := h.part hk
    exact Located.items_toJson hread

end Source

/-! ## Spliced rules -/

namespace Source

/-- The use of a capability that an entry asks for. It knows the place of the entry. -/
def MarksUse (s : Source) (c : Catalog) (kind : Capability.Kind) (entry : Located) (u : Use) :
    Prop :=
  let said := FragmentEntry.saidBy entry.toJson
  s.Marks entry u.1.provenance ∧ c.use kind said.name said.options u.1.provenance = .ok u

/-- The variable that an entry declares. It knows the place of the entry. -/
def MarksVariable (s : Source) (entry : Located) (v : Variable) : Prop :=
  let said := FragmentVariable.saidBy entry.toJson
  s.Marks entry v.provenance ∧
    v = ⟨said.name, said.description.getD (Variable.foundAt v.provenance), said.hidden,
      said.sensitive, v.provenance⟩

/-- The uses of capabilities in a rule and the variables that it lists, entry by entry. -/
structure MarksHead (s : Source) (c : Catalog) (l : Located) (uses : List Use × List Use)
    (listed : List Variable) : Prop where
  criteria : List.Forall₂ (s.MarksUse c .criteria) (l.itemsOf "criteria") uses.1
  behaviors : List.Forall₂ (s.MarksUse c .behavior) (l.itemsOf "behaviors") uses.2
  declared : List.Forall₂ s.MarksVariable (l.itemsOf "variables") listed

end Source

namespace Workshop

variable {w : Workshop}

mutual

/-- The sketch of a rule and the variables that it declares come from a part of a document. A
variable that a use refers to has the place of this use. -/
inductive Spliced (w : Workshop) : Source → Located → Provenance → Sketch → List Variable → Prop
  | node {s : Source} {l : Located} {p : Provenance} {uses : List Use × List Use}
      {listed : List Variable} {children : List Sketch} {below : List Variable}
      (head : s.MarksHead w.catalog l uses listed)
      (rest : SplicedAll w s (l.itemsOf "children") children below) :
      Spliced w s l p (.node ((FragmentHead.saidBy l.toJson).rule p uses) children)
        (listed ++ uses.1.flatMap Use.found ++ uses.2.flatMap Use.found ++ below)

/-- A child: a rule with the place where it is written, or a mention that stands for the rule of a
file, which has the path of this file. -/
inductive SplicedChild (w : Workshop) : Source → Located → Sketch → List Variable → Prop
  | rule {s : Source} {l : Located} {p : Provenance} {sketch : Sketch} {vs : List Variable}
      (place : s.Marks l p) (spliced : Spliced w s l p sketch vs) : SplicedChild w s l sketch vs
  | mention {s s' : Source} {l doc : Located} {text expression : String} {sketch : Sketch}
      {vs : List Variable} (said : l.toJson = .string text)
      (mentioned : mentioned? text = some expression)
      (path : s'.path = s.directory.resolve expression)
      (read : w.files.read s'.path = .ok s'.text) (document : s'.Reads doc)
      (spliced : Spliced w s' doc (.ofPath s'.path) sketch vs) : SplicedChild w s l sketch vs

inductive SplicedAll (w : Workshop) :
    Source → List Located → List Sketch → List Variable → Prop
  | nil {s : Source} : SplicedAll w s [] [] []
  | cons {s : Source} {l : Located} {ls : List Located} {sketch : Sketch} {sketches : List Sketch}
      {first rest : List Variable} (child : SplicedChild w s l sketch first)
      (others : SplicedAll w s ls sketches rest) :
      SplicedAll w s (l :: ls) (sketch :: sketches) (first ++ rest)

end

/-! ## Heads -/

/-- Items and what the numbers below their list are used for, one after the other. -/
theorem forall₂_zipIdx {α β γ : Type} {R : α × Nat → β → Prop} {S : γ → β → Prop} {f : γ → α}
    {items : List γ} {bs : List β} {n : Nat}
    (h : List.Forall₂ R ((items.map f).zipIdx n) bs)
    (hRS : ∀ i item, items[i]? = some item → ∀ b, R (f item, n + i) b → S item b) :
    List.Forall₂ S items bs := by
  induction items generalizing bs n with
  | nil =>
    cases h
    exact .nil
  | cons item items ih =>
    rw [List.map_cons, List.zipIdx_cons] at h
    cases h with
    | cons first rest =>
      refine .cons (hRS 0 item rfl _ first) (ih rest fun i item hitem b hb => ?_)
      refine hRS (i + 1) item hitem b ?_
      rwa [Nat.add_comm i 1, ← Nat.add_assoc]

section Heads

variable {s : Source} {doc l : Located} {way : List String} {members : Members}

theorem marksUse_of_uses {c : Catalog} {kind : Capability.Kind} {name : String} {us : List Use}
    (hs : s.Reads doc) (hway : doc.follow? way = some l)
    (h : s.uses c kind (way ++ [name])
      ((l.itemsOf name).map fun i => .saidBy i.toJson) = .ok us) :
    List.Forall₂ (s.MarksUse c kind) (l.itemsOf name) us := by
  rw [Source.uses, mapM_eq_ok] at h
  refine forall₂_zipIdx h fun i item hitem u hu => ?_
  obtain ⟨-, -, -, -, -, hp⟩ := Catalog.use_eq_ok hu
  refine ⟨?_, ?_⟩
  · rw [hp, Nat.zero_add]
    exact hs.marks (hs.item hway hitem)
  · rwa [hp]

theorem marksVariable_of_listed {head : FragmentHead} (hs : s.Reads doc)
    (hway : doc.follow? way = some l)
    (hdeclared : head.declared = (l.itemsOf "variables").map fun i => .saidBy i.toJson) :
    List.Forall₂ s.MarksVariable (l.itemsOf "variables") (head.listed s way) := by
  have h : List.Forall₂ (fun (a : FragmentVariable × Nat) b => b = _)
      (head.declared.zipIdx 0) (head.listed s way) :=
    List.forall₂_map_right_iff.mpr (List.forall₂_same.mpr fun _ _ => rfl)
  rw [hdeclared] at h
  refine forall₂_zipIdx h fun i item hitem v hv => ?_
  subst hv
  refine ⟨?_, rfl⟩
  have hplace := hs.marks (hs.item hway hitem)
  rw [Nat.zero_add]
  rwa [List.append_assoc] at hplace

/-- What a head asks for comes from the entries of the object that it was read from. -/
theorem marksHead_of_uses {c : Catalog} {uses : List Use × List Use} (hs : s.Reads doc)
    (hway : doc.follow? way = some l) (hobject : l.toJson = .object members)
    (huses : (FragmentHead.saidBy l.toJson).uses c s way = .ok uses) :
    s.MarksHead c l uses ((FragmentHead.saidBy l.toJson).listed s way) := by
  have hitems (name : String) : l.toJson.itemsOf name = (l.itemsOf name).map Located.toJson :=
    hs.itemsOf hway hobject name
  obtain ⟨criteria, behaviors⟩ := uses
  obtain ⟨hcriteria, hbehaviors⟩ := FragmentHead.uses_eq_ok.mp huses
  simp only [FragmentHead.saidBy, hitems, List.map_map] at hcriteria hbehaviors
  refine ⟨marksUse_of_uses hs hway hcriteria, marksUse_of_uses hs hway hbehaviors,
    marksVariable_of_listed hs hway ?_⟩
  simp only [FragmentHead.saidBy, hitems, List.map_map]
  rfl

end Heads

/-! ## Whole rules -/

/-- The document of a file is checked by `schema`, and no name is repeated in it. Its text is no
longer than texts in memory are. -/
def ChecksBy (w : Workshop) (schema : Schema) (path : Path) : Prop :=
  ∀ text doc, w.files.read path = .ok text → Json.readLocated text = .ok doc →
    w.registry.find? (w.versionOf doc.toJson) = some schema ∧ doc.NoRepeats ∧
      text.toList.length ≤ Pointer.maxIndex

/-- A rule that was loaded is what its document says. -/
theorem Holds.reads {schema : Schema} {path : Path} {s : Source} {r : FragmentRule}
    (hchecks : w.ChecksBy schema path) (hschema : schema = ⟨w.catalog.ruleSchema, .d7⟩)
    (holds : w.Holds path s r) : ∃ doc, s.Reads doc ∧ doc.toJson.SaysRule r := by
  have hload := holds.load_eq
  rw [load] at hload
  cases hread : Json.readLocated s.text with
  | error e =>
    rw [Json.read, hread] at hload
    cases hload
  | ok doc =>
    obtain ⟨hfind, hrepeats, hsize⟩ := hchecks _ _ holds.read_eq hread
    have hread' := Json.read_of_readLocated hread
    rw [hread'] at hload
    simp only [Except.mapError, bind, Except.bind, hfind] at hload
    cases hviolation : schema.violation? doc.toJson with
    | some v =>
      rw [hviolation] at hload
      cases hload
    | none =>
      have hrule := Catalog.violation?_ruleSchema.mp (hschema ▸ hviolation)
      obtain ⟨rule, hdecode, hstated⟩ :=
        FragmentRule.decode_of_isRule hrule (Json.distinct_of_read hread')
      rw [hviolation, hdecode] at hload
      cases hload
      exact ⟨doc, ⟨hread, hrepeats, hsize⟩, hstated⟩

/-- The parts of a document that the numbers below `way` lead to, from `count` on. -/
def Numbered (doc : Located) (way : List String) (count : Nat) (items : List Located) : Prop :=
  ∀ i item, items[i]? = some item → doc.follow? (way ++ [toString (count + i)]) = some item

theorem Numbered.head {doc l : Located} {way : List String} {count : Nat} {ls : List Located}
    (h : Numbered doc way count (l :: ls)) : doc.follow? (way ++ [toString count]) = some l :=
  h 0 l rfl

theorem Numbered.tail {doc l : Located} {way : List String} {count : Nat} {ls : List Located}
    (h : Numbered doc way count (l :: ls)) : Numbered doc way (count + 1) ls := by
  intro i item hitem
  rw [Nat.add_right_comm]
  exact h (i + 1) item hitem

/-- A rule is spliced if the rules below it are. -/
theorem spliced_mk {s : Source} {doc l : Located} {way : List String} {origin : Provenance}
    {head : FragmentHead} {cs : List FragmentChild} {es : List Expansion} {sketch : Sketch}
    {vs : List Variable} (hs : s.Reads doc) (hway : doc.follow? way = some l)
    (hstated : l.toJson.SaysRule (.mk head cs))
    (hsketch : Expansion.sketch w.catalog (.node s way origin head es) = .ok sketch)
    (hvs : Expansion.declarations w.catalog (.node s way origin head es) = .ok vs)
    (hrest : ∀ {ls children below}, Numbered doc (way ++ ["children"]) 0 ls →
      List.Forall₂ (fun l c => l.toJson.SaysChild c) ls cs →
      Expansion.sketchAll w.catalog es = .ok children →
      Expansion.declarationsOfAll w.catalog es = .ok below → w.SplicedAll s ls children below) :
    w.Spliced s l origin sketch vs := by
  rw [Expansion.sketch] at hsketch
  rw [Expansion.declarations] at hvs
  generalize hobject : l.toJson = object at hstated
  cases hstated with
  | mk hitems =>
    rw [← hobject] at hsketch hvs hitems
    rw [hs.itemsOf hway hobject, List.forall₂_map_left_iff] at hitems
    obtain ⟨uses, huses, hsketch⟩ := bind_eq_ok.mp hsketch
    obtain ⟨children, hchildren, rfl⟩ := map_eq_ok.mp hsketch
    rw [huses] at hvs
    obtain ⟨below, hbelow, rfl⟩ := map_eq_ok.mp hvs
    refine .node (marksHead_of_uses hs hway hobject huses)
      (hrest (fun i item hitem => ?_) hitems hchildren hbelow)
    rw [Nat.zero_add]
    exact hs.item hway hitem

section Splicing

variable {schema : Schema} {start : Path}

mutual

/-- What a child becomes is spliced, where all files on chains of includes are checked. -/
theorem spliced_of_expands (hschema : schema = ⟨w.catalog.ruleSchema, .d7⟩)
    (hchecks : ∀ chain path, w.IncludeChain start chain path → w.ChecksBy schema path) :
    ∀ (e : Expansion) {s : Source} {doc l : Located} {way : List String} {c : FragmentChild}
      {sketch : Sketch} {vs : List Variable}, s.Reads doc → doc.follow? way = some l →
      l.toJson.SaysChild c → w.Expands s way c e →
      (∀ expression ∈ FragmentRule.mentionsOf c,
        ∃ chain, w.IncludeChain start chain (s.directory.resolve expression)) →
      e.sketch w.catalog = .ok sketch → e.declarations w.catalog = .ok vs →
      w.SplicedChild s l sketch vs
  | .node s' way' origin head es, s, doc, l, way, c, sketch, vs, hs, hway, hstated, h, hchains,
      hsketch, hvs => by
    generalize hsaid : l.toJson = said at hstated
    cases h with
    | node means below =>
      cases means with
      | rule =>
        cases hstated with
        | rule hstated =>
          rw [← hsaid] at hstated
          refine .rule (hs.marks hway)
            (spliced_mk hs hway hstated hsketch hvs fun hls hcs hb hd => ?_)
          exact splicedAll_of_expandsAll hschema hchecks es hs hls hcs below hchains hb hd
      | @mention text expression _ _ hmentioned holds =>
        cases hstated with
        | mention =>
          obtain ⟨chain, hchain⟩ :=
            hchains expression (by simp [FragmentRule.mentionsOf, hmentioned])
          obtain ⟨doc', hs', hstated⟩ := holds.reads (hchecks _ _ hchain) hschema
          have hpath := holds.path_eq
          refine .mention hsaid hmentioned hpath (hpath ▸ holds.read_eq) hs' ?_
          rw [hpath]
          refine spliced_mk hs' rfl hstated hsketch hvs fun hls hcs hb hd => ?_
          refine splicedAll_of_expandsAll hschema hchecks es hs' hls hcs below ?_ hb hd
          exact fun expression hmem => ⟨_, hchain.step holds hmem⟩

theorem splicedAll_of_expandsAll (hschema : schema = ⟨w.catalog.ruleSchema, .d7⟩)
    (hchecks : ∀ chain path, w.IncludeChain start chain path → w.ChecksBy schema path) :
    ∀ (es : List Expansion) {s : Source} {doc : Located} {ls : List Located} {way : List String}
      {count : Nat} {cs : List FragmentChild} {sketches : List Sketch} {vs : List Variable},
      s.Reads doc → Numbered doc way count ls →
      List.Forall₂ (fun l c => l.toJson.SaysChild c) ls cs → w.ExpandsAll s way count cs es →
      (∀ expression ∈ FragmentRule.mentionsIn cs,
        ∃ chain, w.IncludeChain start chain (s.directory.resolve expression)) →
      Expansion.sketchAll w.catalog es = .ok sketches →
      Expansion.declarationsOfAll w.catalog es = .ok vs → w.SplicedAll s ls sketches vs
  | [], s, doc, ls, way, count, cs, sketches, vs, _, _, hstated, h, _, hsketch, hvs => by
    cases h
    cases hstated
    cases hsketch
    cases hvs
    exact .nil
  | e :: es, s, doc, ls, way, count, cs, sketches, vs, hs, hls, hstated, h, hchains, hsketch,
      hvs => by
    cases h with
    | cons first rest =>
      cases hstated with
      | cons hfirst hrest =>
        rw [Expansion.sketchAll] at hsketch
        rw [Expansion.declarationsOfAll] at hvs
        obtain ⟨sketch, he, hsketch⟩ := bind_eq_ok.mp hsketch
        obtain ⟨sketches, hes, rfl⟩ := map_eq_ok.mp hsketch
        obtain ⟨first', hvs', hvs⟩ := bind_eq_ok.mp hvs
        obtain ⟨rest', hvs'', rfl⟩ := map_eq_ok.mp hvs
        refine .cons (spliced_of_expands hschema hchecks e hs hls.head hfirst first
          (fun x hx => hchains x (List.mem_append_left _ hx)) he hvs') ?_
        exact splicedAll_of_expandsAll hschema hchecks es hs hls.tail hrest rest
          (fun x hx => hchains x (List.mem_append_right _ hx)) hes hvs''

end

end Splicing

/-! ## Imports -/

/-- Where the schema made from the catalog checks all files on chains of includes, an import without
error has put in a rule that comes from the file, with its path. Each rule below it and each use of
a capability has the place in its own file where it starts. The variables that are new to the table
are the first of each name, in the order of the documents; those that were listed have the place of
their entry, those that were found in options that of the use. -/
theorem importFile_spliced {version : String} {r : Registry} {schema : Schema} {directory : Path}
    {expression : String} {parent : RuleId} {t t' : RuleTree}
    (hbuilt : Registry.builtIn w.catalog version = .ok r)
    (hschema : r.find? version = some schema)
    (hchecks : ∀ chain path, w.IncludeChain (directory.resolve expression) chain path →
      w.ChecksBy schema path)
    (ht : t.WellFormed) (hparent : parent < t.size)
    (hrun : (w.importFile directory parent expression).run t = (.ok (), t')) :
    ∃ s doc sketch vs, s.path = directory.resolve expression ∧
      w.files.read s.path = .ok s.text ∧ s.Reads doc ∧
      w.Spliced s doc (.ofPath s.path) sketch vs ∧
      t'.sketchAt parent = (t.sketchAt parent).add sketch ∧
      t'.declared = t.declared ++ (VariableTable.firsts vs).filter (!t.declared.knows ·.name) := by
  have hruleSchema := Registry.eq_of_find?_builtIn hbuilt hschema
  obtain ⟨e, hfile, hplant⟩ := importWithin_expands _ _ _ _ _ _ _ (Build.outcome_eq_ok.mpr hrun)
  obtain ⟨vs, hvs, hdeclared⟩ := e.plant_declared hplant
  have hsketch := e.plant_sketch ht hparent (c := w.catalog)
  cases hfile with
  | @mk s head cs es holds below =>
    cases he : Expansion.sketch w.catalog (.node s [] _ head es) with
    | error error =>
      rw [he] at hsketch
      cases hplant.symm.trans hsketch
    | ok sketch =>
      rw [he] at hsketch
      obtain ⟨t'', hplant', -, hadd⟩ := hsketch
      obtain rfl := Except.ok.inj (hplant.symm.trans hplant')
      obtain ⟨doc, hs, hstated⟩ := holds.reads (hchecks _ _ .start) hruleSchema
      have hpath := holds.path_eq
      refine ⟨s, doc, sketch, vs, hpath, hpath ▸ holds.read_eq, hs, ?_, hadd, ?_⟩
      · rw [hpath]
        refine spliced_mk hs rfl hstated he hvs fun hls hcs hb hd => ?_
        refine splicedAll_of_expandsAll hruleSchema hchecks es hs hls hcs below ?_ hb hd
        exact fun expression' hmem => ⟨_, IncludeChain.start.step holds hmem⟩
      · rw [hdeclared, VariableTable.declareAll_eq]

/-- A text that is checked by the schema of the workshop, and repeats no name. -/
def isClean (text : String) : Bool :=
  match Json.readLocated text with
  | .error _ => true
  | .ok doc => decide (doc.toJson.memberString? "ruleFormat" = none ∧ doc.NoRepeats ∧
      text.toList.length ≤ Pointer.maxIndex)

/-- A workshop with the built-in schema and a few files. -/
def withFiles (c : Catalog) (r : Registry) (texts : List (String × String)) : Workshop :=
  ⟨c, r, .ofTexts texts, defaultRuleFormat, 80⟩

theorem checksBy_withFiles {c : Catalog} {r : Registry} {texts : List (String × String)}
    {schema : Schema} (hschema : r.find? defaultRuleFormat = some schema)
    (hclean : texts.all fun t => isClean t.2) (path : Path) :
    (withFiles c r texts).ChecksBy schema path := by
  intro text doc hread hdoc
  have hmem : (path.text, text) ∈ texts := Files.mem_of_read_ofTexts hread
  have h := List.all_eq_true.mp hclean _ hmem
  simp only [isClean, hdoc, decide_eq_true_eq] at h
  obtain ⟨hunnamed, hrepeats, hsize⟩ := h
  refine ⟨?_, hrepeats, hsize⟩
  rw [versionOf, hunnamed]
  exact hschema

/-- An import into an empty tree, with the sample catalog. -/
structure Imports (texts : List (String × String)) (expression : String) (c : Catalog)
    (r : Registry) (schema : Schema) (t : RuleTree) : Prop where
  sampled : Catalog.sample = .ok c
  built : Registry.builtIn c defaultRuleFormat = .ok r
  found : r.find? defaultRuleFormat = some schema
  clean : texts.all fun file => isClean file.2
  run : ((withFiles c r texts).importFile ⟨"rules"⟩ RuleTree.rootId expression).run (.ofRoot {}) =
    (.ok (), t)

/-- What `Imports` asks for, by evaluation. -/
def importOf? (texts : List (String × String)) (expression : String) : Option RuleTree :=
  Catalog.sample.toOption.bind fun c =>
    (Registry.builtIn c defaultRuleFormat).toOption.bind fun r =>
      (r.find? defaultRuleFormat).bind fun _ =>
        let result :=
          ((withFiles c r texts).importFile ⟨"rules"⟩ RuleTree.rootId expression).run (.ofRoot {})
        if result.1.isOk ∧ texts.all fun file => isClean file.2 then some result.2 else none

theorem imports_of_importOf? {texts : List (String × String)} {expression : String} {t : RuleTree}
    (h : importOf? texts expression = some t) :
    ∃ c r schema, Imports texts expression c r schema t := by
  obtain ⟨c, hc, h⟩ := Option.bind_eq_some_iff.mp h
  obtain ⟨r, hr, h⟩ := Option.bind_eq_some_iff.mp h
  obtain ⟨schema, hschema, h⟩ := Option.bind_eq_some_iff.mp h
  obtain ⟨⟨hok, hclean⟩, ht⟩ := Option.ite_none_right_eq_some.mp h
  exact ⟨c, r, schema, eq_ok_of_toOption hc, eq_ok_of_toOption hr, hschema, hclean,
    Prod.ext (eq_ok_of_isOk hok) (Option.some.inj ht)⟩

/-- A file with a variable, a rule inside it and the mention of a second file, which uses a
capability with a variable. -/
def twoFiles : List (String × String) := [
  ("rules/top.json", "\x7b\n  \"variables\": [\x7b\"name\": \"v\"\x7d],\n  \"children\": [\n" ++
    "    \x7b\"name\": \"inline\"\x7d,\n    \"#include:sub/leaf.json\"\n  ]\n\x7d"),
  ("rules/sub/leaf.json", "\x7b\"criteria\": [\n" ++
    "  \x7b\"name\": \"matchVariable\", \"options\": \x7b\"variableName\": \"found\"\x7d\x7d]\x7d")]

/-- The places of the rules and of the variables of a tree. -/
def places (t : RuleTree) : List (Option String) × List (String × String) :=
  (t.nodes.map fun n => n.rule.provenance.map (·.text),
    t.declared.map fun v => (v.name, v.provenance.text))

set_option maxRecDepth 20000 in
theorem importFile_spliced_twoFiles :
    ∃ c r schema t, Imports twoFiles "top.json" c r schema t ∧
      places t =
        ([none, some "rules/top.json", some "rules/top.json:4", some "rules/sub/leaf.json"],
          [("v", "rules/top.json:2"), ("found", "rules/sub/leaf.json:2")]) ∧
      ∃ s doc sketch vs, s.path = Path.resolve ⟨"rules"⟩ "top.json" ∧ s.Reads doc ∧
        (withFiles c r twoFiles).Spliced s doc (.ofPath s.path) sketch vs ∧
        t.sketchAt RuleTree.rootId =
          ((RuleTree.ofRoot {}).sketchAt RuleTree.rootId).add sketch := by
  have hok : (importOf? twoFiles "top.json").any (fun t => places t =
      ([none, some "rules/top.json", some "rules/top.json:4", some "rules/sub/leaf.json"],
        [("v", "rules/top.json:2"), ("found", "rules/sub/leaf.json:2")])) = true := by
    decide +kernel
  obtain ⟨t, ht, hplaces⟩ := (Option.any_eq_true _ _).mp hok
  obtain ⟨c, r, schema, h⟩ := imports_of_importOf? ht
  obtain ⟨s, doc, sketch, vs, hpath, -, hs, hspliced, hsketch, -⟩ :=
    importFile_spliced (w := withFiles c r twoFiles) h.built h.found
      (fun _ path _ => checksBy_withFiles h.found h.clean path) (RuleTree.wellFormed_ofRoot rfl)
      (by decide) h.run
  exact ⟨c, r, schema, t, h, of_decide_eq_true hplaces, s, doc, sketch, vs, hpath, hs, hspliced,
    hsketch⟩

/-- A file whose name has a backslash, with a rule inside it. -/
def backslashed : List (String × String) :=
  [("rules/a\\b.json", "\x7b\"children\": [\n  \x7b\x7d]\x7d")]

set_option maxRecDepth 20000 in
/-- Where the path of a file has a backslash, places in this file have a slash instead. -/
theorem importFile_spliced_backslash :
    ∃ c r schema t, Imports backslashed "a\\b.json" c r schema t ∧
      Path.resolve ⟨"rules"⟩ "a\\b.json" = ⟨"rules/a\\b.json"⟩ ∧
      places t = ([none, some "rules/a/b.json", some "rules/a/b.json:2"], []) := by
  have hok : (importOf? backslashed "a\\b.json").any (fun t => places t =
      ([none, some "rules/a/b.json", some "rules/a/b.json:2"], [])) = true := by decide +kernel
  obtain ⟨t, ht, hplaces⟩ := (Option.any_eq_true _ _).mp hok
  obtain ⟨c, r, schema, h⟩ := imports_of_importOf? ht
  exact ⟨c, r, schema, t, h, by decide +kernel, of_decide_eq_true hplaces⟩

end Workshop

end DeliveryRules
