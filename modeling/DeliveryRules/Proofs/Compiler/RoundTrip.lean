import DeliveryRules.Proofs.Compiler.Provenance
import DeliveryRules.Proofs.Compiler.Variables
import DeliveryRules.Proofs.Fragment.Acceptance
import DeliveryRules.Proofs.Fragment.Includes
import DeliveryRules.Proofs.Fragment.Written
import DeliveryRules.Proofs.Rule.Links
import Mathlib.Data.List.Permutation

/-!
# Documents that are read again

A document is a fragment like any other, so it can be imported.

- **Copies** (`Sketch.Restores`): rules that are called the same and use the same capabilities, with
  the same rules below them. Where a rule came from and its comment may differ.
- **Uses** (`FragmentHead.uses_again`): the uses on a rule were granted once, so they are granted
  again and refer to nothing that is not declared.
- **Rules** (`RuleTree.expands_again`): what is written for a rule expands into a copy of it, by
  induction over the children.
- **Variables** (`content_declareAll`): the root lists all variables, so those that are referred to
  below are known when they are met.
- `Compiler.compile_roundTrip`: a tree that takes in a document takes in a copy of the tree that the
  document is of.
-/

namespace DeliveryRules

/-! ## Copies of rules -/

/-- What a use of a capability says, apart from where it is from. -/
def Capability.content (use : Capability) : String × Members := (use.name, use.options)

/-- What a declaration says, apart from where it is from. -/
def Variable.content (v : Variable) : String × String × Bool × Bool :=
  (v.name, v.description, v.hidden, v.sensitive)

/-- The other rule is called the same and has the same policy and the same uses of capabilities in
the same order. -/
structure Rule.Restores (r r' : Rule) : Prop where
  label_eq : r'.label = r.label
  policy_eq : r'.policy = r.policy
  uses_eq : ∀ kind, (r'.uses kind).map Capability.content = (r.uses kind).map Capability.content

/-- Rule for rule, the other sketch restores this one. -/
inductive Sketch.Restores : Sketch → Sketch → Prop
  | node {r r' : Rule} {children children' : List Sketch} (rule : r.Restores r')
      (below : List.Forall₂ Restores children children') :
      Restores (.node r children) (.node r' children')

/-! ## Parts of what was written -/

theorem Json.throughout_itemsOf {P : Json → Prop} {j : Json} (h : j.Throughout P) (name : String) :
    ∀ i ∈ j.itemsOf name, i.Throughout P := by
  intro i hi
  cases j with
  | object members =>
    rw [itemsOf, member?, asObject?, Option.bind_some] at hi
    cases hget : Members.get? members name with
    | none =>
      rw [hget] at hi
      cases hi
    | some value =>
      rw [hget] at hi
      have hvalue := (throughout_object.mp h).2 _ (Members.mem_of_get? hget)
      cases value with
      | array items => exact (throughout_array.mp hvalue).2 i hi
      | _ => cases hi
  | _ => cases hi

/-- A use that was written down in a value without repeated names has options without repeated
names. -/
theorem nodup_options {r : Rule} {declared children : List Json}
    (h : (Json.object (r.toMembers declared children)).Throughout Json.Distinct)
    {kind : Capability.Kind} {use : Capability} (huse : use ∈ r.uses kind) :
    (use.options.map (·.1)).Nodup := by
  have hitem : use.toJson.Throughout Json.Distinct := by
    refine Json.throughout_itemsOf h kind.member _ ?_
    rw [itemsOf_toMembers_uses]
    exact List.mem_map_of_mem huse
  have hoptions := (Json.throughout_object.mp hitem).2 ("options", .object use.options) (by simp)
  exact (Json.throughout_object.mp hoptions).1 use.options rfl

/-! ## Uses -/

section Again

variable {c : Catalog} {t : RuleTree} (s : Source) (way : List String)

/-- Uses that were granted are granted again on their options, and refer to nothing new. -/
theorem Source.uses_again {kind : Capability.Kind} {uses : List Capability}
    (hgranted : ∀ use ∈ uses, t.Granted c kind use)
    (hnodup : ∀ use ∈ uses, (use.options.map (·.1)).Nodup) :
    ∃ us, s.uses c kind way (uses.map fun use => ⟨use.name, .object use.options⟩) = .ok us ∧
      (us.map (·.1)).map Capability.content = uses.map Capability.content ∧
      ∀ v ∈ us.flatMap Use.found, t.declared.knows v.name := by
  unfold Source.uses
  generalize 0 = start
  induction uses generalizing start with
  | nil => exact ⟨[], rfl, rfl, nofun⟩
  | cons use uses ih =>
    rw [List.forall_mem_cons] at hgranted hnodup
    obtain ⟨given, names, huse, hknown⟩ := hgranted.1
    obtain ⟨us, hus, hcontent, hfound⟩ := ih hgranted.2 hnodup.2 (start + 1)
    let p := s.provenanceAt (way ++ [toString start])
    have hagain : c.use kind use.name (.object use.options) p =
        .ok ({ use with provenance := p }, names) := Catalog.use_again huse hnodup.1 p
    refine ⟨({ use with provenance := p }, names) :: us, ?_, ?_, ?_⟩
    · rw [List.map_cons, List.zipIdx_cons]
      exact mapM_eq_ok.mpr (.cons hagain (mapM_eq_ok.mp hus))
    · rw [List.map_cons, List.map_cons, List.map_cons, hcontent]
      rfl
    · intro v hv
      rw [List.flatMap_cons] at hv
      rcases List.mem_append.mp hv with hv | hv
      · obtain ⟨name, hname, rfl⟩ := List.mem_map.mp hv
        exact hknown name hname
      · exact hfound v hv

/-- The head that was written for a rule becomes a rule that restores it, and refers to nothing
new. -/
theorem FragmentHead.uses_again {r : Rule} {declared : List Variable} {children : List Json}
    (hgranted : t.GrantedRule c r)
    (hdistinct : (Json.object (r.toMembers (declared.map Variable.toJson) children)).Throughout
      Json.Distinct) (origin : Provenance) :
    let head := saidBy (.object (r.toMembers (declared.map Variable.toJson) children))
    ∃ uses, head.uses c s way = .ok uses ∧ r.Restores (head.rule origin uses) ∧
      ∀ v ∈ uses.1.flatMap Use.found ++ uses.2.flatMap Use.found, t.declared.knows v.name := by
  intro head
  obtain ⟨criteria, hcriteria, hsame, hfound⟩ := s.uses_again (way ++ ["criteria"])
    (hgranted .criteria) fun _ => nodup_options hdistinct
  obtain ⟨behaviors, hbehaviors, hsame', hfound'⟩ := s.uses_again (way ++ ["behaviors"])
    (hgranted .behavior) fun _ => nodup_options hdistinct
  have hhead : head = _ := saidBy_toMembers r declared children
  refine ⟨(criteria, behaviors), ?_, ?_, ?_⟩
  · simp only [Rule.uses] at hcriteria hbehaviors
    rw [uses, hhead]
    simp only [hcriteria, hbehaviors]
    rfl
  · rw [hhead]
    refine ⟨rfl, rfl, fun kind => ?_⟩
    cases kind with
    | criteria => exact hsame
    | behavior => exact hsame'
  · exact fun v hv => (List.mem_append.mp hv).elim (hfound v) (hfound' v)

end Again

/-! ## Rules -/

namespace RuleTree

variable {t : RuleTree}

/-- The expansion becomes a copy of a rule with those below it. Apart from what it lists, it refers
to no other variables than the tree has. -/
def CopiedBy (t : RuleTree) (c : Catalog) (id : RuleId) (listed : List Variable)
    (e : Expansion) : Prop :=
  ∃ sketch vs, e.sketch c = .ok sketch ∧ (t.sketchAt id).Restores sketch ∧
    e.declarations c = .ok (listed ++ vs) ∧ ∀ v ∈ vs, t.declared.knows v.name

/-- The expansions become copies of rules, one each. -/
def CopiedByAll (t : RuleTree) (c : Catalog) (ids : List RuleId) (es : List Expansion) : Prop :=
  ∃ sketches vs, Expansion.sketchAll c es = .ok sketches ∧
    List.Forall₂ Sketch.Restores (ids.map t.sketchAt) sketches ∧
    Expansion.declarationsOfAll c es = .ok vs ∧ ∀ v ∈ vs, t.declared.knows v.name

/-- What the value of a rule says of the rule itself. -/
def headOf (t : RuleTree) (id : RuleId) : FragmentHead := .saidBy (t.ruleJson id)

theorem declared_headOf (ht : t.Descending) {id : Nat} (hid : id < t.size) :
    (t.headOf id).declared =
      (t.variablesAt id).map fun v => ⟨v.name, some v.description, v.hidden, v.sensitive⟩ := by
  rw [headOf, ruleJson_eq ht hid, FragmentHead.saidBy_toMembers]

theorem copiedBy_mk {c : Catalog} (ht : t.WellFormed) {id : Nat} (hid : id < t.size)
    (hgranted : t.GrantedRule c (t.ruleAt id))
    (hdistinct : (t.ruleJson id).Throughout Json.Distinct) (s : Source) (way : List String)
    (origin : Provenance) {es : List Expansion} (hbelow : t.CopiedByAll c (t.childrenOf id) es) :
    t.CopiedBy c id ((t.headOf id).listed s way) (.node s way origin (t.headOf id) es) := by
  obtain ⟨sketches, vs, hsketches, hrestores, hvs, hknown⟩ := hbelow
  rw [ruleJson_eq ht.descending hid] at hdistinct
  obtain ⟨uses, huses, hrule, hfound⟩ := FragmentHead.uses_again s way hgranted hdistinct origin
  rw [← ruleJson_eq ht.descending hid, ← headOf] at huses hrule
  refine ⟨.node ((t.headOf id).rule origin uses) sketches,
    uses.1.flatMap Use.found ++ uses.2.flatMap Use.found ++ vs, ?_, ?_, ?_, ?_⟩
  · rw [Expansion.sketch, huses, hsketches]
    rfl
  · rw [sketchAt_eq ht hid]
    exact .node hrule hrestores
  · rw [Expansion.declarations, huses, hvs]
    simp only [Except.bind, Except.map, FragmentHead.declarations, List.append_assoc]
  · intro v hv
    exact (List.mem_append.mp hv).elim (hfound v) (hknown v)

/-- The children that were written down are rules, and expand into copies if each of them does. -/
theorem expandsAll_again {w : Workshop} (ht : t.WellFormed) {s : Source} {ids : List RuleId}
    (hids : ∀ k ∈ ids, rootId < k ∧ k < t.size)
    (hrules : ∀ k ∈ ids, ∀ r, (t.ruleJson k).SaysRule r → r.mentions = [] ∧
      ∀ (way : List String) (origin : Provenance), ∃ es,
        w.ExpandsAll s (way ++ ["children"]) 0 r.children es ∧ r.head = t.headOf k ∧
        t.CopiedBy w.catalog k ((t.headOf k).listed s way) (.node s way origin (t.headOf k) es))
    {cs : List FragmentChild} (hstated : List.Forall₂ Json.SaysChild (ids.map t.ruleJson) cs) :
    FragmentRule.mentionsIn cs = [] ∧ ∀ (way : List String) (count : Nat),
      ∃ es, w.ExpandsAll s way count cs es ∧ t.CopiedByAll w.catalog ids es := by
  induction ids generalizing cs with
  | nil =>
    cases hstated
    exact ⟨rfl, fun _ _ => ⟨[], .nil, [], [], rfl, .nil, rfl, nofun⟩⟩
  | cons k ids ih =>
    rw [List.forall_mem_cons] at hids hrules
    cases hstated with
    | @cons _ child _ cs hfirst hrest =>
      obtain ⟨hnone, hexpands⟩ := ih hids.2 hrules.2 hrest
      have hlisted (way : List String) : (t.headOf k).listed s way = [] := by
        have hne : k ≠ rootId := Nat.ne_of_gt hids.1.1
        rw [FragmentHead.listed, declared_headOf ht.descending hids.1.2, variablesAt, if_neg hne]
        rfl
      generalize hj : t.ruleJson k = j at hfirst
      cases hfirst with
      | mention =>
        rw [ruleJson_eq ht.descending hids.1.2] at hj
        cases hj
      | @rule _ r hr =>
        obtain ⟨head, cs'⟩ := r
        obtain ⟨hnone', hexpands'⟩ := hrules.1 _ (hj ▸ hr)
        refine ⟨?_, fun way count => ?_⟩
        · rw [FragmentRule.mentionsIn, FragmentRule.mentionsOf, hnone', hnone]
          rfl
        · obtain ⟨es', hbelow', hhead, sketch, vs', hsketch, hrestores, hvs', hknown'⟩ :=
            hexpands' (way ++ [toString count]) (s.provenanceAt (way ++ [toString count]))
          obtain ⟨es, hbelow, sketches, vs, hsketches, hall, hvs, hknown⟩ :=
            hexpands way (count + 1)
          obtain rfl : head = t.headOf k := hhead
          refine ⟨_, .cons (.node (.rule _) hbelow') hbelow, sketch :: sketches, vs' ++ vs, ?_,
            .cons hrestores hall, ?_, ?_⟩
          · rw [Expansion.sketchAll, hsketch, hsketches]
            rfl
          · rw [Expansion.declarationsOfAll, hvs', hvs, hlisted]
            rfl
          · exact fun v hv => (List.mem_append.mp hv).elim (hknown' v) (hknown v)

theorem Accounted.ruleAt {c : Catalog} (h : t.Accounted c) {id : Nat} (hid : id < t.size) :
    t.GrantedRule c (t.ruleAt id) := by
  obtain ⟨n, hn⟩ := Option.isSome_iff_exists.mp (isSome_node? hid)
  have hrule : t.ruleAt id = n.rule := by rw [RuleTree.ruleAt, hn]; rfl
  exact hrule ▸ h.granted n (List.mem_of_getElem? hn)

/-- The value of a rule, read as a fragment, expands into a copy. -/
theorem expands_again {w : Workshop} (ht : t.WellFormed)
    (hgranted : ∀ id < t.size, t.GrantedRule w.catalog (t.ruleAt id)) (s : Source) :
    ∀ id < t.size, (t.ruleJson id).Throughout Json.Distinct →
      ∀ r, (t.ruleJson id).SaysRule r → r.mentions = [] ∧
        ∀ (way : List String) (origin : Provenance), ∃ es,
          w.ExpandsAll s (way ++ ["children"]) 0 r.children es ∧ r.head = t.headOf id ∧
          t.CopiedBy w.catalog id ((t.headOf id).listed s way)
            (.node s way origin (t.headOf id) es) := by
  refine ht.descending.induction fun id hid ih hdistinct r hstated => ?_
  have hids : ∀ k ∈ t.childrenOf id, rootId < k ∧ k < t.size := by
    intro k hk
    have := ht.child hk
    exact ⟨Nat.lt_of_le_of_lt (Nat.zero_le id) this.1, this.2⟩
  have hitems : (t.ruleJson id).itemsOf "children" = (t.childrenOf id).map t.ruleJson := by
    rw [ruleJson_eq ht.descending hid, itemsOf_toMembers]
  have hdistinct' : ∀ k ∈ t.childrenOf id, (t.ruleJson k).Throughout Json.Distinct := by
    intro k hk
    exact Json.throughout_itemsOf hdistinct "children" _ (hitems ▸ List.mem_map_of_mem hk)
  generalize hj : t.ruleJson id = j at hstated
  cases hstated with
  | @mk members cs below =>
    rw [← hj, hitems] at below
    obtain ⟨hnone, hexpands⟩ := expandsAll_again (w := w) (s := s) ht hids
      (fun k hk r hr => ih k hk (hdistinct' k hk) r hr) below
    refine ⟨hnone, fun way origin => ?_⟩
    obtain ⟨es, hall, hcopied⟩ := hexpands (way ++ ["children"]) 0
    have hhead : t.headOf id = .saidBy (.object members) := by rw [headOf, hj]
    exact ⟨es, hall, hhead.symm,
      copiedBy_mk ht hid (hgranted id hid) hdistinct s way origin hcopied⟩

end RuleTree

/-! ## Variables -/

/-- The variables of a tree are listed with its root, each as it was declared. -/
theorem content_listed {t : RuleTree} (ht : t.WellFormed) (s : Source) (way : List String) :
    ((t.headOf RuleTree.rootId).listed s way).map Variable.content =
      t.declared.map Variable.content := by
  have hroot : RuleTree.rootId < t.size := ht.size_pos
  rw [FragmentHead.listed, RuleTree.declared_headOf ht.descending hroot, RuleTree.variablesAt,
    if_pos rfl, List.zipIdx_map, List.map_map, List.map_map]
  conv_rhs => rw [← List.zipIdx_map_fst 0 t.declared]
  rw [List.map_map]
  rfl

/-- A document names no version of rules within its rules. -/
theorem memberString?_ruleFormat {t : RuleTree} (ht : t.WellFormed) :
    t.rules.memberString? "ruleFormat" = none := by
  have hroot : RuleTree.rootId < t.size := ht.size_pos
  change (t.ruleJson RuleTree.rootId).memberString? "ruleFormat" = none
  rw [RuleTree.ruleJson_eq ht.descending hroot, Json.memberString?, Json.member?, Json.asObject?,
    Option.bind_some, get?_toMembers]
  rfl

/-- What a fresh tree declares that takes in a copy: the variables of the tree that was written
down, in their order. -/
theorem content_declareAll {t : RuleTree} (ht : t.WellFormed) (hdistinct : t.declared.Distinct)
    (s : Source) (way : List String) {vs : List Variable}
    (hvs : ∀ v ∈ vs, t.declared.knows v.name) :
    (VariableTable.declareAll [] ((t.headOf RuleTree.rootId).listed s way ++ vs)).map
      Variable.content = t.declared.map Variable.content := by
  have hcontent := content_listed ht s way
  generalize (t.headOf RuleTree.rootId).listed s way = listed at hcontent
  have hnames : listed.map (·.name) = t.declared.map (·.name) := by
    have hfirst := congrArg (List.map Prod.fst) hcontent
    rwa [List.map_map, List.map_map] at hfirst
  have hknown : ∀ v ∈ vs, VariableTable.knows listed v.name := by
    intro v hv
    obtain ⟨u, hu, hname⟩ := VariableTable.knows_iff.mp (hvs v hv)
    have hmem : v.name ∈ listed.map (·.name) := by
      rw [hnames, ← hname]
      exact List.mem_map_of_mem hu
    exact VariableTable.knows_iff.mpr (List.mem_map.mp hmem)
  have hlisted : VariableTable.Distinct listed := by
    rwa [VariableTable.Distinct, hnames]
  rw [VariableTable.declareAll_append, VariableTable.declareAll_nil,
    VariableTable.firsts_of_distinct hlisted, VariableTable.declareAll_of_knows hknown, hcontent]

/-! ## Imports -/

namespace Workshop

variable {w : Workshop}

/-- A file that mentions no other is planted as it is. -/
theorem importFile_outcome_of_holds {directory : Path} {expression : String} {s : Source}
    {head : FragmentHead} {cs : List FragmentChild} {es : List Expansion}
    (holds : w.Holds (directory.resolve expression) s (.mk head cs))
    (below : w.ExpandsAll s ["children"] 0 cs es) (hnone : FragmentRule.mentionsIn cs = [])
    (parent : RuleId) (t : RuleTree) :
    (w.importFile directory parent expression).outcome t =
      (Expansion.plant w.catalog (.node s [] (.ofPath (directory.resolve expression)) head es)
        parent t).map fun t' => ((), t') := by
  rcases w.found ⟨[], directory, parent, expression, t⟩ with
    ⟨hmem, -⟩ | ⟨-, _, -, hnothing, -⟩ | ⟨-, s', r, holds', hrun⟩
  · cases hmem
  · exact absurd holds (hnothing _ _)
  · obtain ⟨rfl, rfl⟩ := holds.unique holds'
    have houtcome := Build.outcome_congr (hrun (w.importWithin w.files.count))
    refine houtcome.trans (place_outcome below ?_ _ _ _)
    rw [hnone]
    exact nofun

end Workshop

/-- The reader goes over characters. -/
theorem Json.read_ofList (cs : List Char) :
    read (.ofList cs) =
      ((readWhole maxDepth cs).mapError (Stop.locate cs)).map Located.toJson := by
  rw [read, readLocated, String.toList_ofList]

namespace Compiler

variable {c : Compiler}

/-- A script that imports a file and does nothing else. -/
def importScript (site : Site) (expression : String) : List Step :=
  [.mk (.importFile site expression) false []]

theorem compile_importScript {site : Site} {expression : String} {t : RuleTree}
    {document : Document} :
    c.compile (importScript site expression) = .ok (t, document) ↔
      (c.importFile (site.directory c.sourceRoot) RuleTree.rootId expression).outcome freshTree =
        .ok ((), t) ∧ document = t.document c.ruleFormat := by
  rw [Build.outcome_eq_ok, compile, run, importScript, runSteps, runStep, perform, run_bind]
  generalize (c.importFile (site.directory c.sourceRoot) RuleTree.rootId expression).run
    freshTree = result
  obtain ⟨x, t'⟩ := result
  cases x with
  | error e =>
    constructor
    · intro h
      cases h
    · intro h
      cases h.1
  | ok u =>
    change Except.ok (t', t'.document c.ruleFormat) = .ok (t, document) ↔ _
    constructor
    · intro h
      cases h
      exact ⟨rfl, rfl⟩
    · rintro ⟨hrun, rfl⟩
      cases hrun
      rfl

/-- A document that the schema made from the catalog accepts can be imported again. Below a new root
there is then a copy of the tree and nothing else: rule for rule the same labels, policies and uses
of capabilities with the same options, and the same variables in the same order. -/
theorem compile_roundTrip {c c' : Compiler} {script : List Step} {t : RuleTree}
    {document : Document} {version : String} {r : Registry} {schema : Schema} {site : Site}
    {expression text : String} (hcompile : c.compile script = .ok (t, document))
    (hbuilt : Registry.builtIn c.catalog version = .ok r)
    (hschema : r.find? version = some schema)
    (haccepted : schema.violation? document.rules = none)
    (hcatalog : c'.catalog = c.catalog)
    (hfind : c'.registry.find? c'.ruleFormat = some schema)
    (hfile : c'.files.read ((site.directory c'.sourceRoot).resolve expression) = .ok text)
    (hread : Json.read text = .ok document.rules) :
    ∃ t' document' copy, c'.compile (importScript site expression) = .ok (t', document') ∧
      t'.outline.sketch = .node { name := some rootName } [copy] ∧
      t.outline.sketch.Restores copy ∧
      t'.declared.map Variable.content = t.declared.map Variable.content := by
  obtain ⟨rfl, rfl⟩ := eq_of_compile hcompile
  generalize htree : (c.run script).tree = t at *
  have ht : t.WellFormed := htree ▸ c.run_wellFormed script
  have haccounted : t.Accounted c'.catalog := by
    rw [hcatalog, ← htree]
    exact c.run_accounted script _ (List.mem_cons_of_mem _ List.mem_cons_self)
  obtain rfl := Registry.eq_of_find?_builtIn hbuilt hschema
  have hrule := Catalog.violation?_ruleSchema.mp haccepted
  have hdistinct := Json.distinct_of_read hread
  obtain ⟨⟨head, cs⟩, hdecode, hstated⟩ := FragmentRule.decode_of_isRule hrule hdistinct
  -- The document is loaded by the same schema, since it names no version of rules.
  let s : Source := ⟨(site.directory c'.sourceRoot).resolve expression, text⟩
  have hload : c'.load s = .ok (.mk head cs) := by
    have hversion : c'.versionOf (t.document c.ruleFormat).rules = c'.ruleFormat := by
      have hnone : (t.document c.ruleFormat).rules.memberString? "ruleFormat" = none :=
        memberString?_ruleFormat ht
      rw [Workshop.versionOf, hnone]
      rfl
    rw [Workshop.load, hread]
    simp only [Except.mapError, bind, Except.bind, hversion, hfind, haccepted, hdecode]
  have holds : c'.Holds ((site.directory c'.sourceRoot).resolve expression) s (.mk head cs) :=
    ⟨rfl, hfile, hload⟩
  -- Its rules expand into copies.
  obtain ⟨hnone, hexpands⟩ := RuleTree.expands_again ht (fun id hid => haccounted.ruleAt hid) s
    RuleTree.rootId ht.size_pos hdistinct _ hstated
  obtain ⟨es, hbelow, hhead, copy, vs, hsketch, hrestores, hvs, hknown⟩ :=
    hexpands [] (.ofPath ((site.directory c'.sourceRoot).resolve expression))
  obtain rfl : head = t.headOf RuleTree.rootId := hhead
  have himport := Workshop.importFile_outcome_of_holds holds hbelow hnone RuleTree.rootId freshTree
  have hfresh : freshTree.WellFormed := RuleTree.wellFormed_ofRoot rfl
  have hroot : RuleTree.rootId < freshTree.size := Nat.zero_lt_one
  generalize Expansion.node s [] _ _ es = e at himport hsketch hvs
  have hplanted := e.plant_sketch (c := c'.catalog) hfresh hroot
  rw [hsketch] at hplanted
  obtain ⟨t', hplant, -, hadd⟩ := hplanted
  obtain ⟨vs', hvs', hdeclared⟩ := Expansion.plant_declared _ hplant
  obtain rfl := Except.ok.inj (hvs.symm.trans hvs')
  rw [hplant] at himport
  refine ⟨t', _, copy, compile_importScript.mpr ⟨himport, rfl⟩, hadd, hrestores, ?_⟩
  rw [hdeclared]
  exact content_declareAll ht haccounted.distinct s [] hknown

/-- A compiler with defaults for a behavior and a criterion that names a variable. -/
def restoringCompiler : Compiler :=
  { plainCompiler with
    catalog := {
      criteria := [{ Descriptor.bare "path" with variableHandling := { names := ["to"] } }]
      behaviors := [{ Descriptor.bare "caching" with defaults := [("ttl", .string "1d")] }] } }

/-- A rule below the root that names a variable and has an option beside a default. -/
def restoredScript : List Step :=
  [.mk (.criteria ⟨⟨"s", 1⟩, "path", .object [("to", .string "a")]⟩) false
    [.mk (.behavior ⟨⟨"s", 2⟩, "caching", .object [("stale", .bool true)]⟩) false []]]

def restoredRules : Json :=
  .object [("name", .string "default"), ("comment", .string ""),
    ("variables", .array [.object
      [("name", .string "a"), ("value", .string ""), ("description", .string "defined at s:1"),
        ("hidden", .bool false), ("sensitive", .bool false), ("provenance", .string "s:1")]]),
    ("children", .array [.object
      [("name", .string "s:1"), ("comment", .string "s:1"), ("provenance", .string "s:1"),
        ("criteria", .array [.object
          [("name", .string "path"), ("options", .object [("to", .string "a")]),
            ("provenance", .string "s:1")]]),
        ("behaviors", .array [.object
          [("name", .string "caching"),
            ("options", .object [("ttl", .string "1d"), ("stale", .bool true)]),
            ("provenance", .string "s:2")]])]])]

/-- The characters of `restoredRules` as they are written, in short pieces. -/
def restoredChars : List Char :=
  "\x7b\"name\":\"default\",\"comment\":\"\",\"variables\":[".toList ++
    "\x7b\"name\":\"a\",\"value\":\"\",".toList ++
    "\"description\":\"defined at s:1\",\"hidden\":false,".toList ++
    "\"sensitive\":false,\"provenance\":\"s:1\"\x7d],".toList ++
    "\"children\":[\x7b\"name\":\"s:1\",\"comment\":\"s:1\",".toList ++
    "\"provenance\":\"s:1\",\"criteria\":[\x7b\"name\":\"path\",".toList ++
    "\"options\":\x7b\"to\":\"a\"\x7d,\"provenance\":\"s:1\"\x7d],".toList ++
    "\"behaviors\":[\x7b\"name\":\"caching\",".toList ++
    "\"options\":\x7b\"ttl\":\"1d\",\"stale\":true\x7d,".toList ++
    "\"provenance\":\"s:2\"\x7d]\x7d]\x7d".toList

set_option maxRecDepth 20000 in
theorem compile_roundTrip_restored :
    ∃ r schema t document, restoringCompiler.compile restoredScript = .ok (t, document) ∧
      Registry.builtIn restoringCompiler.catalog "v1" = .ok r ∧ r.find? "v1" = some schema ∧
      schema.violation? document.rules = none ∧
      Json.read (.ofList restoredChars) = .ok document.rules ∧
      let c' : Compiler :=
        { restoringCompiler with
          registry := r, files := .ofTexts [("copy.json", .ofList restoredChars)] }
      ∃ t' document' copy,
        c'.compile (importScript ⟨"s", 1⟩ "copy.json") = .ok (t', document') ∧
        t'.outline.sketch = .node { name := some rootName } [copy] ∧
        t.outline.sketch.Restores copy ∧
        t'.declared.map Variable.content = t.declared.map Variable.content := by
  let t := (restoringCompiler.run restoredScript).tree
  have hcompile : restoringCompiler.compile restoredScript = .ok (t, t.document "v1") := by rfl
  have hrules : (t.document "v1").rules = restoredRules := by rfl
  have hread : Json.read (.ofList restoredChars) = .ok restoredRules := by
    refine (Json.read_ofList _).trans ?_
    cbv
  have hok : ((Registry.builtIn restoringCompiler.catalog "v1").toOption.bind fun r =>
      (r.find? "v1").bind fun schema =>
        if schema.violation? restoredRules = none then some () else none).isSome = true := by
    decide +kernel
  obtain ⟨_, hall⟩ := Option.isSome_iff_exists.mp hok
  obtain ⟨r, hr, hall⟩ := Option.bind_eq_some_iff.mp hall
  obtain ⟨schema, hschema, hall⟩ := Option.bind_eq_some_iff.mp hall
  have haccepted := (Option.ite_none_right_eq_some.mp hall).1
  have hbuilt := eq_ok_of_toOption hr
  rw [← hrules] at hread haccepted
  refine ⟨r, schema, _, _, hcompile, hbuilt, hschema, haccepted, hread, ?_⟩
  intro c'
  have hfile : c'.files.read ((Site.directory c'.sourceRoot ⟨"s", 1⟩).resolve "copy.json") =
      .ok (.ofList restoredChars) := by
    have hpath : (Site.directory ⟨"."⟩ ⟨"s", 1⟩).resolve "copy.json" = ⟨"copy.json"⟩ := by
      decide +kernel
    have hroot : c'.sourceRoot = ⟨"."⟩ := rfl
    have hfiles : c'.files = .ofTexts [("copy.json", .ofList restoredChars)] := rfl
    rw [hroot, hpath, hfiles]
    simp only [Files.ofTexts, List.lookup_cons_self]
  exact compile_roundTrip hcompile hbuilt hschema haccepted rfl hschema hfile hread

end Compiler

end DeliveryRules
