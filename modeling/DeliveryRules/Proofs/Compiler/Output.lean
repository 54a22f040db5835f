import DeliveryRules.Proofs.Capability.Catalog
import DeliveryRules.Proofs.Compiler.Order
import DeliveryRules.Proofs.Compiler.RoundTrip
import DeliveryRules.Proofs.Fragment.Filled

/-!
# When a document is accepted again

A document is written in the shape of a fragment. Whether the schema of fragments accepts it comes
down to the options of the uses of capabilities.

- **Parts of a document** (`Variable.isVariable_toJson`, `Capability.isEntry_toJson`,
  `isRule_toMembers`): when what is written for a part fits the grammar of fragments.
- **Documents** (`RuleTree.isRule_rules`): a document fits the grammar if all uses and all
  variables of the tree do, by induction over the children in one direction and along the way up
  from a rule in the other.
- `Compiler.compile_import_accepted`: what is compiled from accepted fragments is accepted again if
  and only if the options of each use, defaults included, are. This leaves out the empty names that
  lists of names let through, where single names do not; with one of them a document is refused
  (`Compiler.compile_import_refused`).
-/

namespace DeliveryRules

open Grammar

/-! ## Parts of a document -/

theorem Variable.isVariable_toJson (v : Variable) : IsVariable v.toJson ↔ v.name ≠ "" := by
  constructor
  · exact fun h => h.ne_empty
  · intro hne
    refine .object (fun m hm => ?_) rfl
    simp only [List.mem_cons, List.not_mem_nil, or_false] at hm
    rcases hm with rfl | rfl | rfl | rfl | rfl | rfl
    · exact .name hne
    · exact .text (by simp)
    · exact .text (by simp)
    · exact .flag (by simp)
    · exact .flag (by simp)
    · exact .text (by simp)

/-- The use has options that the option schema of its capability accepts. -/
def Catalog.AcceptsUse (c : Catalog) (kind : Capability.Kind) (use : Capability) : Prop :=
  ∃ d, c.find? kind use.name = some d ∧ c.AcceptsOptions d (.object use.options)

/-- What is written for a use fits the grammar if its options are accepted. -/
theorem Capability.isEntry_toJson {c : Catalog} (hc : c.IsRegistered) {kind : Kind}
    {use : Capability} (hknown : (c.find? kind use.name).isSome) :
    IsEntry c kind use.toJson ↔ c.AcceptsUse kind use := by
  obtain ⟨d, hd⟩ := Option.isSome_iff_exists.mp hknown
  obtain ⟨hmem, hname⟩ := Catalog.mem_of_find? hd
  constructor
  · intro h
    cases h with
    | object _ _ hoptions => exact ⟨d, hd, hoptions d hmem (by rw [hname]; rfl) _ rfl⟩
  · rintro ⟨d', hd', haccepts⟩
    obtain rfl := Option.some.inj (hd.symm.trans hd')
    refine .object (fun m hm => ?_) rfl fun e he hget options hoptions => ?_
    · simp only [List.mem_cons, List.not_mem_nil, or_false] at hm
      rcases hm with rfl | rfl | rfl
      · exact .name (.inr (List.mem_map.mpr ⟨d, hmem, hname⟩))
      · exact .options
      · exact .provenance
    · -- No other descriptor has the name.
      have hsame : e.name = d.name := by
        rw [hname]
        exact (Json.string.inj (Option.some.inj hget)).symm
      obtain rfl := (hc.descriptors kind).1.eq_of_name he hmem hsame
      obtain rfl := Option.some.inj hoptions
      exact haccepts

theorem Grammar.IsRuleMember.isEntry {c : Catalog} {kind : Capability.Kind} {j : Json}
    (h : IsRuleMember c kind.member j) : ∀ i ∈ j.items, IsEntry c kind i := by
  cases kind with
  | criteria => exact h.items.1 rfl
  | behavior => exact h.items.2.1 rfl

/-- What is written for a rule fits the grammar if what is written for its parts does. -/
theorem Rule.isRule_toMembers {c : Catalog} {r : Rule} {declared children : List Json} :
    IsRule c (.object (r.toMembers declared children)) ↔
      (∀ kind, ∀ use ∈ r.uses kind, IsEntry c kind use.toJson) ∧
        (∀ j ∈ declared, IsVariable j) ∧ ∀ j ∈ children, IsChild c j := by
  constructor
  · intro h
    refine ⟨fun kind use huse => ?_, ?_, ?_⟩
    · refine h.itemsOf (fun _ hvalue => hvalue.isEntry) _ ?_
      rw [itemsOf_toMembers_uses]
      exact List.mem_map_of_mem huse
    · have hvariables := h.itemsOf fun _ hvalue => hvalue.isVariable
      rwa [itemsOf_of_filled (by rw [get?_toMembers]; rfl)] at hvariables
    · have hchildren := h.itemsOf fun _ hvalue => hvalue.items.2.2 rfl
      rwa [itemsOf_toMembers] at hchildren
  · rintro ⟨huses, hdeclared, hchildren⟩
    refine .object fun m hm => ?_
    simp only [toMembers, List.mem_append, List.mem_cons, List.not_mem_nil, or_false,
      Option.mem_toList, Option.map_eq_some_iff] at hm
    rcases hm with ((((((rfl | rfl) | ⟨p, -, rfl⟩) | hm) | ⟨policy, -, rfl⟩) | hm) | hm) | hm
    · exact .text (by simp)
    · exact .text (by simp)
    · exact .text (by simp)
    · rw [eq_of_mem_unlessEmpty hm]
      exact .criteria (List.forall_mem_map.mpr (huses .criteria))
    · exact .matchPolicy (by cases policy <;> decide)
    · rw [eq_of_mem_unlessEmpty hm]
      exact .declarations hdeclared
    · rw [eq_of_mem_unlessEmpty hm]
      exact .behaviors (List.forall_mem_map.mpr (huses .behavior))
    · rw [eq_of_mem_unlessEmpty hm]
      exact .children hchildren

/-! ## Documents -/

namespace RuleTree

variable {t : RuleTree} {c : Catalog}

/-- A rule among the children stands for itself. -/
theorem isChild_ruleJson (ht : t.Linked) {id : Nat} (hid : id < t.size) :
    IsChild c (t.ruleJson id) ↔ IsRule c (t.ruleJson id) := by
  refine ⟨fun h => ?_, .rule⟩
  rw [ruleJson_eq ht.descending hid] at h ⊢
  cases h with
  | rule h => exact h

/-- What is written for a rule fits the grammar if its uses, its variables and its children do. -/
theorem isRule_ruleJson (ht : t.Linked) {id : Nat} (hid : id < t.size) :
    IsRule c (t.ruleJson id) ↔
      (∀ kind, ∀ use ∈ (t.ruleAt id).uses kind, IsEntry c kind use.toJson) ∧
        (∀ v ∈ t.variablesAt id, IsVariable v.toJson) ∧
          ∀ k ∈ t.childrenOf id, IsRule c (t.ruleJson k) := by
  rw [ruleJson_eq ht.descending hid, Rule.isRule_toMembers, List.forall_mem_map,
    List.forall_mem_map]
  refine and_congr_right fun _ => and_congr_right fun _ => forall₂_congr fun k hk => ?_
  exact isChild_ruleJson ht (ht.descending id k hk).2

/-- A document fits the grammar if what is written for the uses and the variables of the tree
does. -/
theorem isRule_rules (ht : t.Linked) :
    IsRule c t.rules ↔
      (∀ kind use, t.HasUse kind use → IsEntry c kind use.toJson) ∧
        ∀ v ∈ t.declared, IsVariable v.toJson := by
  change IsRule c (t.ruleJson rootId) ↔ _
  constructor
  · intro hroot
    -- Along the way from the root, since all rules are below it.
    have hall (id : Nat) (hbelow : t.Below rootId id) (hid : id < t.size) :
        IsRule c (t.ruleJson id) := by
      induction hbelow with
      | self => exact hroot
      | @child i k _ parent ih =>
        have hlt := Nat.lt_trans (ht.parent_lt parent) hid
        exact ((isRule_ruleJson ht hlt).mp (ih hlt)).2.2 k (ht.mem_childrenOf.mpr parent)
    refine ⟨fun kind use ⟨id, hid, huse⟩ => ?_, ?_⟩
    · exact ((isRule_ruleJson ht hid).mp (hall id (ht.below_root hid) hid)).1 kind use huse
    · exact ((isRule_ruleJson ht ht.size_pos).mp hroot).2.1
  · rintro ⟨huses, hvariables⟩
    suffices hall : ∀ id < t.size, IsRule c (t.ruleJson id) from hall rootId ht.size_pos
    refine ht.descending.induction fun id hid ih => ?_
    refine (isRule_ruleJson ht hid).mpr
      ⟨fun kind use huse => huses kind use ⟨id, hid, huse⟩, ?_, ih⟩
    intro v hv
    rw [variablesAt] at hv
    split at hv
    · exact hvariables v hv
    · cases hv

end RuleTree

namespace Compiler

variable {c : Compiler}

/-- If the schema made from the catalog accepts all files on chains of includes, then each use of
what is compiled has the defaults of its capability or accepted options over them, and every
variable is written as the schema asks. The document is accepted again if and only if the options of
each use, defaults included, are. -/
theorem compile_import_accepted {version : String} {r : Registry} {schema : Schema} {site : Site}
    {expression : String} {t : RuleTree} {document : Document} (hcatalog : c.catalog.IsRegistered)
    (hbuilt : Registry.builtIn c.catalog version = .ok r)
    (hschema : r.find? version = some schema)
    (haccepts : ∀ chain path,
      c.IncludeChain ((site.directory c.sourceRoot).resolve expression) chain path →
        c.Accepts schema path)
    (hcompile : c.compile (importScript site expression) = .ok (t, document))
    (hlists : ∀ kind use, t.HasUse kind use → ¬ c.catalog.ListsEmptyName kind use) :
    (∀ kind use, t.HasUse kind use → c.catalog.Fills kind use) ∧
      (∀ v ∈ t.declared, IsVariable v.toJson) ∧
      (schema.violation? document.rules = none ↔
        ∀ kind use, t.HasUse kind use → c.catalog.AcceptsUse kind use) := by
  obtain rfl := Registry.eq_of_find?_builtIn hbuilt hschema
  obtain ⟨himport, rfl⟩ := compile_importScript.mp hcompile
  have hfilled : t.Filled c.catalog :=
    Workshop.importFile_filled haccepts (RuleTree.filled_ofRoot rfl rfl) himport
  have hlinked : t.Linked := by
    obtain ⟨rfl, -⟩ := eq_of_compile hcompile
    exact (c.run_built _ _ (List.mem_cons_of_mem _ List.mem_cons_self)).linked
  have hvariables : ∀ v ∈ t.declared, IsVariable v.toJson := by
    intro v hv
    rcases hfilled.names v hv with hne | ⟨kind, use, huse, hempty⟩
    · exact v.isVariable_toJson.mpr hne
    · exact absurd hempty (hlists kind use huse)
  refine ⟨hfilled.uses, hvariables, ?_⟩
  change Schema.violation? _ t.rules = none ↔ _
  rw [Catalog.violation?_ruleSchema, RuleTree.isRule_rules hlinked, and_iff_left hvariables]
  refine forall₂_congr fun kind use => imp_congr_right fun huse => ?_
  obtain ⟨d, hd, -⟩ := hfilled.uses kind use huse
  exact Capability.isEntry_toJson hcatalog (by rw [hd]; rfl)

/-- A list of names may have an empty one, which then is the name of a variable. A document with
such a variable is not accepted again. -/
theorem compile_import_refused {version : String} {r : Registry} {schema : Schema}
    {script : List Step} {t : RuleTree} {document : Document}
    (hbuilt : Registry.builtIn c.catalog version = .ok r)
    (hschema : r.find? version = some schema) (hcompile : c.compile script = .ok (t, document))
    {v : Variable} (hv : v ∈ t.declared) (hempty : v.name = "") :
    schema.violation? document.rules ≠ none := by
  obtain rfl := Registry.eq_of_find?_builtIn hbuilt hschema
  obtain ⟨rfl, hdocument⟩ := eq_of_compile hcompile
  have hlinked : (c.run script).tree.Linked :=
    (c.run_built _ _ (List.mem_cons_of_mem _ List.mem_cons_self)).linked
  intro haccepted
  rw [hdocument] at haccepted
  change Schema.violation? _ (c.run script).tree.rules = none at haccepted
  rw [Catalog.violation?_ruleSchema, RuleTree.isRule_rules hlinked] at haccepted
  exact (v.isVariable_toJson.mp (haccepted.2 v hv)) hempty

/-- A criterion that names a variable, and a behavior with one default that has two options at
most. -/
def crowdedFile : CatalogFile where
  criteria := [{ Descriptor.bare "owner" with variableHandling := { names := ["to"] } }]
  behaviors := [{ Descriptor.bare "caching" with
    optionSchema := .object [("type", .string "object"), ("maxProperties", .int 2)]
    defaults := [("ttl", .string "1d")] }]

/-- A compiler that reads some files. -/
def reading (c : Catalog) (r : Registry) (texts : List (String × String)) : Compiler where
  catalog := c
  registry := r
  files := .ofTexts texts
  ruleFormat := defaultRuleFormat
  excerptWidth := 80
  sourceRoot := ⟨"."⟩

/-- The place in a program where the import is called for. -/
def firstSite : Site := ⟨"rules/site.rs", 3⟩

def isAcceptedText (schema : Schema) (text : String) : Bool :=
  (Json.read text).toOption.all fun document => schema.violation? document = none

/-- What is compiled from the import of one of some files, all of which are accepted. -/
structure Imported (texts : List (String × String)) (c : Catalog) (r : Registry) (schema : Schema)
    (t : RuleTree) (document : Document) : Prop where
  made : Catalog.ofFile crowdedFile = .ok c
  built : Registry.builtIn c defaultRuleFormat = .ok r
  found : r.find? defaultRuleFormat = some schema
  accepted : texts.all fun file => isAcceptedText schema file.2
  compiled : (reading c r texts).compile (importScript firstSite "top.json") = .ok (t, document)

/-- What `Imported` asks for, by evaluation. -/
def imported? (texts : List (String × String)) :
    Option (Catalog × Registry × Schema × RuleTree × Document) :=
  (Catalog.ofFile crowdedFile).toOption.bind fun c =>
    (Registry.builtIn c defaultRuleFormat).toOption.bind fun r =>
      (r.find? defaultRuleFormat).bind fun schema =>
        ((reading c r texts).compile (importScript firstSite "top.json")).toOption.bind
          fun (t, document) =>
            if texts.all fun file => isAcceptedText schema file.2 then
              some (c, r, schema, t, document) else none

theorem imported_of_imported? {texts : List (String × String)} {c : Catalog} {r : Registry}
    {schema : Schema} {t : RuleTree} {document : Document}
    (h : imported? texts = some (c, r, schema, t, document)) :
    Imported texts c r schema t document := by
  obtain ⟨c', hc, h⟩ := Option.bind_eq_some_iff.mp h
  obtain ⟨r', hr, h⟩ := Option.bind_eq_some_iff.mp h
  obtain ⟨schema', hschema, h⟩ := Option.bind_eq_some_iff.mp h
  obtain ⟨⟨t', document'⟩, hcompile, h⟩ := Option.bind_eq_some_iff.mp h
  obtain ⟨haccepted, h⟩ := Option.ite_none_right_eq_some.mp h
  cases h
  exact ⟨eq_ok_of_toOption hc, eq_ok_of_toOption hr, hschema, haccepted,
    eq_ok_of_toOption hcompile⟩

/-- All files are accepted, and so those on chains of includes are. -/
theorem Imported.accepts {texts : List (String × String)} {c : Catalog} {r : Registry}
    {schema : Schema} {t : RuleTree} {document : Document}
    (h : Imported texts c r schema t document) (path : Path) :
    (reading c r texts).Accepts schema path := by
  intro text value hfile hread
  have htext := List.all_eq_true.mp h.accepted _ (Files.mem_of_read_ofTexts hfile)
  simp only [isAcceptedText, hread] at htext
  exact of_decide_eq_true htext

/-- A file with an option beside the default, and the mention of a file that names a variable. -/
def sparseTexts : List (String × String) := [
  ("rules/top.json", "\x7b\"behaviors\": [" ++
    "\x7b\"name\": \"caching\", \"options\": \x7b\"stale\": true\x7d\x7d], " ++
    "\"children\": [\"#include:leaf.json\"]\x7d"),
  ("rules/leaf.json", "\x7b\"criteria\": [" ++
    "\x7b\"name\": \"owner\", \"options\": \x7b\"to\": \"v\"\x7d\x7d]\x7d")]

set_option maxRecDepth 20000 in
theorem compile_import_accepted_sparse :
    ∃ c r schema t document, Imported sparseTexts c r schema t document ∧
      t.declared.map (·.name) = ["v"] ∧ schema.violation? document.rules = none ∧
      (∀ kind use, t.HasUse kind use → c.Fills kind use) ∧
      (∀ v ∈ t.declared, IsVariable v.toJson) ∧
      ∀ kind use, t.HasUse kind use → c.AcceptsUse kind use := by
  have hok : (imported? sparseTexts).any (fun o =>
      o.2.2.2.1.declared.map (·.name) = ["v"] ∧ o.2.2.1.violation? o.2.2.2.2.rules = none ∧
        (o.1.criteria ++ o.1.behaviors).all (·.variableHandling.lists.isEmpty)) = true := by
    decide +kernel
  obtain ⟨⟨c, r, schema, t, document⟩, himported, hrest⟩ := (Option.any_eq_true _ _).mp hok
  obtain ⟨hnames, haccepted, hnone⟩ := of_decide_eq_true hrest
  have h := imported_of_imported? himported
  have hlists : ∀ kind use, t.HasUse kind use → ¬ c.ListsEmptyName kind use := by
    rintro kind use - ⟨d, option, items, hd, hoption, -⟩
    have hmem : d ∈ c.criteria ++ c.behaviors := by
      cases kind with
      | criteria => exact List.mem_append_left _ (Catalog.mem_of_find? hd).1
      | behavior => exact List.mem_append_right _ (Catalog.mem_of_find? hd).1
    rw [List.isEmpty_iff.mp (List.all_eq_true.mp hnone d hmem)] at hoption
    cases hoption
  obtain ⟨hfills, hvariables, hiff⟩ := compile_import_accepted (c := reading c r sparseTexts)
    (Catalog.isRegistered_ofFile h.made) h.built h.found (fun _ path _ => h.accepts path)
    h.compiled hlists
  exact ⟨c, r, schema, t, document, h, hnames, haccepted, hfills, hvariables, hiff.mp haccepted⟩

/-- A file with as many options as there may be, over which a default is put. -/
def crowdedTexts : List (String × String) := [
  ("rules/top.json", "\x7b\"behaviors\": [\x7b\"name\": \"caching\", " ++
    "\"options\": \x7b\"stale\": true, \"shared\": true\x7d\x7d]\x7d")]

set_option maxRecDepth 20000 in
/-- Accepted files may be imported into a document that is not accepted, because of a default. A
file with this document cannot be imported. -/
theorem compile_import_crowded :
    ∃ c r schema t document, c.IsRegistered ∧ Registry.builtIn c defaultRuleFormat = .ok r ∧
      r.find? defaultRuleFormat = some schema ∧
      (∀ path, (reading c r crowdedTexts).Accepts schema path) ∧
      (reading c r crowdedTexts).compile (importScript firstSite "top.json") = .ok (t, document) ∧
      schema.violation? document.rules ≠ none ∧
      ∀ result, (reading c r [("rules/again.json", document.rules.pretty)]).compile
        (importScript firstSite "again.json") ≠ .ok result := by
  have hok : (imported? crowdedTexts).any (fun o => o.2.2.1.violation? o.2.2.2.2.rules ≠ none ∧
      ((reading o.1 o.2.1 [("rules/again.json", o.2.2.2.2.rules.pretty)]).compile
        (importScript firstSite "again.json")).isOk = false) = true := by decide +kernel
  obtain ⟨⟨c, r, schema, t, document⟩, himported, hrest⟩ := (Option.any_eq_true _ _).mp hok
  obtain ⟨hrefused, hfails⟩ := of_decide_eq_true hrest
  have h := imported_of_imported? himported
  refine ⟨c, r, schema, t, document, Catalog.isRegistered_ofFile h.made, h.built, h.found,
    h.accepts, h.compiled, hrefused, fun result hresult => ?_⟩
  simp only [hresult] at hfails
  cases hfails

end Compiler

end DeliveryRules
