import DeliveryRules.Proofs.Fragment.Acceptance
import DeliveryRules.Proofs.Fragment.Conversion
import DeliveryRules.Proofs.Fragment.Refusals
import DeliveryRules.Proofs.Text.Cut

/-!
# What can still be refused of an accepted fragment

A fragment that fits its schema may name variables in options of the wrong type, use a kind of
capability of which there is none, and mention fragments that cannot be imported. Nothing else can
be wrong with it.

- **Rules** (`Json.SaysRule.isMarked`, `Json.SaysRule.isEntry`): what the grammar says of the
  children and the entries of a rule, by recursion on the rule.
- `Workshop.place_error_of_accepted`: an accepted document is loaded, and placed but for the causes
  above.
-/

namespace DeliveryRules

/-! ## Rules -/

namespace Grammar

variable {c : Catalog} {kind : Capability.Kind} {j : Json}

theorem IsMention.isSome_mentioned? {text : String} (h : IsMention text) :
    (Workshop.mentioned? text).isSome := by
  obtain ⟨first, rest, htext, -⟩ := h
  rw [Workshop.mentioned?, htext, Text.afterPrefix?_append]
  rfl

/-- What the items under one of three names are. -/
theorem IsRuleMember.items {name : String} (h : IsRuleMember c name j) :
    (name = "criteria" → ∀ i ∈ j.items, IsEntry c .criteria i) ∧
      (name = "behaviors" → ∀ i ∈ j.items, IsEntry c .behavior i) ∧
      (name = "children" → ∀ i ∈ j.items, IsChild c i) := by
  cases h with
  | text => exact ⟨fun _ => nofun, fun _ => nofun, fun _ => nofun⟩
  | matchPolicy => exact ⟨fun _ => nofun, fun _ => nofun, fun _ => nofun⟩
  | criteria h => exact ⟨fun _ => h, fun h => absurd h (by decide), fun h => absurd h (by decide)⟩
  | behaviors h => exact ⟨fun h => absurd h (by decide), fun _ => h, fun h => absurd h (by decide)⟩
  | declarations =>
    exact ⟨fun h => absurd h (by decide), fun h => absurd h (by decide),
      fun h => absurd h (by decide)⟩
  | children h => exact ⟨fun h => absurd h (by decide), fun h => absurd h (by decide), fun _ => h⟩

/-- What holds of the items of members holds of the items under their name. -/
theorem IsRule.itemsOf (h : IsRule c j) {name : String} {P : Json → Prop}
    (hmember : ∀ value, IsRuleMember c name value → ∀ i ∈ value.items, P i) :
    ∀ i ∈ j.itemsOf name, P i := by
  cases h with
  | @object members hmembers =>
    intro i hi
    rw [Json.itemsOf, Json.member?, Json.asObject?, Option.bind_some] at hi
    cases hget : Members.get? members name with
    | none =>
      rw [hget] at hi
      cases hi
    | some value =>
      rw [hget] at hi
      exact hmember value (hmembers _ (Members.mem_of_get? hget)) i hi

/-- The entries on the rule itself are entries of the grammar. -/
theorem IsRule.entries_saidBy (h : IsRule c j) {entry : FragmentEntry}
    (hmem : entry ∈ (FragmentHead.saidBy j).entries kind) :
    ∃ i, IsEntry c kind i ∧ entry = .saidBy i := by
  cases kind with
  | criteria =>
    obtain ⟨i, hi, rfl⟩ := List.mem_map.mp hmem
    exact ⟨i, h.itemsOf (fun value hvalue => hvalue.items.1 rfl) i hi, rfl⟩
  | behavior =>
    obtain ⟨i, hi, rfl⟩ := List.mem_map.mp hmem
    exact ⟨i, h.itemsOf (fun value hvalue => hvalue.items.2.1 rfl) i hi, rfl⟩

end Grammar

namespace Json

open Grammar

variable {c : Catalog} {kind : Capability.Kind}

mutual

/-- The texts among the children of an accepted rule have the mark. -/
theorem SaysRule.isMarked : ∀ (r : FragmentRule) {j : Json}, j.SaysRule r → IsRule c j → r.isMarked
  | .mk _ cs, _, .mk below, h =>
    allMarked_of_saysChild cs below (h.itemsOf fun _ hvalue => hvalue.items.2.2 rfl)

theorem allMarked_of_saysChild : ∀ (cs : List FragmentChild) {items : List Json},
    List.Forall₂ SaysChild items cs → (∀ i ∈ items, IsChild c i) → FragmentRule.allMarked cs
  | [], _, .nil, _ => rfl
  | child :: cs, _, .cons first rest, h => by
    rw [List.forall_mem_cons] at h
    rw [FragmentRule.allMarked, SaysChild.isMarkedChild child first h.1,
      allMarked_of_saysChild cs rest h.2]
    rfl

theorem SaysChild.isMarkedChild : ∀ (child : FragmentChild) {j : Json}, j.SaysChild child →
    IsChild c j → FragmentRule.isMarkedChild child
  | .mention text, _, .mention, h => by
    cases h with
    | mention h => exact h.isSome_mentioned?
    | rule h => cases h
  | .rule r, _, .rule hstated, h => by
    cases h with
    | mention _ => cases hstated
    | rule h => exact SaysRule.isMarked r hstated h

end

mutual

/-- The uses of capabilities in an accepted rule are entries of the grammar. -/
theorem SaysRule.isEntry {entry : FragmentEntry} : ∀ (r : FragmentRule) {j : Json},
    j.SaysRule r → IsRule c j → entry ∈ r.entries kind →
      ∃ i, IsEntry c kind i ∧ entry = .saidBy i
  | .mk _ cs, _, .mk below, h, hmem => by
    rw [FragmentRule.entries] at hmem
    rcases List.mem_append.mp hmem with hmem | hmem
    · exact h.entries_saidBy hmem
    · exact isEntry_of_saysChild cs below (h.itemsOf fun _ hvalue => hvalue.items.2.2 rfl) hmem

theorem isEntry_of_saysChild {entry : FragmentEntry} : ∀ (cs : List FragmentChild)
    {items : List Json}, List.Forall₂ SaysChild items cs → (∀ i ∈ items, IsChild c i) →
      entry ∈ FragmentRule.entriesIn kind cs → ∃ i, IsEntry c kind i ∧ entry = .saidBy i
  | child :: cs, _, .cons first rest, h, hmem => by
    rw [List.forall_mem_cons] at h
    rw [FragmentRule.entriesIn] at hmem
    rcases List.mem_append.mp hmem with hmem | hmem
    · exact SaysChild.isEntry child first h.1 hmem
    · exact isEntry_of_saysChild cs rest h.2 hmem

theorem SaysChild.isEntry {entry : FragmentEntry} : ∀ (child : FragmentChild) {j : Json},
    j.SaysChild child → IsChild c j → entry ∈ FragmentRule.entriesOf kind child →
      ∃ i, IsEntry c kind i ∧ entry = .saidBy i
  | .rule r, _, .rule hstated, h, hmem => by
    cases h with
    | mention _ => cases hstated
    | rule h => exact SaysRule.isEntry r hstated h hmem

end

end Json

/-- The options of an entry can be laid over the defaults of any capability. -/
theorem Grammar.IsEntry.resolve {c : Catalog} {kind : Capability.Kind} {j : Json}
    (h : IsEntry c kind j) (d : Descriptor) :
    ∃ options, d.resolve (FragmentEntry.saidBy j).options = .ok options := by
  cases h with
  | @object members hmembers _ _ =>
    rw [FragmentEntry.saidBy, Json.member?, Json.asObject?, Option.bind_some]
    cases hget : Members.get? members "options" with
    | none => exact ⟨_, rfl⟩
    | some value =>
      generalize hname : "options" = name at hget
      cases hmembers _ (Members.mem_of_get? hget) with
      | options => exact ⟨_, rfl⟩
      | _ => exact absurd hname (by decide)

/-- An entry has a name, which is that of a capability of the catalog unless there is none of its
kind. -/
theorem Grammar.IsEntry.get?_name {c : Catalog} {kind : Capability.Kind} {members : Members}
    (h : IsEntry c kind (.object members)) :
    ∃ text, Members.get? members "name" = some (.string text) ∧
      (c.descriptors kind = [] ∨ text ∈ (c.descriptors kind).map (·.name)) := by
  cases h with
  | object hmembers hname _ =>
    obtain ⟨value, hget⟩ := Members.has_iff.mp hname
    generalize hfield : "name" = field at hget
    cases hmembers _ (Members.mem_of_get? hget) with
    | name hknown => exact ⟨_, hget, hknown⟩
    | _ => exact absurd hfield (by decide)

theorem FragmentEntry.name_saidBy {members : Members} {text : String}
    (h : Members.get? members "name" = some (.string text)) :
    (saidBy (.object members)).name = text := by
  rw [saidBy, Json.memberString?, Json.member?, Json.asObject?, Option.bind_some, h]
  rfl

theorem Grammar.IsEntry.find? {c : Catalog} {kind : Capability.Kind} {j : Json}
    (h : IsEntry c kind j) (hnone : c.find? kind (FragmentEntry.saidBy j).name = none) :
    c.descriptors kind = [] := by
  have hobject := h
  cases hobject with
  | object =>
    obtain ⟨text, hget, hknown⟩ := h.get?_name
    rw [FragmentEntry.name_saidBy hget] at hnone
    refine hknown.resolve_right fun hmem => ?_
    obtain ⟨d, hd, hname⟩ := List.mem_map.mp hmem
    have hmiss := List.find?_eq_none.mp hnone d hd
    exact hmiss (decide_eq_true hname)

namespace Workshop

variable {w : Workshop} {version : String} {r : Registry} {schema : Schema} {s : Source}
  {document : Json}

/-- A document that the schema made from the catalog accepts is loaded, and each of its entries has
options that can be laid over defaults. Placing it fails only where an option in which a variable is
to be named is of the wrong type, where a capability is used of whose kind there is none, or with
the error of the import of a fragment that it mentions. -/
theorem place_error_of_accepted (hbuilt : Registry.builtIn w.catalog version = .ok r)
    (hschema : r.find? version = some schema) (hread : Json.read s.text = .ok document)
    (hfind : w.registry.find? (w.versionOf document) = some schema)
    (haccepted : schema.violation? document = none) :
    ∃ rule, FragmentRule.decode document = .ok rule ∧ w.load s = .ok rule ∧ rule.isMarked ∧
      (∀ kind, ∀ entry ∈ rule.entries kind, ∀ d : Descriptor,
        ∃ options, d.resolve entry.options = .ok options) ∧
      ∀ (f : List Path → Importer) chain parent way p t e,
        ((w.place (f chain) s rule parent way p).run t).1 = .error e →
          (∃ kind, ∃ entry ∈ rule.entries kind, ∃ d, w.catalog.find? kind entry.name = some d ∧
            d.Misuse e) ∨
          (∃ kind, ∃ entry ∈ rule.entries kind, e = .unknownCapability kind entry.name ∧
            w.catalog.descriptors kind = []) ∨
          ∃ q ∈ w.requests f chain s rule parent way p t, (q.run f).1 = .error e := by
  obtain rfl := Registry.eq_of_find?_builtIn hbuilt hschema
  have hrule := Catalog.violation?_ruleSchema.mp haccepted
  obtain ⟨rule, hdecode, hstated⟩ :=
    FragmentRule.decode_of_isRule hrule (Json.distinct_of_read hread)
  have hentry {kind : Capability.Kind} {entry : FragmentEntry} (h : entry ∈ rule.entries kind) :
      ∃ i, Grammar.IsEntry w.catalog kind i ∧ entry = .saidBy i := hstated.isEntry rule hrule h
  have hmarked := hstated.isMarked rule hrule
  refine ⟨rule, hdecode, ?_, hmarked, ?_, ?_⟩
  · rw [load, hread]
    simp only [Except.mapError, bind, Except.bind, hfind, haccepted, hdecode]
  · intro kind entry hmem d
    obtain ⟨i, hi, rfl⟩ := hentry hmem
    exact hi.resolve d
  · intro f chain parent way p t e herror
    rcases place_error rule herror with hrefuses | hrequest
    · cases hrefuses with
      | child h _ => cases hmarked.symm.trans h
      | @entry kind entry p hmem huse =>
        obtain ⟨i, hi, heq⟩ := hentry hmem
        rcases Catalog.use_eq_error huse with ⟨hnone, he⟩ | ⟨d, hd, hresolve | hmisuse⟩
        · exact .inr (.inl ⟨kind, entry, hmem, he, hi.find? (heq ▸ hnone)⟩)
        · obtain ⟨options, hok⟩ := hi.resolve d
          rw [heq, hok] at hresolve
          cases hresolve
        · exact .inl ⟨kind, entry, hmem, d, hd, hmisuse⟩
    · exact .inr (.inr hrequest)

/-- A fragment with an entry whose option names a variable and with a mention. -/
def sampleFragment : String :=
  "\x7b\"criteria\":[" ++
    "\x7b\"name\":\"matchVariable\",\"options\":\x7b\"variableName\":\"v\"\x7d\x7d]," ++
    "\"children\":[\"#include:b.json\"]\x7d"

set_option maxRecDepth 20000 in
theorem place_error_of_accepted_sample :
    ∃ c r document, Catalog.sample = .ok c ∧ Registry.builtIn c defaultRuleFormat = .ok r ∧
      Json.read sampleFragment = .ok document ∧
      let w : Workshop := ⟨c, r, .ofTexts [], defaultRuleFormat, 80⟩
      let s : Source := ⟨⟨"a.json"⟩, sampleFragment⟩
      ∃ rule, FragmentRule.decode document = .ok rule ∧ w.load s = .ok rule ∧ rule.isMarked ∧
        ∀ (f : List Path → Importer) e,
          ((w.place (f []) s rule 0 [] (.ofPath s.path)).run (.ofRoot {})).1 = .error e →
            (∃ kind, ∃ entry ∈ rule.entries kind, ∃ d, c.find? kind entry.name = some d ∧
              d.Misuse e) ∨
            (∃ kind, ∃ entry ∈ rule.entries kind, e = .unknownCapability kind entry.name ∧
              c.descriptors kind = []) ∨
            ∃ q ∈ w.requests f [] s rule 0 [] (.ofPath s.path) (.ofRoot {}),
              (q.run f).1 = .error e := by
  have hok : (Catalog.sample.toOption.bind fun c =>
      (Registry.builtIn c defaultRuleFormat).toOption.bind fun r =>
      (Json.read sampleFragment).toOption.bind fun document =>
      (r.find? defaultRuleFormat).bind fun schema =>
        if schema.violation? document = none ∧ document.memberString? "ruleFormat" = none then
          some () else none).isSome = true := by decide +kernel
  obtain ⟨_, hall⟩ := Option.isSome_iff_exists.mp hok
  obtain ⟨c, hc, hall⟩ := Option.bind_eq_some_iff.mp hall
  obtain ⟨r, hr, hall⟩ := Option.bind_eq_some_iff.mp hall
  obtain ⟨document, hdocument, hall⟩ := Option.bind_eq_some_iff.mp hall
  obtain ⟨schema, hschema, hall⟩ := Option.bind_eq_some_iff.mp hall
  obtain ⟨hv, hnone⟩ := (Option.ite_none_right_eq_some.mp hall).1
  have hbuilt := eq_ok_of_toOption hr
  have hread := eq_ok_of_toOption hdocument
  refine ⟨c, r, document, eq_ok_of_toOption hc, hbuilt, hread, ?_⟩
  intro w s
  have hversion : w.versionOf document = defaultRuleFormat := by
    rw [versionOf, hnone]
    rfl
  obtain ⟨rule, hdecode, hload, hmarked, -, hplace⟩ :=
    place_error_of_accepted (w := w) (s := s) hbuilt hschema hread (hversion ▸ hschema) hv
  exact ⟨rule, hdecode, hload, hmarked, fun f e => hplace f [] 0 [] (.ofPath s.path) (.ofRoot {}) e⟩

end Workshop

end DeliveryRules
