import DeliveryRules.Proofs.Fragment.Filled
import DeliveryRules.Proofs.Json.Printing

/-!
# Options that can be written down

What is read from a text can be written down again, and so can the defaults of a catalog. So the
options of every use of a capability can, if those that are given in a script can.

- **Decoders** (`RecordShape.decode_keeps`): what holds of a record without any field and is kept by
  every field holds of what is decoded. So the options in a fragment are parts of its document
  (`FragmentRule.legible_of_decode`).
- **Uses** (`Catalog.legible_of_use`): options laid over defaults are legible if both are.
- **Trees** (`RuleTree.Legible`): the options of all uses are. This is kept by an import, whatever
  becomes of it (`Workshop.importFile_legible`).
-/

namespace DeliveryRules

/-! ## Decoders -/

theorem Decoder.exists_of_listOf {α : Type} {item : Decoder α} {j : Json} {xs : List α}
    (h : listOf item j = .ok xs) {x : α} (hx : x ∈ xs) :
    ∃ items, j = .array items ∧ ∃ i ∈ items, item i = .ok x := by
  cases j with
  | array items => exact ⟨items, rfl, exists_of_mem_mapM h hx⟩
  | _ => cases h

/-- What holds of the record without any field and is kept by every field holds of the record. -/
theorem RecordShape.decode_keeps {α : Type} {s : RecordShape α} {P : α → Prop}
    (hput : ∀ x field j y, P x → j.Legible → s.put x field j = .ok y → P y) {blank : α}
    (hblank : P blank) {j : Json} (hj : j.Legible) {x : α} (h : s.decode blank j = .ok x) :
    P x := by
  cases j with
  | object members =>
    obtain ⟨-, hmembers⟩ := Json.legible_object.mp hj
    obtain ⟨y, hy, h⟩ := bind_eq_ok.mp h
    have hP : P y := by
      refine foldlM_keeps (fun m hm a b ha hab => ?_) hblank hy
      split at hab
      · exact hput a m.1 m.2 b ha (hmembers m hm) hab
      · cases hab
        exact ha
    split at h
    · cases h
    · cases h
      exact hP
  | array items =>
    have hitems := Json.legible_array.mp hj
    obtain ⟨y, hy, h⟩ := bind_eq_ok.mp h
    have hP : P y := foldlM_keeps
      (fun m hm a b ha hab => hput a m.1 m.2 b ha (hitems m.2 (List.of_mem_zip hm).2) hab) hblank hy
    simp only at h
    split at h
    · cases h
    · split at h
      · cases h
      · cases h
        exact hP
  | _ => cases h

theorem FragmentEntry.legible_of_decode {j : Json} (hj : j.Legible) {e : FragmentEntry}
    (h : decode j = .ok e) : e.options.Legible := by
  refine RecordShape.decode_keeps (s := shape) (P := fun e => e.options.Legible)
    (fun e field j y he hj hput => ?_) Json.legible_null hj h
  unfold shape at hput
  simp only at hput
  split at hput
  · obtain ⟨name, -, hput⟩ := bind_eq_ok.mp hput
    cases hput
    exact he
  · cases hput
    exact hj

/-- The options of all entries can be written down. -/
def FragmentHead.Legible (head : FragmentHead) : Prop :=
  ∀ e ∈ head.criteria ++ head.behaviors, e.options.Legible

theorem FragmentRule.heads_eq (r : FragmentRule) :
    r.heads = r.head :: FragmentChild.headsOfAll r.children := by
  cases r
  rfl

/-- What a fragment says of each of its rules. -/
def FragmentRule.Legible (r : FragmentRule) : Prop := ∀ head ∈ r.heads, head.Legible

theorem FragmentChild.mem_headsOfAll {cs : List FragmentChild} {head : FragmentHead}
    (h : head ∈ headsOfAll cs) : ∃ c ∈ cs, head ∈ c.heads := by
  induction cs with
  | nil => cases h
  | cons c cs ih =>
    rw [headsOfAll, List.mem_append] at h
    rcases h with h | h
    · exact ⟨c, List.mem_cons_self, h⟩
    · obtain ⟨c', hc', hhead⟩ := ih h
      exact ⟨c', List.mem_cons_of_mem _ hc', hhead⟩

namespace FragmentRule

theorem legible_iff {r : FragmentRule} :
    r.Legible ↔ r.head.Legible ∧ ∀ head ∈ FragmentChild.headsOfAll r.children, head.Legible := by
  rw [Legible, heads_eq, List.forall_mem_cons]

/-- A child is a mention, which says nothing of rules itself, or a rule. -/
theorem legible_of_decodeChild {rule : Decoder FragmentRule}
    (hrule : ∀ j r, j.Legible → rule j = .ok r → r.Legible) {j : Json} {c : FragmentChild}
    (hj : j.Legible) (h : decodeChild rule j = .ok c) : ∀ head ∈ c.heads, head.Legible := by
  unfold decodeChild at h
  split at h
  · cases h
    exact fun _ hhead => absurd hhead List.not_mem_nil
  · split at h
    · rename_i below hbelow
      cases h
      exact hrule j below hj hbelow
    · cases h

/-- Every field is a part of the document. -/
theorem legible_of_put {rule : Decoder FragmentRule}
    (hrule : ∀ j r, j.Legible → rule j = .ok r → r.Legible) {r r' : FragmentRule} {field : String}
    {j : Json} (hr : r.Legible) (hj : j.Legible) (h : (shape rule).put r field j = .ok r') :
    r'.Legible := by
  have hentries {entries : List FragmentEntry}
      (h : Decoder.listOf FragmentEntry.decode j = .ok entries) :
      ∀ e ∈ entries, e.options.Legible := fun e he => by
    obtain ⟨items, rfl, i, hi, hdecode⟩ := Decoder.exists_of_listOf h he
    exact FragmentEntry.legible_of_decode (Json.legible_array.mp hj i hi) hdecode
  rw [legible_iff] at hr
  obtain ⟨hhead, hbelow⟩ := hr
  have hnew {head : FragmentHead} (hcriteria : ∀ e ∈ head.criteria, e.options.Legible)
      (hbehaviors : ∀ e ∈ head.behaviors, e.options.Legible) :
      FragmentRule.Legible (.mk head r.children) :=
    legible_iff.mpr ⟨List.forall_mem_append.mpr ⟨hcriteria, hbehaviors⟩, hbelow⟩
  have hold := List.forall_mem_append.mp hhead
  simp only [shape] at h
  split at h
  · obtain ⟨_, -, h⟩ := bind_eq_ok.mp h
    cases h
    exact hnew hold.1 hold.2
  · obtain ⟨_, -, h⟩ := bind_eq_ok.mp h
    cases h
    exact hnew hold.1 hold.2
  · obtain ⟨_, -, h⟩ := bind_eq_ok.mp h
    cases h
    exact hnew hold.1 hold.2
  · obtain ⟨entries, hlist, h⟩ := bind_eq_ok.mp h
    cases h
    exact hnew (hentries hlist) hold.2
  · obtain ⟨entries, hlist, h⟩ := bind_eq_ok.mp h
    cases h
    exact hnew hold.1 (hentries hlist)
  · obtain ⟨_, -, h⟩ := bind_eq_ok.mp h
    cases h
    exact hnew hold.1 hold.2
  · obtain ⟨children, hlist, h⟩ := bind_eq_ok.mp h
    cases h
    refine legible_iff.mpr ⟨hhead, fun head hmem => ?_⟩
    obtain ⟨c, hc, hhead⟩ := FragmentChild.mem_headsOfAll hmem
    obtain ⟨items, rfl, i, hi, hdecode⟩ := Decoder.exists_of_listOf hlist hc
    exact legible_of_decodeChild hrule (Json.legible_array.mp hj i hi) hdecode head hhead

/-- The options in a fragment are parts of its document. -/
theorem legible_of_decode {j : Json} (hj : j.Legible) {r : FragmentRule} (h : decode j = .ok r) :
    r.Legible := by
  unfold decode at h
  generalize j.depth + 1 = fuel at h
  induction fuel generalizing j r with
  | zero => cases h
  | succ fuel ih =>
    refine RecordShape.decode_keeps (fun _ _ _ _ hr hj hput => ?_) ?_ hj h
    · exact legible_of_put (fun j r hj hdecode => ih hj hdecode) hr hj hput
    · exact legible_iff.mpr ⟨nofun, nofun⟩

end FragmentRule

theorem Workshop.legible_of_load {w : Workshop} {s : Source} {r : FragmentRule}
    (h : w.load s = .ok r) : r.Legible := by
  obtain ⟨document, hread, h⟩ := bind_eq_ok.mp h
  have hdocument := Json.legible_of_read (mapError_eq_ok.mp hread)
  simp only at h
  split at h
  · cases h
  · split at h
    · cases h
    · exact FragmentRule.legible_of_decode hdocument (mapError_eq_ok.mp h)

/-! ## Uses -/

/-- The options can be written down. -/
def Capability.Legible (use : Capability) : Prop := (Json.object use.options).Legible

/-- All defaults can be written down. -/
def Catalog.Legible (c : Catalog) : Prop :=
  ∀ kind, ∀ d ∈ c.descriptors kind, (Json.object d.defaults).Legible

theorem Json.legible_merge {base upper : Members} (hbase : (Json.object base).Legible)
    (hupper : (Json.object upper).Legible) : (Json.object (Members.merge base upper)).Legible := by
  rw [legible_object] at hbase hupper ⊢
  refine ⟨Members.nodup_merge hbase.1 upper, fun m hm => ?_⟩
  rcases Members.mem_merge hm with hm | hm
  · exact hbase.2 m hm
  · exact hupper.2 m hm

theorem Catalog.legible_of_use {c : Catalog} (hc : c.Legible) {kind : Capability.Kind}
    {name : String} {given : Json} (hgiven : given.Legible) {p : Provenance} {u : Use}
    (h : c.use kind name given p = .ok u) : u.1.Legible := by
  obtain ⟨d, hd, hresolve, -⟩ := Catalog.use_eq_ok h
  have hdefaults := hc kind d (Catalog.mem_of_find? hd).1
  rw [Capability.Legible]
  obtain ⟨-, hoptions⟩ | ⟨upper, rfl, hoptions⟩ := Descriptor.resolve_eq_ok hresolve
  · exact hoptions ▸ hdefaults
  · exact hoptions ▸ Json.legible_merge hdefaults hgiven

/-! ## Trees -/

/-- The options of the uses on a rule can be written down. -/
def Rule.Legible (r : Rule) : Prop := ∀ kind, ∀ use ∈ r.uses kind, use.Legible

namespace RuleTree

/-- The options of all uses can be written down. -/
def Legible (t : RuleTree) : Prop := ∀ n ∈ t.nodes, n.rule.Legible

variable {t : RuleTree}

theorem Legible.insert (h : t.Legible) (parent : RuleId) {r : Rule} (hr : r.Legible) :
    (t.insert parent r).Legible := fun n hn => by
  rcases mem_nodes_insert hn with hnew | ⟨old, hold, hsame⟩
  · exact hnew ▸ hr
  · exact hsame ▸ h old hold

theorem Legible.change (h : t.Legible) (id : RuleId) {f : Rule → Rule}
    (hf : ∀ r, r.Legible → (f r).Legible) : (t.change id f).Legible := fun n hn => by
  obtain ⟨old, hold, hsame | hchanged⟩ := mem_nodes_change hn
  · exact hsame ▸ h old hold
  · exact hchanged ▸ hf _ (h old hold)

end RuleTree

theorem Rule.legible_of_criteria {r : Rule} (hcriteria : ∀ use ∈ r.criteria, use.Legible)
    (hbehaviors : r.behaviors = []) : r.Legible :=
  forall_uses_of_criteria hcriteria hbehaviors

theorem Rule.Legible.addCriterion {r : Rule} (h : r.Legible) {use : Capability}
    (huse : use.Legible) : (r.addCriterion use).Legible :=
  forall_uses_addCriterion h huse

theorem Rule.Legible.addBehavior {r : Rule} (h : r.Legible) {use : Capability}
    (huse : use.Legible) : (r.addBehavior use).Legible :=
  forall_uses_addBehavior h huse

namespace Workshop

variable {w : Workshop}

theorem capability_legible {α : Type} (hw : w.catalog.Legible) (kind : Capability.Kind)
    (name : String) {given : Json} (hgiven : given.Legible) (p : Provenance)
    {f : Capability → Build α} (hf : ∀ use, use.Legible → (f use).Keeps RuleTree.Legible) :
    (w.capability kind name given p >>= f).Keeps RuleTree.Legible := by
  refine capability_bind_keeps fun u t huse ht => ?_
  refine hf u.1 (Catalog.legible_of_use hw hgiven huse) _ ?_
  rwa [RuleTree.Legible, RuleTree.nodes_declareFound]

theorem placeEntries_legible (hw : w.catalog.Legible) (s : Source) (kind : Capability.Kind)
    (way : List String) {entries : List FragmentEntry}
    (hentries : ∀ e ∈ entries, e.options.Legible) {put : Capability → Rule → Rule}
    (hput : ∀ (r : Rule) (use : Capability), r.Legible → use.Legible → (put use r).Legible)
    (id : RuleId) : (w.placeEntries s kind way entries put id).Keeps RuleTree.Legible := by
  refine Build.keeps_forM fun (e, i) he => ?_
  have hoptions := hentries e (List.fst_mem_of_mem_zipIdx he)
  exact capability_legible hw _ _ hoptions _ fun use huse t ht =>
    ht.change id fun r hr => hput r use hr huse

theorem placeHead_legible (hw : w.catalog.Legible) (s : Source) {head : FragmentHead}
    (hhead : head.Legible) : w.KeepsHead RuleTree.Legible s head := by
  rw [FragmentHead.Legible, List.forall_mem_append] at hhead
  refine placeHead_keeps (fun t parent p ht => ?_) (fun _ _ ht => ht) (fun _ _ => ?_)
    (fun _ _ => ?_)
  · exact ht.insert parent (Rule.legible_of_criteria nofun rfl)
  · exact placeEntries_legible hw s .criteria _ hhead.1 (fun _ _ hr huse => hr.addCriterion huse) _
  · exact placeEntries_legible hw s .behavior _ hhead.2 (fun _ _ hr huse => hr.addBehavior huse) _

/-- Whatever becomes of an import, the options of all uses can be written down. -/
theorem importFile_legible (hw : w.catalog.Legible) (directory : Path) (parent : RuleId)
    (expression : String) : (w.importFile directory parent expression).Keeps RuleTree.Legible :=
  importFile_keeps (fun s _ hload _ hhead => placeHead_legible hw s (legible_of_load hload _ hhead))
    _ _ _

end Workshop

end DeliveryRules
