import DeliveryRules.Proofs.Schema.Grounded
import Mathlib.Data.Finset.Card

/-!
# The search for unsound parts comes to an end

A schema is searched part by part, and what references lead to is searched in the same way. Each
reference is followed once, so this ends also where schemas refer to themselves.

- **Local references** (`IsLocal`): they lead to what stands in the schema (`contains_of_reaches`).
  Other references name a draft.
- **Unmet references** (`unmet`): with every reference that is followed there is one less.
- `sound_eq_of_le`: the bound that schemas are searched with is not reached where all references are
  local, so no larger one finds more.
-/

namespace DeliveryRules.Schema

/-! ## Local references -/

section Local

variable {s t : Scope} {text : String} {j k : Json}

theorem contains_of_follow {tokens : List String} (h : Reference.follow j tokens = some k) :
    j.Contains k := by
  induction tokens generalizing j with
  | nil =>
    cases h
    exact .self _
  | cons token tokens ih =>
    rw [Reference.follow] at h
    split at h
    · rename_i next hnext
      exact (Json.contains_of_step? hnext).trans (ih h)
    · cases h

mutual

theorem contains_of_marked? : ∀ {j : Json}, Reference.marked? text j = some k → j.Contains k
  | .object members, h => by
    rw [Reference.marked?] at h
    split at h
    · cases h
      exact .self _
    · obtain ⟨m, hmem, hm⟩ := exists_of_marked?_inMembers h
      exact .member hmem hm
  | .array items, h => by
    obtain ⟨item, hmem, hitem⟩ := exists_of_marked?_inItems h
    exact .item hmem hitem

theorem exists_of_marked?_inItems : ∀ {items : List Json},
    Reference.marked?.inItems text items = some k → ∃ item ∈ items, item.Contains k
  | item :: items, h => by
    rcases Option.or_eq_some_iff.mp h with h | ⟨-, h⟩
    · exact ⟨item, List.mem_cons_self, contains_of_marked? h⟩
    · obtain ⟨item', hmem, hitem⟩ := exists_of_marked?_inItems h
      exact ⟨item', List.mem_cons_of_mem _ hmem, hitem⟩

theorem exists_of_marked?_inMembers : ∀ {members : Members},
    Reference.marked?.inMembers text members = some k → ∃ m ∈ members, m.2.Contains k
  | (name, j) :: members, h => by
    rcases Option.or_eq_some_iff.mp h with h | ⟨-, h⟩
    · exact ⟨(name, j), List.mem_cons_self, contains_of_marked? h⟩
    · obtain ⟨m, hmem, hm⟩ := exists_of_marked?_inMembers h
      exact ⟨m, List.mem_cons_of_mem _ hmem, hm⟩

end

theorem contains_of_lookup (h : s.lookup text = .ok (t, k)) (hlocal : Draft.ofUri? text = none) :
    t.whole = s.whole ∧ s.whole.Contains k := by
  unfold Scope.lookup at h
  simp only at h
  split at h
  · cases h
    exact ⟨rfl, .self _⟩
  · cases h
    exact ⟨rfl, .self _⟩
  · split at h
    · rename_i hfollow
      cases h
      exact ⟨rfl, contains_of_follow hfollow⟩
    · cases h
  · split at h
    · rename_i hmarked
      cases h
      exact ⟨rfl, contains_of_marked? hmarked⟩
    · cases h
  · rw [hlocal] at h
    cases h

/-- The references among the members of a schema do not name a draft. -/
def IsLocal (schema : Json) : Prop :=
  ∀ members text, schema = .object members → ("$ref", Json.string text) ∈ members →
    Draft.ofUri? text = none

/-- By local references a schema reaches only what stands in it. -/
theorem contains_of_reaches {d : Draft} {b : Scope × Json}
    (hlocal : ∀ b, Reaches (Scope.top j d, j) b → IsLocal b.2)
    (hb : Reaches (Scope.top j d, j) b) : j.Contains b.1.whole ∧ j.Contains b.2 := by
  induction hb with
  | refl => exact ⟨.self _, .self _⟩
  | @tail a b ha hasks ih =>
    obtain ⟨members, hschema, ⟨text, hmem, hlookup⟩ | ⟨hmem, hscope⟩⟩ := hasks
    · have hwhole := contains_of_lookup hlookup (hlocal a ha members text hschema hmem)
      exact ⟨hwhole.1 ▸ ih.1, ih.1.trans hwhole.2⟩
    · have hinside : j.Contains b.2 := by
        rw [hschema] at ih
        exact ih.2.trans (contains_of_nested hmem)
      refine ⟨?_, hinside⟩
      rw [hscope, Scope.nested]
      split
      · exact hinside
      · exact ih.1

end Local

/-! ## Unmet references -/

section Search

variable {names : Finset String} {met met' x : List String} {text : String}

/-- How many of the references are yet to be followed. -/
def unmet (names : Finset String) (met : List String) : Nat := (names \ met.toFinset).card

theorem unmet_le (h : met ⊆ met') : unmet names met' ≤ unmet names met := by
  refine Finset.card_le_card (Finset.sdiff_subset_sdiff (Finset.Subset.refl _) fun text ht => ?_)
  rw [List.mem_toFinset] at ht ⊢
  exact h ht

theorem unmet_lt (h : text ∈ names) (hnew : text ∉ met) :
    unmet names (text :: met) < unmet names met := by
  rw [unmet, List.toFinset_cons, Finset.sdiff_insert]
  refine Finset.card_erase_lt_of_mem (Finset.mem_sdiff.mpr ⟨h, ?_⟩)
  rwa [List.mem_toFinset]

/-- What the search does with one part of a schema. -/
def soundPart (fuel : Nat) (s : Scope) (met : List String) :
    Part → Except SchemaFault (List String)
  | .schema j => sound fuel (s.nested j) j met
  | .pattern text blamed =>
    if (Pattern.parse? text).isSome then .ok met else .error (.badPattern blamed)
  | .reference text =>
    if met.contains text then .ok met
    else
      match s.lookup text with
      | .ok (t, target) => sound fuel t target (text :: met)
      | .error cause => .error (.deadReference cause)

theorem sound_object (fuel : Nat) (s : Scope) (members : Members) :
    sound (fuel + 1) s (.object members) met =
      ((conditions s.draft members).flatMap fun m => partsOf s.draft members m.1 m.2).foldlM
        (soundPart fuel s) met := by
  rw [sound]
  congr

/-- References that were met stay so, with one part if with all schemas. -/
theorem subset_of_soundPart {fuel : Nat} {s : Scope} {part : Part}
    (hsound : ∀ {s j met x}, sound fuel s j met = .ok x → met ⊆ x)
    (h : soundPart fuel s met part = .ok x) : met ⊆ x := by
  cases part with
  | schema j => exact hsound h
  | pattern text blamed =>
    rw [soundPart] at h
    split at h
    · cases h
      exact List.Subset.refl _
    · cases h
  | reference text =>
    rw [soundPart] at h
    split at h
    · cases h
      exact List.Subset.refl _
    · split at h
      · exact List.Subset.trans (List.subset_cons_self _ _) (hsound h)
      · cases h

theorem subset_of_sound {fuel : Nat} {s : Scope} {j : Json} (h : sound fuel s j met = .ok x) :
    met ⊆ x := by
  induction fuel generalizing s j met x with
  | zero =>
    cases h
    exact List.Subset.refl _
  | succ fuel ih =>
    cases j with
    | object members =>
      rw [sound_object] at h
      refine foldlM_keeps (P := (met ⊆ ·)) (fun part _ a y ha hy => ?_) (List.Subset.refl _) h
      exact List.Subset.trans ha (subset_of_soundPart ih hy)
    | _ =>
      cases h
      exact List.Subset.refl _

theorem mem_of_mem_partsOf {d : Draft} {members : Members} {part : Part}
    (h : part ∈ (conditions d members).flatMap fun m => partsOf d members m.1 m.2) :
    match part with
    | .schema j => j ∈ nestedSchemas members
    | .pattern _ _ => True
    | .reference text => ("$ref", Json.string text) ∈ members := by
  obtain ⟨⟨keyword, operand⟩, hcounts, hpart⟩ := List.mem_flatMap.mp h
  have hmem := mem_of_mem_conditions hcounts
  by_cases hne : keyword = "$ref"
  · subst hne
    cases operand with
    | string text =>
      obtain rfl := List.mem_singleton.mp hpart
      exact hmem
    | _ => cases hpart
  · have hinside := isInside_of_partsOf hmem hne hpart
    cases part with
    | schema j => exact hinside
    | pattern text blamed => trivial
    | reference text => exact hinside.elim

/-- The search has come to its end within a bound that leaves, for each reference that is yet to be
followed, room for the largest schema. -/
theorem sound_eq_of_unmet {root a : Scope × Json} {largest fuel fuel' : Nat}
    (hnames : ∀ b, Reaches root b → ∀ members text, b.2 = .object members →
      ("$ref", Json.string text) ∈ members → text ∈ names)
    (hlargest : ∀ b, Reaches root b → b.2.size ≤ largest) (ha : Reaches root a)
    (hfuel : a.2.size + largest * unmet names met ≤ fuel)
    (hfuel' : a.2.size + largest * unmet names met ≤ fuel') :
    sound fuel a.1 a.2 met = sound fuel' a.1 a.2 met := by
  induction fuel generalizing a met fuel' with
  | zero => exact absurd (size_pos a.2) (by omega)
  | succ fuel ih =>
    cases fuel' with
    | zero => exact absurd (size_pos a.2) (by omega)
    | succ fuel' =>
      obtain ⟨s, schema⟩ := a
      cases schema with
      | object members =>
        rw [sound_object, sound_object]
        refine foldlM_congr_of_keeps (P := (met ⊆ ·)) (fun part hpart met' hmet' => ?_)
          (fun part _ met' x hmet' hx =>
            List.Subset.trans hmet' (subset_of_soundPart subset_of_sound hx))
          (List.Subset.refl _)
        have hpart := mem_of_mem_partsOf hpart
        have hunmet : largest * unmet names met' ≤ largest * unmet names met :=
          Nat.mul_le_mul_left _ (unmet_le hmet')
        cases part with
        | schema j =>
          have hsize := size_lt_of_nested hpart
          exact ih (a := (s.nested j, j)) (ha.tail ⟨members, rfl, .inr ⟨hpart, rfl⟩⟩)
            (by simp only at hfuel ⊢; omega) (by simp only at hfuel' ⊢; omega)
        | pattern text blamed => rfl
        | reference text =>
          rw [soundPart, soundPart]
          split
          · rfl
          · rename_i hnew
            split
            · rename_i t target hlookup
              have hreaches : Reaches root (t, target) :=
                ha.tail ⟨members, rfl, .inl ⟨text, hpart, hlookup⟩⟩
              have hsize : target.size ≤ largest := hlargest _ hreaches
              have hless :
                  largest * (unmet names (text :: met') + 1) ≤ largest * unmet names met' :=
                Nat.mul_le_mul_left _
                  (unmet_lt (hnames _ ha members text rfl hpart) (by simpa using hnew))
              rw [Nat.mul_succ] at hless
              have hpos := size_pos (.object members)
              exact ih (a := (t, target)) hreaches (by simp only at hfuel ⊢; omega)
                (by simp only at hfuel' ⊢; omega)
            · rfl
      | _ => rfl

/-- A schema whose references are local is searched to the end. -/
theorem sound_eq_of_le {j : Json} {d : Draft} {fuel : Nat}
    (hlocal : ∀ b, Reaches (Scope.top j d, j) b → IsLocal b.2)
    (hfuel : (j.size + 1) * (j.size + 1) ≤ fuel) :
    sound fuel (Scope.top j d) j [] =
      sound ((j.size + 1) * (j.size + 1)) (Scope.top j d) j [] := by
  have hinside {b : Scope × Json} (hb : Reaches (Scope.top j d, j) b) : j.Contains b.2 :=
    (contains_of_reaches hlocal hb).2
  have hcard : unmet j.texts.toFinset [] ≤ j.size :=
    Nat.le_trans (Finset.card_le_card Finset.sdiff_subset)
      (Nat.le_trans (List.toFinset_card_le _) j.length_texts_le)
  have hroom : j.size + j.size * unmet j.texts.toFinset [] ≤ (j.size + 1) * (j.size + 1) := calc
    j.size + j.size * unmet j.texts.toFinset []
    _ ≤ j.size + j.size * j.size := Nat.add_le_add_left (Nat.mul_le_mul_left _ hcard) _
    _ ≤ (j.size + 1) * (j.size + 1) := by
      rw [Nat.add_mul, Nat.mul_add]
      omega
  have hnames : ∀ b, Reaches (Scope.top j d, j) b → ∀ members text, b.2 = .object members →
      ("$ref", Json.string text) ∈ members → text ∈ j.texts.toFinset := by
    intro b hb members text hschema hmem
    rw [List.mem_toFinset]
    refine Json.mem_texts_of_contains ((hinside hb).trans ?_)
    rw [hschema]
    exact .member hmem (.self _)
  exact sound_eq_of_unmet (a := (Scope.top j d, j)) hnames (fun b hb => (hinside hb).size_le) .refl
    (Nat.le_trans hroom hfuel) hroom

end Search

end DeliveryRules.Schema
