import DeliveryRules.Capability.Reference
import DeliveryRules.Proofs.Except
import DeliveryRules.Proofs.Text.Cut
import Mathlib.Data.List.Nodup
import Mathlib.Data.List.Perm.Basic
import Mathlib.Data.List.TakeWhile

/-!
# The names that options refer to

- **Texts** (`ReferenceAt`): where a text has references (`referenceHere?_eq_some`). The search goes
  on after the end of what it has found and still finds each of them
  (`inlineReferences_eq_everyReference`).
- **Values** (`Occurrence`, `IsListing`): the references in the strings of a value, in their order.
- **Options** (`Descriptor.misfits`): the options that are not what they have to be.
- `Descriptor.references_iff`: when there are names, and which.
-/

namespace DeliveryRules

/-! ## Texts -/

/-- After the first `offset` characters of the text there is a reference to `name`. The name is as
long as it can be, since no character of a name comes right before or after it. -/
def ReferenceAt (text : String) (offset : Nat) (name : String) : Prop :=
  name ≠ "" ∧ (∀ c ∈ name.toList, isNameChar c) ∧
    ∃ before after : String, before.length = offset ∧
      text = before ++ "\x7b\x7buser." ++ name ++ "\x7d\x7d" ++ after

theorem referenceHere?_eq_some {cs name : List Char} :
    referenceHere? cs = some name ↔ name ≠ [] ∧ (∀ c ∈ name, isNameChar c) ∧
      ∃ after, cs = referenceOpening ++ name ++ referenceClosing ++ after := by
  constructor
  · intro h
    obtain ⟨rest, hrest, h⟩ := Option.bind_eq_some_iff.mp h
    obtain ⟨after, hafter, h⟩ := Option.bind_eq_some_iff.mp h
    rw [Text.afterPrefix?_eq_some] at hrest hafter
    split at h
    · cases h
    · rename_i hname
      cases h
      refine ⟨fun heq => hname (List.isEmpty_iff.mpr heq), fun _ => List.mem_takeWhile_imp, after,
        ?_⟩
      rw [hrest, List.append_assoc, List.append_assoc, ← hafter, List.takeWhile_append_dropWhile]
  · rintro ⟨hne, hname, after, rfl⟩
    -- The closing ends the run of characters that a name may have.
    have htake : (name ++ (referenceClosing ++ after)).takeWhile isNameChar = name := by
      rw [List.takeWhile_append_of_pos hname]
      exact List.append_nil name
    have hdrop : (name ++ (referenceClosing ++ after)).dropWhile isNameChar =
        referenceClosing ++ after := by
      rw [List.dropWhile_append_of_pos hname]
      rfl
    rw [referenceHere?, List.append_assoc, List.append_assoc, Text.afterPrefix?_append]
    simp only [Option.bind_eq_bind, Option.bind_some, htake, hdrop, Text.afterPrefix?_append]
    rw [if_neg (by simpa using hne)]

/-- What stands at a reference in a list of characters. -/
theorem referenceAt_zero {cs : List Char} {name : String} :
    ReferenceAt (String.ofList cs) 0 name ↔ referenceHere? cs = some name.toList := by
  rw [referenceHere?_eq_some, ReferenceAt]
  refine and_congr ?_ (and_congr_right fun _ => ⟨?_, ?_⟩)
  · rw [ne_eq, ne_eq, String.toList_eq_nil_iff]
  · rintro ⟨before, after, hlength, htext⟩
    obtain rfl : before = "" := String.length_eq_zero_iff.mp hlength
    refine ⟨after.toList, ?_⟩
    rw [← String.toList_inj] at htext
    simpa [referenceOpening, referenceClosing] using htext
  · rintro ⟨after, rfl⟩
    refine ⟨"", String.ofList after, rfl, ?_⟩
    rw [← String.toList_inj]
    simp [referenceOpening, referenceClosing]

theorem referenceAt_succ {c : Char} {cs : List Char} {offset : Nat} {name : String} :
    ReferenceAt (String.ofList (c :: cs)) (offset + 1) name ↔
      ReferenceAt (String.ofList cs) offset name := by
  refine and_congr_right fun _ => and_congr_right fun _ => ⟨?_, ?_⟩
  · rintro ⟨before, after, hlength, htext⟩
    rw [← String.length_toList] at hlength
    obtain ⟨first, rest, hbefore⟩ : ∃ first rest, before.toList = first :: rest :=
      List.exists_cons_of_length_eq_add_one hlength
    rw [hbefore] at hlength
    refine ⟨String.ofList rest, after, by simpa using hlength, ?_⟩
    rw [← String.toList_inj] at htext ⊢
    simp only [String.toList_ofList, String.toList_append, hbefore, List.cons_append,
      List.cons.injEq] at htext ⊢
    exact htext.2
  · rintro ⟨before, after, hlength, htext⟩
    refine ⟨String.ofList (c :: before.toList), after, by simp [hlength, Nat.add_comm], ?_⟩
    rw [← String.toList_inj] at htext ⊢
    simpa using htext

/-! ### Searches that look at every character -/

theorem referenceHere?_eq_none {cs : List Char} (h : ¬ ['\x7b', '\x7b'] <+: cs) :
    referenceHere? cs = none := by
  refine Option.eq_none_iff_forall_ne_some.mpr fun name hname => ?_
  obtain ⟨-, -, after, rfl⟩ := referenceHere?_eq_some.mp hname
  exact h ⟨_, rfl⟩

/-- The names that are found if the search looks at every character. -/
def everyReference : List Char → List String
  | [] => []
  | c :: cs => ((referenceHere? (c :: cs)).map String.ofList).toList ++ everyReference cs

theorem everyReference_append {skipped : List Char} (h : ∀ c ∈ skipped, c ≠ '\x7b')
    (cs : List Char) : everyReference (skipped ++ cs) = everyReference cs := by
  induction skipped with
  | nil => rfl
  | cons c skipped ih =>
    rw [List.forall_mem_cons] at h
    have hnone : referenceHere? (c :: (skipped ++ cs)) = none :=
      referenceHere?_eq_none fun hprefix => h.1 (List.cons_prefix_cons.mp hprefix).1.symm
    rw [List.cons_append, everyReference, hnone]
    exact ih h.2

theorem referencesAfter_eq_drop (skip : Nat) (cs : List Char) :
    referencesAfter skip cs = inlineReferences (cs.drop skip) := by
  induction skip generalizing cs with
  | zero => rfl
  | succ skip ih =>
    cases cs with
    | nil => rfl
    | cons c cs => exact ih cs

/-- No reference begins within another one, so nothing is missed by going on after its end. -/
theorem inlineReferences_eq_everyReference (cs : List Char) :
    inlineReferences cs = everyReference cs := by
  induction hn : cs.length using Nat.strongRecOn generalizing cs with
  | ind n ih =>
    cases cs with
    | nil => rfl
    | cons c rest =>
      subst hn
      rw [inlineReferences, referencesAfter, everyReference]
      cases hname : referenceHere? (c :: rest) with
      | none => exact ih _ (Nat.lt_succ_self _) rest rfl
      | some name =>
        obtain ⟨-, hchars, after, heq⟩ := referenceHere?_eq_some.mp hname
        -- What is left of the reference after its first character.
        let inner := ['u', 's', 'e', 'r', '.'] ++ name ++ referenceClosing
        obtain ⟨rfl, rfl⟩ : c = '\x7b' ∧ rest = '\x7b' :: (inner ++ after) := by
          simpa [inner, referenceOpening] using heq
        have hlength : inner.length = name.length + 7 := by
          simp [inner, referenceClosing]
        have hdrop : ('\x7b' :: (inner ++ after)).drop (name.length + 8) = after :=
          List.drop_left' hlength
        have hopening : ∀ d ∈ ['u', 's', 'e', 'r', '.'], d ≠ '\x7b' := by simp
        have hclosing : ∀ d ∈ referenceClosing, d ≠ '\x7b' := by simp [referenceClosing]
        have hwithin : ∀ d ∈ name, d ≠ '\x7b' := by
          rintro d hd rfl
          exact absurd (hchars _ hd) (by decide)
        have hinner : ∀ d ∈ inner, d ≠ '\x7b' :=
          List.forall_mem_append.mpr ⟨List.forall_mem_append.mpr ⟨hopening, hwithin⟩, hclosing⟩
        have hsecond : referenceHere? ('\x7b' :: (inner ++ after)) = none :=
          referenceHere?_eq_none fun hprefix =>
            absurd (List.cons_prefix_cons.mp (List.cons_prefix_cons.mp hprefix).2).1 (by decide)
        have hshorter : after.length < ('\x7b' :: '\x7b' :: (inner ++ after)).length := by
          simp only [List.length_cons, List.length_append]
          omega
        simp only [Option.map_some, Option.toList_some, List.singleton_append]
        rw [referencesAfter_eq_drop, hdrop, ih _ hshorter after rfl, everyReference, hsecond]
        exact congrArg _ (everyReference_append hinner after).symm

/-- References that are broken off, of another kind, in further braces, and without a name. -/
example : inlineReferences
    ("\x7b\x7buser.\x7b\x7buser.a\x7d\x7d\x7b\x7bbuiltin.b\x7d\x7d" ++
      "\x7b\x7b\x7buser.c_1\x7d\x7d\x7d\x7b\x7buser.\x7d\x7d").toList = ["a", "c_1"] := by
  decide

/-! ## Values -/

namespace Json

/-- The values right inside a value, in order. -/
def parts : Json → List Json
  | .array items => items
  | .object members => members.map (·.2)
  | _ => []

/-- The value that a way leads to. -/
def within? : Json → List Nat → Option Json
  | j, [] => some j
  | j, i :: way => j.parts[i]?.bind (within? · way)

end Json

/-- A reference in a string that is nested in a value. -/
structure Occurrence where
  /-- The way to the string: the places among the parts that have it in them, counted from zero. -/
  way : List Nat
  /-- How many characters of the string come before the reference. -/
  offset : Nat
  name : String

namespace Occurrence

/-- The order in which occurrences are written. -/
def Precedes (m n : Occurrence) : Prop := m.way < n.way ∨ m.way = n.way ∧ m.offset < n.offset

def Within (j : Json) (m : Occurrence) : Prop :=
  ∃ text, j.within? m.way = some (.string text) ∧ ReferenceAt text m.offset m.name

/-- The occurrence is within one of the values, of which the first has the place `k`. -/
def Among (k : Nat) (js : List Json) (m : Occurrence) : Prop :=
  ∃ i j way, m.way = (k + i) :: way ∧ js[i]? = some j ∧ Within j { m with way := way }

def under (k : Nat) (m : Occurrence) : Occurrence := { m with way := k :: m.way }

def after (m : Occurrence) : Occurrence := { m with offset := m.offset + 1 }

end Occurrence

open Occurrence

/-- The occurrences of which `P` holds, each once and in the order in which they are written. -/
structure IsListing (P : Occurrence → Prop) (ms : List Occurrence) : Prop where
  mem : ∀ m, m ∈ ms ↔ P m
  sorted : ms.Pairwise Precedes

namespace IsListing

variable {P Q R : Occurrence → Prop} {ms ns : List Occurrence}

theorem congr (h : IsListing P ms) (hpq : ∀ m, P m ↔ Q m) : IsListing Q ms :=
  ⟨fun m => (h.mem m).trans (hpq m), h.sorted⟩

theorem unique (hm : IsListing P ms) (hn : IsListing P ns) : ms = ns := by
  have hirrefl (m : Occurrence) : ¬ m.Precedes m := by
    rintro (h | ⟨-, h⟩)
    · exact List.lt_irrefl _ h
    · exact Nat.lt_irrefl _ h
  have hasymm {m n : Occurrence} (h : m.Precedes n) (h' : n.Precedes m) : m = n := by
    rcases h with h | ⟨hway, h⟩ <;> rcases h' with h' | ⟨hway', h'⟩
    · exact absurd h' (List.lt_asymm h)
    · exact absurd (hway' ▸ h) (List.lt_irrefl _)
    · exact absurd (hway ▸ h') (List.lt_irrefl _)
    · exact absurd h' (Nat.lt_asymm h)
  have hnodup {ms : List Occurrence} (h : ms.Pairwise Precedes) : ms.Nodup := by
    refine h.imp ?_
    rintro m _ h rfl
    exact hirrefl m h
  have hperm : ms.Perm ns := (List.perm_ext_iff_of_nodup (hnodup hm.sorted) (hnodup hn.sorted)).mpr
    fun m => (hm.mem m).trans (hn.mem m).symm
  exact hperm.eq_of_pairwise (fun _ _ _ _ => hasymm) hm.sorted hn.sorted

theorem nil (h : ∀ m, ¬ P m) : IsListing P [] :=
  ⟨fun m => iff_of_false List.not_mem_nil (h m), List.Pairwise.nil⟩

theorem append (hm : IsListing P ms) (hn : IsListing Q ns)
    (horder : ∀ m n, P m → Q n → m.Precedes n) (hr : ∀ m, P m ∨ Q m ↔ R m) :
    IsListing R (ms ++ ns) where
  mem m := by rw [List.mem_append, hm.mem, hn.mem, hr]
  sorted := by
    refine List.pairwise_append.mpr ⟨hm.sorted, hn.sorted, fun m hfirst n hsecond => ?_⟩
    exact horder m n ((hm.mem m).mp hfirst) ((hn.mem n).mp hsecond)

theorem map (hm : IsListing P ms) {f : Occurrence → Occurrence}
    (hf : ∀ m n, m.Precedes n → (f m).Precedes (f n)) :
    IsListing (fun m => ∃ n, P n ∧ f n = m) (ms.map f) where
  mem m := by simp only [List.mem_map, hm.mem]
  sorted := List.pairwise_map.mpr (hm.sorted.imp (hf _ _))

end IsListing

/-- The occurrence is a reference right in the text. -/
def Occurrence.InText (text : String) (m : Occurrence) : Prop :=
  m.way = [] ∧ ReferenceAt text m.offset m.name

theorem isListing_here (cs : List Char) :
    IsListing (fun m => m.offset = 0 ∧ m.InText (.ofList cs))
      ((referenceHere? cs).toList.map fun name => ⟨[], 0, .ofList name⟩) where
  mem m := by
    obtain ⟨way, offset, name⟩ := m
    simp only [List.mem_map, Option.mem_toList, Occurrence.mk.injEq, InText]
    constructor
    · rintro ⟨found, hfound, rfl, rfl, rfl⟩
      exact ⟨rfl, rfl, referenceAt_zero.mpr (by rw [String.toList_ofList]; exact hfound)⟩
    · rintro ⟨rfl, rfl, hname⟩
      exact ⟨name.toList, referenceAt_zero.mp hname, rfl, rfl, String.ofList_toList⟩
  sorted := by cases referenceHere? cs <;> simp

/-- The search through a text finds its references from left to right. -/
theorem exists_listing_text (cs : List Char) :
    ∃ ms, IsListing (InText (.ofList cs)) ms ∧ ms.map (·.name) = inlineReferences cs := by
  rw [inlineReferences_eq_everyReference]
  induction cs with
  | nil =>
    refine ⟨[], .nil ?_, rfl⟩
    rintro m ⟨-, -, -, before, after, -, htext⟩
    rw [← String.toList_inj] at htext
    simp at htext
  | cons c cs ih =>
    obtain ⟨ms, hms, hnames⟩ := ih
    have hrest := hms.map (f := after) fun m n h => h.imp id (And.imp_right Nat.succ_lt_succ)
    refine ⟨_, (isListing_here (c :: cs)).append hrest ?_ ?_, ?_⟩
    · rintro m _ ⟨hoffset, hway, -⟩ ⟨n, ⟨hway', -⟩, rfl⟩
      refine .inr ⟨hway.trans hway'.symm, ?_⟩
      rw [hoffset]
      exact Nat.succ_pos _
    · intro m
      constructor
      · rintro (⟨-, hm⟩ | ⟨n, ⟨hway, hname⟩, rfl⟩)
        · exact hm
        · exact ⟨hway, referenceAt_succ.mpr hname⟩
      · rintro ⟨hway, hname⟩
        obtain ⟨way, offset, name⟩ := m
        cases offset with
        | zero => exact .inl ⟨rfl, hway, hname⟩
        | succ offset =>
          exact .inr ⟨⟨way, offset, name⟩, ⟨hway, referenceAt_succ.mp hname⟩, rfl⟩
    · rw [List.map_append, List.map_map, List.map_map, everyReference]
      have hafter : (fun m : Occurrence => m.name) ∘ after = (·.name) := rfl
      rw [hafter, hnames]
      cases referenceHere? (c :: cs) <;> rfl

namespace Occurrence

theorem within_iff_among (j : Json) (h : j.asString? = none) (m : Occurrence) :
    Within j m ↔ Among 0 j.parts m := by
  obtain ⟨way, offset, name⟩ := m
  cases way with
  | nil =>
    constructor
    · rintro ⟨text, heq, -⟩
      cases heq
      cases h
    · rintro ⟨i, inner, way, heq, -⟩
      cases heq
  | cons i way =>
    constructor
    · rintro ⟨text, heq, hname⟩
      obtain ⟨inner, hinner, heq⟩ := Option.bind_eq_some_iff.mp heq
      exact ⟨i, inner, way, by rw [Nat.zero_add], hinner, text, heq, hname⟩
    · rintro ⟨_, inner, _, heq, hinner, text, hway, hname⟩
      rw [Nat.zero_add, List.cons.injEq] at heq
      obtain ⟨rfl, rfl⟩ := heq
      exact ⟨text, Option.bind_eq_some_iff.mpr ⟨inner, hinner, hway⟩, hname⟩

theorem within_string {text : String} {m : Occurrence} :
    Within (.string text) m ↔ InText text m := by
  obtain ⟨way, offset, name⟩ := m
  constructor
  · rintro ⟨found, heq, hname⟩
    cases way with
    | nil =>
      cases heq
      exact ⟨rfl, hname⟩
    | cons i way => cases heq
  · rintro ⟨hway, hname⟩
    cases hway
    exact ⟨text, rfl, hname⟩

theorem not_among_nil {k : Nat} (m : Occurrence) : ¬ Among k [] m := by
  rintro ⟨i, inner, way, -, hinner, -⟩
  cases hinner

theorem among_cons {k : Nat} {j : Json} {js : List Json} {m : Occurrence} :
    (∃ n, Within j n ∧ under k n = m) ∨ Among (k + 1) js m ↔ Among k (j :: js) m := by
  constructor
  · rintro (⟨n, hn, rfl⟩ | ⟨i, inner, way, hway, hinner, hm⟩)
    · exact ⟨0, j, n.way, rfl, rfl, hn⟩
    · exact ⟨i + 1, inner, way, by rw [hway, Nat.add_right_comm, Nat.add_assoc], hinner, hm⟩
  · rintro ⟨i, inner, way, hway, hinner, hm⟩
    cases i with
    | zero =>
      cases hinner
      rw [Nat.add_zero] at hway
      exact .inl ⟨_, hm, by rw [under, ← hway]⟩
    | succ i =>
      exact .inr ⟨i, inner, way, by rw [hway, Nat.add_right_comm, Nat.add_assoc], hinner, hm⟩

theorem Precedes.under {m n : Occurrence} (h : m.Precedes n) (k : Nat) :
    (m.under k).Precedes (n.under k) := by
  refine h.imp (fun h => ?_) (And.imp_left fun h => ?_)
  · exact List.cons_lt_cons_iff.mpr (.inr ⟨rfl, h⟩)
  · exact congrArg (k :: ·) h

end Occurrence

namespace IsListing

variable {k : Nat} {j : Json} {js : List Json} {ms ns : List Occurrence}

theorem scalar (hstring : j.asString? = none) (hparts : j.parts = []) :
    IsListing (Within j) [] := by
  refine .nil fun m hm => ?_
  rw [within_iff_among j hstring, hparts] at hm
  exact not_among_nil m hm

theorem cons (hm : IsListing (Within j) ms) (hn : IsListing (Among (k + 1) js) ns) :
    IsListing (Among k (j :: js)) (ms.map (under k) ++ ns) := by
  refine (hm.map fun _ _ h => h.under k).append hn ?_ fun _ => among_cons
  rintro _ n ⟨m, -, rfl⟩ ⟨i, _, way, hway, -⟩
  refine .inl ?_
  rw [hway]
  exact List.cons_lt_cons_iff.mpr (.inl (by omega))

theorem names_cons :
    (ms.map (under k) ++ ns).map (·.name) = ms.map (·.name) ++ ns.map (·.name) := by
  rw [List.map_append, List.map_map]
  rfl

end IsListing

mutual

/-- The names in the strings of a value are those of its occurrences. -/
theorem exists_listing : ∀ j : Json, ∃ ms, IsListing (Within j) ms ∧
    ms.map (·.name) = j.texts.flatMap fun text => inlineReferences text.toList
  | .null => ⟨[], .scalar rfl rfl, rfl⟩
  | .bool _ => ⟨[], .scalar rfl rfl, rfl⟩
  | .number _ => ⟨[], .scalar rfl rfl, rfl⟩
  | .string text => by
    obtain ⟨ms, hms, hnames⟩ := exists_listing_text text.toList
    rw [String.ofList_toList] at hms
    refine ⟨ms, hms.congr fun m => within_string.symm, ?_⟩
    rw [hnames, Json.texts, List.flatMap_singleton]
  | .array items => by
    obtain ⟨ms, hms, hnames⟩ := exists_listing_items items 0
    exact ⟨ms, hms.congr fun m => (within_iff_among (.array items) rfl m).symm, hnames⟩
  | .object members => by
    obtain ⟨ms, hms, hnames⟩ := exists_listing_members members 0
    exact ⟨ms, hms.congr fun m => (within_iff_among (.object members) rfl m).symm, hnames⟩

theorem exists_listing_items : ∀ (items : List Json) (k : Nat), ∃ ms,
    IsListing (Among k items) ms ∧
      ms.map (·.name) = (Json.texts.ofItems items).flatMap fun text => inlineReferences text.toList
  | [], k => ⟨[], IsListing.nil not_among_nil, rfl⟩
  | item :: items, k => by
    obtain ⟨ms, hms, hnames⟩ := exists_listing item
    obtain ⟨ns, hns, hrest⟩ := exists_listing_items items (k + 1)
    refine ⟨_, hms.cons hns, ?_⟩
    rw [IsListing.names_cons, hnames, hrest, Json.texts.ofItems, List.flatMap_append]

theorem exists_listing_members : ∀ (members : Members) (k : Nat), ∃ ms,
    IsListing (Among k (members.map (·.2))) ms ∧
      ms.map (·.name) =
        (Json.texts.ofMembers members).flatMap fun text => inlineReferences text.toList
  | [], k => ⟨[], IsListing.nil not_among_nil, rfl⟩
  | (_, j) :: members, k => by
    obtain ⟨ms, hms, hnames⟩ := exists_listing j
    obtain ⟨ns, hns, hrest⟩ := exists_listing_members members (k + 1)
    refine ⟨_, hms.cons hns, ?_⟩
    rw [IsListing.names_cons, hnames, hrest, Json.texts.ofMembers, List.flatMap_append]

end

/-- The occurrence is within the option of this name. -/
def Occurrence.InOption (options : Members) (option : String) (m : Occurrence) : Prop :=
  ∃ j, Members.get? options option = some j ∧ Within j m

theorem exists_listing_option (options : Members) (option : String) :
    ∃ ms, IsListing (InOption options option) ms ∧
      ms.map (·.name) = Descriptor.textReferences options option := by
  unfold InOption Descriptor.textReferences
  cases Members.get? options option with
  | none => exact ⟨[], .nil fun m => nofun, rfl⟩
  | some j =>
    obtain ⟨ms, hms, hnames⟩ := exists_listing j
    exact ⟨ms, hms.congr fun m => by simp, hnames⟩

theorem exists_listings (options : Members) (keys : List String) :
    ∃ listings, List.Forall₂ (fun key ms => IsListing (InOption options key) ms) keys listings ∧
      listings.flatten.map (·.name) = keys.flatMap (Descriptor.textReferences options) := by
  induction keys with
  | nil => exact ⟨[], .nil, rfl⟩
  | cons key keys ih =>
    obtain ⟨ms, hms, hnames⟩ := exists_listing_option options key
    obtain ⟨listings, hlistings, hrest⟩ := ih
    refine ⟨ms :: listings, .cons hms hlistings, ?_⟩
    rw [List.flatten_cons, List.map_append, hnames, hrest, List.flatMap_cons]

/-! ## Options -/

/-- What should have been there instead of a value that is to be a name. -/
def nameMisfit? : Json → Option OptionShape
  | .null => none
  | .string _ => none
  | _ => some .string

/-- What should have been there instead of a value that is to be a list of names. -/
def listMisfit? : Json → Option OptionShape
  | .null => none
  | .array items => if items.all (·.asString?.isSome) then none else some .strings
  | _ => some .array

theorem findSome?_ite {α β : Type} (p : α → Bool) (b : β) (as : List α) :
    as.findSome? (fun a => if p a then none else some b) = if as.all p then none else some b := by
  induction as with
  | nil => rfl
  | cons a as ih =>
    rw [List.findSome?_cons, ih, List.all_cons]
    cases p a <;> rfl

namespace Descriptor

variable (d : Descriptor) (options : Members)

def misfit? (shape? : Json → Option OptionShape) (options : Members) (option : String) :
    Option (String × OptionShape) :=
  ((Members.get? options option).bind shape?).map (option, ·)

/-- The options that are not what they have to be, those that are to be names first. -/
def misfits : List (String × OptionShape) :=
  d.variableHandling.names.filterMap (misfit? nameMisfit? options) ++
    d.variableHandling.lists.filterMap (misfit? listMisfit? options)

/-- The name that an option is, unless it is empty. -/
def givenName? (option : String) : Option String :=
  ((Members.get? options option).bind Json.asString?).filter (· ≠ "")

/-- The strings in an option that is a list. -/
def listedNames (option : String) : List String :=
  match Members.get? options option with
  | some (.array items) => items.filterMap Json.asString?
  | _ => []

def refused (misfit : String × OptionShape) : CompileError :=
  .typeMismatch d.name misfit.1 misfit.2

theorem nameReference_eq (option : String) :
    d.nameReference options option = ((misfit? nameMisfit? options option).map d.refused).elim
      (.ok (givenName? options option).toList) .error := by
  unfold nameReference misfit? givenName?
  cases Members.get? options option with
  | none => rfl
  | some j =>
    cases j with
    | string s => by_cases hs : s = "" <;> simp [nameMisfit?, Json.asString?, Option.filter, hs]
    | _ => rfl

theorem listReference_eq (option : String) :
    d.listReferences options option = ((misfit? listMisfit? options option).map d.refused).elim
      (.ok (listedNames options option)) .error := by
  unfold listReferences misfit? listedNames
  cases Members.get? options option with
  | none => rfl
  | some j =>
    cases j with
    | array items =>
      let isString (item : Json) : Bool := item.asString?.isSome
      refine (mapM_eq_of_fault
        (fun item => if isString item then none else some (d.refused (option, .strings)))
        (fun item => item.asString?.getD "") (fun item => by cases item <;> rfl) items).trans ?_
      rw [findSome?_ite]
      by_cases hall : items.all isString
      · have hmap : items.filterMap Json.asString? =
            items.map (fun item => item.asString?.getD "") := by
          refine List.filterMap_eq_map_iff_forall_eq_some.mpr fun item hitem => ?_
          have hstring := List.all_eq_true.mp hall item hitem
          obtain ⟨name, hname⟩ := Option.isSome_iff_exists.mp hstring
          rw [hname]
          rfl
        simp [listMisfit?, hall, isString, hmap]
      · simp [listMisfit?, hall, isString]
    | _ => rfl

/-- The first option that is not what it has to be is refused. If there is none, the names are those
given, those listed, and those that texts refer to. -/
theorem references_eq :
    d.references options = ((d.misfits options).head?.map d.refused).elim
      (.ok (d.variableHandling.names.filterMap (givenName? options) ++
        d.variableHandling.lists.flatMap (listedNames options) ++
        d.variableHandling.inline.flatMap (textReferences options))) .error := by
  have hnames := mapM_eq_of_fault _ _ (d.nameReference_eq options) d.variableHandling.names
  have hlists := mapM_eq_of_fault _ _ (d.listReference_eq options) d.variableHandling.lists
  have hhead : (d.misfits options).head? =
      (d.variableHandling.names.findSome? (misfit? nameMisfit? options)).or
        (d.variableHandling.lists.findSome? (misfit? listMisfit? options)) := by
    rw [misfits, List.head?_append, List.head?_filterMap, List.head?_filterMap]
  have hmap (shape? : Json → Option OptionShape) (keys : List String) :
      (keys.findSome? fun key => (misfit? shape? options key).map d.refused) =
        (keys.findSome? (misfit? shape? options)).map d.refused :=
    List.map_findSome?.symm
  unfold references
  rw [hnames, hlists, hhead, hmap, hmap]
  cases d.variableHandling.names.findSome? (misfit? nameMisfit? options) with
  | some m => rfl
  | none =>
    cases d.variableHandling.lists.findSome? (misfit? listMisfit? options) with
    | some m => rfl
    | none =>
      rw [List.filterMap_eq_flatMap_toList, List.flatMap_def, List.flatMap_def]
      rfl

/-- Options are refused if and only if one of them is not what it has to be, and the error says this
of the first such option and of what it should have been. If all are, the names are, in this order,
- those given one by one, but for empty ones;
- the items of lists;
- for each option with texts, the names of the references in its strings, each of these once and in
  the order in which they are written. -/
theorem references_iff :
    (∀ e, d.references options = .error e ↔ ∃ option expected,
      (d.misfits options).head? = some (option, expected) ∧
        e = .typeMismatch d.name option expected) ∧
    ∀ names, d.references options = .ok names ↔
      d.misfits options = [] ∧
        ∃ listings, List.Forall₂ (fun option ms => IsListing (InOption options option) ms)
            d.variableHandling.inline listings ∧
          names = d.variableHandling.names.filterMap (givenName? options) ++
            d.variableHandling.lists.flatMap (listedNames options) ++
            listings.flatten.map (·.name) := by
  obtain ⟨listings, hlistings, hnames⟩ : ∃ listings,
      List.Forall₂ (fun option ms => IsListing (InOption options option) ms)
        d.variableHandling.inline listings ∧
      listings.flatten.map (·.name) =
        d.variableHandling.inline.flatMap (textReferences options) :=
    exists_listings options _
  rw [references_eq, ← hnames]
  cases hhead : (d.misfits options).head? with
  | none =>
    have hnone := List.head?_eq_none_iff.mp hhead
    refine ⟨fun e => ⟨nofun, fun h => ?_⟩, fun names => ⟨fun h => ?_, ?_⟩⟩
    · obtain ⟨option, expected, hm, -⟩ := h
      cases hm
    · cases h
      exact ⟨hnone, listings, hlistings, rfl⟩
    · rintro ⟨-, listings', hlistings', rfl⟩
      rw [List.right_unique_forall₂' (fun _ _ _ hm hn => hm.unique hn) hlistings' hlistings]
      rfl
  | some m =>
    refine ⟨fun e => ⟨fun h => ?_, ?_⟩, fun names => ⟨nofun, fun h => ?_⟩⟩
    · cases h
      exact ⟨m.1, m.2, rfl, rfl⟩
    · rintro ⟨option, expected, hm, rfl⟩
      cases hm
      rfl
    · rw [h.1] at hhead
      cases hhead

end Descriptor

end DeliveryRules
