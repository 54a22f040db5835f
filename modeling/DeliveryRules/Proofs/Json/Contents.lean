import DeliveryRules.Pointer.Basic
import DeliveryRules.Proofs.Json.Members

/-!
# What stands in a value

- **Contents** (`Json.Contains`): a value contains itself, its items and members, and what these
  contain. None of it is larger (`Json.Contains.size_le`), and all strings are among those of the
  value (`Json.mem_texts_of_contains`), of which there are no more than it has parts
  (`Json.length_texts_le`).
- `Json.contains_of_step?`: where a token of a pointer leads.
-/

namespace DeliveryRules.Json

/-- The second value stands in the first one, or is the first one. -/
inductive Contains : Json → Json → Prop
  | self (j : Json) : Contains j j
  | item {items : List Json} {j k : Json} (h : j ∈ items) (hk : Contains j k) :
    Contains (.array items) k
  | member {members : Members} {m : String × Json} {k : Json} (h : m ∈ members)
    (hk : Contains m.2 k) : Contains (.object members) k

namespace Contains

variable {j k l : Json}

theorem trans (h : Contains j k) (h' : Contains k l) : Contains j l := by
  induction h with
  | self => exact h'
  | item hmem _ ih => exact .item hmem (ih h')
  | member hmem _ ih => exact .member hmem (ih h')

theorem size_le (h : Contains j k) : k.size ≤ j.size := by
  induction h with
  | self => exact Nat.le_refl _
  | item hmem _ ih => exact Nat.le_trans ih (Nat.le_of_lt (size_lt_of_item hmem))
  | member hmem _ ih => exact Nat.le_trans ih (Nat.le_of_lt (size_lt_of_member hmem))

end Contains

theorem contains_of_step? {j k : Json} {token : String} (h : Pointer.step? j token = some k) :
    Contains j k := by
  unfold Pointer.step? at h
  split at h
  · exact .member (Members.mem_of_get? h) (.self _)
  · obtain ⟨i, -, hi⟩ := Option.bind_eq_some_iff.mp h
    exact .item (List.mem_of_getElem? hi) (.self _)
  · cases h

/-! ## Strings -/

theorem texts_ofItems (items : List Json) : texts.ofItems items = items.flatMap texts := by
  induction items with
  | nil => rfl
  | cons j items ih => rw [texts.ofItems, ih, List.flatMap_cons]

theorem texts_ofMembers (members : Members) :
    texts.ofMembers members = members.flatMap fun m => m.2.texts := by
  induction members with
  | nil => rfl
  | cons m members ih => rw [texts.ofMembers, ih, List.flatMap_cons]

theorem mem_texts_of_contains {j : Json} {text : String} (h : Contains j (.string text)) :
    text ∈ j.texts := by
  generalize hk : Json.string text = k at h
  induction h with
  | self =>
    subst hk
    exact List.mem_singleton_self _
  | item hmem _ ih =>
    rw [texts, texts_ofItems]
    exact List.mem_flatMap.mpr ⟨_, hmem, ih hk⟩
  | member hmem _ ih =>
    rw [texts, texts_ofMembers]
    exact List.mem_flatMap.mpr ⟨_, hmem, ih hk⟩

mutual

theorem length_texts_le : ∀ j : Json, j.texts.length ≤ j.size
  | .null => Nat.zero_le _
  | .bool _ => Nat.zero_le _
  | .number _ => Nat.zero_le _
  | .string _ => Nat.le_refl _
  | .array items => Nat.le_succ_of_le (length_texts_ofItems_le items)
  | .object members => Nat.le_succ_of_le (length_texts_ofMembers_le members)

theorem length_texts_ofItems_le : ∀ items, (texts.ofItems items).length ≤ size.ofItems items
  | [] => Nat.le_refl _
  | j :: items => by
    rw [texts.ofItems, size.ofItems, List.length_append]
    exact Nat.add_le_add (length_texts_le j) (length_texts_ofItems_le items)

theorem length_texts_ofMembers_le :
    ∀ members, (texts.ofMembers members).length ≤ size.ofMembers members
  | [] => Nat.le_refl _
  | (_, j) :: members => by
    rw [texts.ofMembers, size.ofMembers, List.length_append]
    exact Nat.add_le_add (length_texts_le j) (length_texts_ofMembers_le members)

end

end DeliveryRules.Json
