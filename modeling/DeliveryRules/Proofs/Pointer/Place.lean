import DeliveryRules.Proofs.Json.Values
import DeliveryRules.Proofs.Pointer.Nearest

/-!
# The places of the values that are read

Of the members with one name a reader of the text keeps the last, and the scanner finds the first.

- **What counts** (`Located.counted?`, `Located.reach?`): the part of a written document that a
  token, or all of some tokens, lead to in the value that is read (`Located.follow?_toJson`).
- **No repeated names** (`Located.reach?_eq_follow?`): then there is no difference.
- `locate_follow?`: a part to which all tokens lead by first names is located exactly.
-/

namespace DeliveryRules

namespace Located

/-- The part of a value that a token leads to in the value that is read: of the members of an object
the last under this name. -/
def counted? : Located → String → Option Located
  | .object _ members, token => members.reverse.lookup token
  | l, token => l.step? token

/-- The part that all of the tokens lead to in the value that is read. -/
def reach? : Located → List String → Option Located
  | l, [] => some l
  | l, t :: ts => (l.counted? t).bind fun k => k.reach? ts

/-- The tokens lead through what was written as they lead through what is read. -/
theorem follow?_toJson {depth : Nat} {cs rest : List Char} {v : Located}
    (h : Json.readValue depth cs = .ok (v, rest)) (tokens : List String) :
    Pointer.follow? v.toJson tokens = (v.reach? tokens).map toJson := by
  revert tokens
  refine Json.readValue_induction (Q := fun _ v => ∀ tokens,
    Pointer.follow? v.toJson tokens = (v.reach? tokens).map toJson) cs.length ?_ ?_ ?_
    (Nat.le_refl _) h
  · intro _ start j _ hj tokens
    cases tokens with
    | nil => rfl
    | cons t ts =>
      rw [Pointer.follow?, toJson, hj t]
      rfl
  · intro _ start items _ ih tokens
    cases tokens with
    | nil => rfl
    | cons t ts =>
      have hcounted : (Located.array start items).counted? t =
          (Pointer.index? t).bind fun i => items[i]? := rfl
      rw [Pointer.follow?, reach?, hcounted, toJson, toJson_ofItems, Pointer.step?]
      cases Pointer.index? t with
      | none => rfl
      | some i =>
        rw [Option.bind_some, Option.bind_some, List.getElem?_map]
        cases hi : items[i]? with
        | none => rfl
        | some item => exact ih item (List.mem_of_getElem? hi) ts
  · intro _ start members ih tokens
    cases tokens with
    | nil => rfl
    | cons t ts =>
      rw [Pointer.follow?, reach?, toJson, toJson_ofMembers, counted?, Pointer.step?,
        Members.get?_ofWritten, ← List.map_reverse, Members.lookup_map]
      cases hmember : members.reverse.lookup t with
      | none => rfl
      | some member =>
        obtain ⟨before, after, hsplit, -⟩ := List.lookup_eq_some_iff.mp hmember
        have hmem : (t, member) ∈ members := by
          rw [← List.mem_reverse, hsplit]
          simp
        exact ih (t, member) hmem ts

theorem lookup_reverse {α : Type} {ms : List (String × α)} (h : (ms.map (·.1)).Nodup)
    (name : String) : ms.reverse.lookup name = ms.lookup name := by
  induction ms with
  | nil => rfl
  | cons m ms ih =>
    rw [List.map_cons, List.nodup_cons] at h
    rw [List.reverse_cons, List.lookup_append, ih h.2, Members.lookup_cons, Members.lookup_cons]
    by_cases hname : name = m.1
    · have hnone : ms.lookup name = none := by
        rw [List.lookup_eq_none_iff]
        intro p hp
        rw [bne_iff_ne, hname]
        exact fun heq => h.1 (List.mem_map.mpr ⟨p, hp, heq.symm⟩)
      rw [if_pos hname, if_pos hname, hnone, Option.none_or]
    · rw [if_neg hname, if_neg hname]
      exact Option.or_none ..

instance decidableNoRepeats : (l : Located) → Decidable l.NoRepeats
  | .scalar .. => isTrue trivial
  | .array _ items => ofItems items
  | .object _ members =>
    have := ofMembers members
    inferInstanceAs (Decidable ((members.map (·.1)).Nodup ∧ NoRepeats.ofMembers members))
where
  ofItems : (items : List Located) → Decidable (NoRepeats.ofItems items)
    | [] => isTrue trivial
    | l :: ls =>
      have := decidableNoRepeats l
      have := ofItems ls
      inferInstanceAs (Decidable (l.NoRepeats ∧ NoRepeats.ofItems ls))
  ofMembers : (members : List (String × Located)) → Decidable (NoRepeats.ofMembers members)
    | [] => isTrue trivial
    | (_, l) :: ms =>
      have := decidableNoRepeats l
      have := ofMembers ms
      inferInstanceAs (Decidable (l.NoRepeats ∧ NoRepeats.ofMembers ms))

theorem NoRepeats.counted? {l : Located} (h : l.NoRepeats) (token : String) :
    l.counted? token = l.step? token := by
  cases l with
  | object s members => exact lookup_reverse h.1 token
  | _ => rfl

theorem reach?_eq_follow? {l : Located} (h : l.NoRepeats) (tokens : List String) :
    l.reach? tokens = l.follow? tokens := by
  induction tokens generalizing l with
  | nil => rfl
  | cons t ts ih =>
    rw [reach?, follow?, h.counted?]
    cases hstep : l.step? t with
    | none => rfl
    | some k => exact ih (h.step? hstep)

theorem follow?_append (l : Located) (way rest : List String) :
    l.follow? (way ++ rest) = (l.follow? way).bind fun k => k.follow? rest := by
  induction way generalizing l with
  | nil => rfl
  | cons t ts ih =>
    rw [List.cons_append, follow?, follow?, Option.bind_assoc]
    exact Option.bind_congr fun k _ => ih k

theorem follow?_snoc {l k k' : Located} {way : List String} {token : String}
    (hway : l.follow? way = some k) (hstep : k.step? token = some k') :
    l.follow? (way ++ [token]) = some k' := by
  rw [follow?_append, hway, Option.bind_some, follow?, hstep]
  rfl

theorem NoRepeats.follow? {l k : Located} {tokens : List String} (hl : l.NoRepeats)
    (h : l.follow? tokens = some k) : k.NoRepeats := by
  induction tokens generalizing l with
  | nil =>
    cases h
    exact hl
  | cons t ts ih =>
    obtain ⟨m, hm, hk⟩ := Option.bind_eq_some_iff.mp h
    exact ih (hl.step? hm) hk

end Located

namespace Pointer

/-- A part to which all tokens lead is found where it starts, and can be read from there. -/
theorem locate_follow? {text : String} {doc : Located} (hdoc : Json.readLocated text = .ok doc)
    {tokens : List String} {place : Located} (h : doc.follow? tokens = some place) :
    ∃ before, text.toList = before ++ place.start ∧
      locate text tokens = ⟨(String.ofList before).utf8ByteSize, before.count '\n' + 1, true⟩ ∧
      ∃ rest, Json.readValue Json.maxDepth place.start = .ok (place, rest) := by
  obtain ⟨rest, hr⟩ := readValue_of_readLocated hdoc
  obtain ⟨count, place', hl, hw, ds, after, hp⟩ := walk_leadsTo hr tokens
  obtain rfl : count = tokens.length := hl.isSome_iff.mp (by rw [h]; rfl)
  obtain rfl : place' = place := by
    have htake := hl.follow_take
    rw [List.take_length, h] at htake
    exact Option.some.inj htake.symm
  have hw' : walk (Json.skipGaps text.toList) tokens = (place'.start, true) := by
    rw [← start_readValue hr, hw, h]
    rfl
  obtain ⟨before, hbefore⟩ : place'.start <:+ text.toList := by
    have hsuffix := walk_suffix (Json.skipGaps text.toList) tokens
    rw [hw'] at hsuffix
    exact hsuffix.trans (Json.skipGaps_suffix _)
  refine ⟨before, hbefore.symm, locate_eq hbefore.symm hw', after, ?_⟩
  rw [start_readValue hp, Json.readValue_skipGaps, hp]

end Pointer

end DeliveryRules
