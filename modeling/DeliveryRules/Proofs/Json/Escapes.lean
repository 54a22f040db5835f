import DeliveryRules.Proofs.Json.Values
import Mathlib.Data.List.TakeWhile

/-!
# Escaped characters

What a backslash stands before is ASCII in every text that the reader accepts
(`escapesAscii_of_read`). In a text from the left, a backslash that another one stands before
escapes nothing (`EscapesAscii`).
-/

namespace DeliveryRules.Json

/-- Only ASCII characters are escaped. -/
def EscapesAscii : List Char → Prop
  | [] => True
  | [_] => True
  | c :: d :: rest =>
    if c = '\\' then d.toNat < 128 ∧ EscapesAscii rest else EscapesAscii (d :: rest)

theorem escapesAscii_escape {c : Char} {rest : List Char} :
    EscapesAscii ('\\' :: c :: rest) ↔ c.toNat < 128 ∧ EscapesAscii rest := by
  rw [EscapesAscii, if_pos rfl]

theorem escapesAscii_cons {c : Char} {rest : List Char} (hc : c ≠ '\\') :
    EscapesAscii (c :: rest) ↔ EscapesAscii rest := by
  cases rest with
  | nil => exact Iff.rfl
  | cons d rest => rw [EscapesAscii, if_neg hc]

theorem escapesAscii_append {cs rest : List Char} (hcs : ∀ c ∈ cs, c ≠ '\\') :
    EscapesAscii (cs ++ rest) ↔ EscapesAscii rest := by
  induction cs with
  | nil => exact Iff.rfl
  | cons c cs ih =>
    rw [List.forall_mem_cons] at hcs
    rw [List.cons_append, escapesAscii_cons hcs.1, ih hcs.2]

/-- What is left of a text escapes nothing else, unless it starts with a backslash, which could
have been escaped. -/
theorem EscapesAscii.suffix {text rest : List Char} (h : EscapesAscii text)
    (hsuffix : rest <:+ text) (hrest : ∀ c ∈ rest.head?, c ≠ '\\') : EscapesAscii rest := by
  induction text using EscapesAscii.induct with
  | case1 =>
    rw [List.suffix_nil.mp hsuffix]
    exact trivial
  | case2 =>
    rcases List.suffix_cons_iff.mp hsuffix with rfl | hsuffix
    · exact trivial
    · rw [List.suffix_nil.mp hsuffix]
      exact trivial
  | case3 d cs ih =>
    rcases List.suffix_cons_iff.mp hsuffix with rfl | hsuffix
    · exact absurd rfl (hrest _ rfl)
    · rw [escapesAscii_escape] at h
      rcases List.suffix_cons_iff.mp hsuffix with rfl | hsuffix
      · exact (escapesAscii_cons (hrest d rfl)).mpr h.2
      · exact ih h.2 hsuffix
  | case4 c d cs hc ih =>
    rcases List.suffix_cons_iff.mp hsuffix with rfl | hsuffix
    · exact h
    · exact ih ((escapesAscii_cons hc).mp h) hsuffix

/-! ## Texts that the reader accepts -/

theorem escapesAscii_skipGaps {cs : List Char} (h : EscapesAscii (skipGaps cs)) :
    EscapesAscii cs := by
  have hgaps : ∀ c ∈ cs.takeWhile isGap, c ≠ '\\' := by
    rintro _ hmem rfl
    exact absurd (List.mem_takeWhile_imp hmem) (by decide)
  have hsplit : cs.takeWhile isGap ++ skipGaps cs = cs := List.takeWhile_append_dropWhile
  rw [← hsplit]
  exact (escapesAscii_append hgaps).mpr h

theorem escapesAscii_of_skipGaps {c : Char} {cs rest : List Char} (h : skipGaps cs = c :: rest)
    (hc : c ≠ '\\') (hrest : EscapesAscii rest) : EscapesAscii cs :=
  escapesAscii_skipGaps (h ▸ (escapesAscii_cons hc).mpr hrest)

theorem ne_backslash_of_hexValue? {c : Char} {n : Nat} (h : hexValue? c = some n) : c ≠ '\\' := by
  rintro rfl
  have hnone : hexValue? '\\' = none := by decide
  rw [hnone] at h
  cases h

theorem ascii_of_hexValue? {c : Char} {n : Nat} (h : hexValue? c = some n) : c.toNat < 128 := by
  have hc : c.toNat = c.val.toNat := rfl
  unfold hexValue? at h
  split at h
  · rename_i hdigit
    simp [Char.isDigit, UInt32.le_iff_toNat_le] at hdigit
    omega
  · split at h
    · rename_i hsmall
      simp [Char.le_def, UInt32.le_iff_toNat_le] at hsmall
      omega
    · split at h
      · rename_i hlarge
        simp [Char.le_def, UInt32.le_iff_toNat_le] at hlarge
        omega
      · cases h

/-- Four digits escape nothing. -/
theorem escapesAscii_of_hexUnit? {a b c d : Char} {n : Nat} {rest : List Char}
    (h : hexUnit? a b c d = some n) (hrest : EscapesAscii rest) :
    EscapesAscii (a :: b :: c :: d :: rest) := by
  obtain ⟨_, ha, h⟩ := Option.bind_eq_some_iff.mp h
  obtain ⟨_, hb, h⟩ := Option.bind_eq_some_iff.mp h
  obtain ⟨_, hc, h⟩ := Option.bind_eq_some_iff.mp h
  obtain ⟨_, hd, -⟩ := Option.bind_eq_some_iff.mp h
  rw [escapesAscii_cons (ne_backslash_of_hexValue? ha),
    escapesAscii_cons (ne_backslash_of_hexValue? hb),
    escapesAscii_cons (ne_backslash_of_hexValue? hc),
    escapesAscii_cons (ne_backslash_of_hexValue? hd)]
  exact hrest

theorem escapesAscii_readEscape {cs : List Char} {d : Char} {r : Shorter cs}
    (h : readEscape cs = .ok (d, r)) (hrest : EscapesAscii r.1) :
    EscapesAscii ('\\' :: cs) := by
  unfold readEscape at h
  split at h
  · simp at h
  · rename_i c rest
    simp only at h
    rw [escapesAscii_escape]
    split at h
    case h_9 =>
      refine ⟨by decide, ?_⟩
      obtain ⟨⟨n, rest', hlt⟩, hu, h⟩ := bind_eq_ok.mp h
      obtain ⟨a, b, c, d', rfl, hunit⟩ := Pointer.readUnit_ok hu
      refine escapesAscii_of_hexUnit? hunit ?_
      dsimp only at h
      split at h
      · cases h
      · split at h
        · obtain ⟨⟨d'', rest'', hlt'⟩, hl, h⟩ := bind_eq_ok.mp h
          obtain ⟨e, f, g, i, low, rfl, hlow, -⟩ := Pointer.readLowHalf_ok hl
          cases h
          exact escapesAscii_escape.mpr ⟨by decide, escapesAscii_of_hexUnit? hlow hrest⟩
        · cases h
          exact hrest
    case h_10 => simp at h
    all_goals
      cases h
      exact ⟨by decide, hrest⟩

theorem Spelled.escapesAscii {cs ds rest : List Char} (h : Spelled cs ds rest)
    (hrest : EscapesAscii rest) : EscapesAscii cs := by
  induction h with
  | close => exact (escapesAscii_cons (by decide)).mpr hrest
  | escape he _ ih => exact escapesAscii_readEscape he (ih hrest)
  | plain _ hc _ ih => exact (escapesAscii_cons hc).mpr (ih hrest)

theorem Word.escapesAscii {cs rest : List Char} (h : Word cs rest) (hrest : EscapesAscii rest) :
    EscapesAscii cs := by
  induction h with
  | done => exact hrest
  | more hc _ ih =>
    refine (escapesAscii_cons ?_).mpr (ih hrest)
    rintro rfl
    exact absurd hc (by decide)

section Sequences

variable {β : Type} {part : List Char → β → List Char → Prop} {close : Char}
  (hclose : close ≠ '\\')
  (hpart : ∀ ⦃cs x rest⦄, part cs x rest → EscapesAscii rest → EscapesAscii cs)

include hclose hpart

theorem Listed.escapesAscii {cs rest : List Char} {xs : List β} (h : Listed part close cs xs rest)
    (hrest : EscapesAscii rest) : EscapesAscii cs := by
  induction h with
  | done hs => exact escapesAscii_of_skipGaps hs hclose hrest
  | more hs hx _ ih => exact escapesAscii_of_skipGaps hs (by decide) (hpart hx (ih hrest))

theorem Enclosed.escapesAscii {cs rest : List Char} {xs : List β}
    (h : Enclosed part close cs xs rest) (hrest : EscapesAscii rest) : EscapesAscii cs := by
  cases h with
  | nothing hs => exact escapesAscii_of_skipGaps hs hclose hrest
  | something _ hx hl => exact hpart hx (hl.escapesAscii hclose hpart hrest)

end Sequences

theorem MemberAt.escapesAscii {α : Type} {item : List Char → Except Stop (Followed α)}
    (hitem : ∀ ⦃cs x rest⦄, item cs = .ok (x, rest) → EscapesAscii rest → EscapesAscii cs)
    {cs rest : List Char} {m : String × α} (h : MemberAt item cs m rest)
    (hrest : EscapesAscii rest) : EscapesAscii cs := by
  obtain ⟨hq, hc, hv, hx⟩ := h
  have hname := escapesAscii_of_skipGaps hv (by decide) (hitem hx hrest)
  exact escapesAscii_of_skipGaps hq (by decide) (hc.escapesAscii hname)

theorem escapesAscii_of_readValue {depth : Nat} {cs rest : List Char} {v : Located}
    (h : readValue depth cs = .ok (v, rest)) (hrest : EscapesAscii rest) : EscapesAscii cs := by
  -- On the depth: the parts of an array or object are values of a smaller one.
  induction depth using Nat.strongRecOn generalizing cs rest v with
  | ind depth ih =>
    have hv := readValue_valueAt h
    refine escapesAscii_skipGaps ?_
    generalize skipGaps cs = start at hv
    cases hv with
    | word hc hw _ => exact (Word.more hc hw).escapesAscii hrest
    | string hc => exact (escapesAscii_cons (by decide)).mpr (hc.escapesAscii hrest)
    | @array depth inner rest items hi =>
      refine (escapesAscii_cons (by decide)).mpr (hi.escapesAscii (by decide) ?_ hrest)
      intro ds x after hx hafter
      exact escapesAscii_skipGaps (ih depth (Nat.lt_succ_self _) hx hafter)
    | @object depth inner rest members hm =>
      refine (escapesAscii_cons (by decide)).mpr (hm.escapesAscii (by decide) ?_ hrest)
      intro ds m after hx hafter
      exact hx.escapesAscii (fun _ _ _ => ih depth (Nat.lt_succ_self _)) hafter

theorem escapesAscii_of_read {text : String} {j : Json} (h : read text = .ok j) :
    EscapesAscii text.toList := by
  obtain ⟨doc, -, hdoc, -, -⟩ := readValue_of_read h
  obtain ⟨rest, hvalue, hgaps⟩ := Pointer.whole_of_readLocated hdoc
  have hrest : EscapesAscii rest := escapesAscii_skipGaps (hgaps ▸ trivial)
  exact escapesAscii_of_readValue hvalue hrest

end DeliveryRules.Json
