import DeliveryRules.Pointer.Locate
import DeliveryRules.Proofs.Json.Reading

/-!
# The scanner on texts

- **Any text.** What the scanner goes on with is an end of what it was given (`*_suffix`), so a
  place that it reports lies in the text.
- **Texts that the reader accepts.** The scanner reads the same strings (`chars?_spelled`) and stops
  where a value stops (`skipValue_readValue`). `Ends`: what may follow a value.
-/

namespace DeliveryRules.Pointer

open Json (isGap skipGaps skipGaps_suffix hexUnit? isHighSurrogate isLowSurrogate pairedChar)

theorem after?_eq_some {c : Char} {cs rest : List Char} :
    after? c cs = some rest ↔ skipGaps cs = c :: rest := by
  unfold after?
  split
  · rename_i d r hs
    split
    · rename_i hd
      simp [hs, hd]
    · rename_i hd
      simp [hs, hd]
  · rename_i hs
    simp [hs]

theorem after?_eq_none {c : Char} {cs : List Char} :
    after? c cs = none ↔ ∀ rest, skipGaps cs ≠ c :: rest := by
  rw [← Option.not_isSome_iff_eq_none, Option.isSome_iff_exists]
  simp [after?_eq_some]

/-! ## Places in a text -/

theorem after?_suffix {c : Char} {cs rest : List Char} (h : after? c cs = some rest) :
    rest <:+ cs := by
  have hs := skipGaps_suffix cs
  rw [after?_eq_some.mp h] at hs
  exact (List.suffix_cons c rest).trans hs

theorem after?_length_lt {c : Char} {cs rest : List Char} (h : after? c cs = some rest) :
    rest.length < cs.length :=
  Json.length_lt_of_skipGaps (after?_eq_some.mp h)

theorem codePoint?_suffix {cs rest : List Char} {d : Char}
    (h : codePoint? cs = some (d, rest)) : rest <:+ cs := by
  unfold codePoint? at h
  split at h
  · rename_i a b c d' r
    obtain ⟨high, -, h⟩ := Option.bind_eq_some_iff.mp h
    have hr : r <:+ a :: b :: c :: d' :: r := ⟨[a, b, c, d'], rfl⟩
    split at h
    · split at h
      · rename_i after _
        have hafter : after <:+ '\\' :: 'u' :: after := ⟨['\\', 'u'], rfl⟩
        split at h
        · rename_i e f g i after' _
          obtain ⟨low, -, h⟩ := Option.bind_eq_some_iff.mp h
          split at h <;> simp only [Option.some.injEq, Prod.mk.injEq] at h <;> rw [← h.2]
          · exact (List.IsSuffix.trans ⟨[e, f, g, i], rfl⟩ hafter).trans hr
          · exact hr
        · cases h
      · cases h
        exact hr
    · split at h <;> cases h <;> exact hr
  · cases h

theorem escapeChar?_suffix {cs rest : List Char} {d : Char}
    (h : escapeChar? cs = some (d, rest)) : rest <:+ cs := by
  unfold escapeChar? at h
  split at h
  case h_1 => cases h
  case h_7 => exact (codePoint?_suffix h).trans (List.suffix_cons _ _)
  all_goals
    cases h
    exact List.suffix_cons _ _

theorem chars?_suffix {fuel : Nat} {cs ds after : List Char}
    (h : chars? fuel cs = some (ds, after)) : after <:+ cs := by
  induction fuel generalizing cs ds after with
  | zero => cases h
  | succ fuel ih =>
    cases cs with
    | nil => cases h
    | cons c rest =>
      simp only [chars?] at h
      split at h
      · cases h
        exact List.suffix_cons _ _
      · split at h
        · obtain ⟨⟨d, rest'⟩, he, h⟩ := Option.bind_eq_some_iff.mp h
          obtain ⟨⟨ds', after'⟩, hc, h⟩ := Option.bind_eq_some_iff.mp h
          cases h
          exact ((ih hc).trans (escapeChar?_suffix he)).trans (List.suffix_cons _ _)
        · obtain ⟨⟨ds', after'⟩, hc, h⟩ := Option.bind_eq_some_iff.mp h
          cases h
          exact (ih hc).trans (List.suffix_cons _ _)

theorem literal?_suffix {cs ds after : List Char} (h : literal? cs = some (ds, after)) :
    after <:+ cs := by
  unfold literal? at h
  split at h
  · exact (chars?_suffix h).trans (List.suffix_cons _ _)
  · cases h

theorem pastName_suffix {cs rest : List Char} (h : pastName cs = some rest) : rest <:+ cs := by
  obtain ⟨⟨ds, after⟩, hl, h⟩ := Option.bind_eq_some_iff.mp h
  exact ((after?_suffix h).trans (literal?_suffix hl)).trans (skipGaps_suffix cs)

theorem skipParts_suffix {lead skip : List Char → Option (List Char)} {close : Char}
    (hlead : ∀ ⦃cs rest⦄, lead cs = some rest → rest <:+ cs)
    (hskip : ∀ ⦃cs rest⦄, skip cs = some rest → rest <:+ cs) {fuel : Nat} {cs rest : List Char}
    (h : skipParts lead skip close fuel cs = some rest) : rest <:+ cs := by
  induction fuel generalizing cs with
  | zero => cases h
  | succ fuel ih =>
    obtain ⟨value, hl, h⟩ := Option.bind_eq_some_iff.mp h
    obtain ⟨after, hs, h⟩ := Option.bind_eq_some_iff.mp h
    have hafter : after <:+ cs := (hskip hs).trans (hlead hl)
    split at h
    · rename_i next hn
      exact ((ih h).trans (after?_suffix hn)).trans hafter
    · exact (after?_suffix h).trans hafter

/-- What is enclosed may have no parts. -/
theorem skipEnclosed_suffix {lead skip : List Char → Option (List Char)} {close : Char}
    (hlead : ∀ ⦃cs rest⦄, lead cs = some rest → rest <:+ cs)
    (hskip : ∀ ⦃cs rest⦄, skip cs = some rest → rest <:+ cs) {fuel : Nat} {cs rest : List Char}
    (h : (after? close cs).or (skipParts lead skip close fuel cs) = some rest) : rest <:+ cs := by
  rcases Option.or_eq_some_iff.mp h with hc | ⟨-, hp⟩
  · exact after?_suffix hc
  · exact skipParts_suffix hlead hskip hp

theorem skipNested_suffix {depth : Nat} {cs rest : List Char}
    (h : skipNested depth cs = some rest) : rest <:+ cs := by
  induction depth using Nat.strongRecOn generalizing cs rest with
  | ind depth ih =>
    refine List.IsSuffix.trans ?_ (skipGaps_suffix cs)
    unfold skipNested at h
    split at h
    · cases h
    · rename_i r hs
      obtain ⟨⟨ds, after⟩, hl, rfl⟩ := Option.map_eq_some_iff.mp h
      rw [hs]
      exact literal?_suffix hl
    · rename_i inner hs
      rw [hs]
      refine List.IsSuffix.trans ?_ (List.suffix_cons _ _)
      split at h
      · cases h
      · rename_i depth
        refine skipEnclosed_suffix (fun _ _ hl => ?_) (fun _ _ => ih depth (Nat.lt_succ_self _)) h
        cases hl
        exact List.suffix_rfl
    · rename_i inner hs
      rw [hs]
      refine List.IsSuffix.trans ?_ (List.suffix_cons _ _)
      split at h
      · cases h
      · rename_i depth
        exact skipEnclosed_suffix (fun _ _ => pastName_suffix)
          (fun _ _ => ih depth (Nat.lt_succ_self _)) h
    · cases h
      exact List.dropWhile_suffix _

theorem skipValue_suffix {cs rest : List Char} (h : skipValue cs = some rest) : rest <:+ cs :=
  skipNested_suffix h

theorem memberStart?_suffix {token : List Char} {fuel : Nat} {cs start : List Char}
    (h : memberStart? token fuel cs = some start) : start <:+ cs := by
  induction fuel generalizing cs with
  | zero => cases h
  | succ fuel ih =>
    obtain ⟨⟨name, after⟩, hl, h⟩ := Option.bind_eq_some_iff.mp h
    obtain ⟨value, hv, h⟩ := Option.bind_eq_some_iff.mp h
    have hvalue : value <:+ cs :=
      ((after?_suffix hv).trans (literal?_suffix hl)).trans (skipGaps_suffix cs)
    split at h
    · cases h
      exact (skipGaps_suffix value).trans hvalue
    · obtain ⟨past, hp, h⟩ := Option.bind_eq_some_iff.mp h
      obtain ⟨next, hn, h⟩ := Option.bind_eq_some_iff.mp h
      exact (((ih h).trans (after?_suffix hn)).trans (skipValue_suffix hp)).trans hvalue

theorem itemStart?_suffix {index : Nat} {cs start : List Char}
    (h : itemStart? index cs = some start) : start <:+ cs := by
  induction index generalizing cs with
  | zero =>
    cases h
    exact skipGaps_suffix cs
  | succ index ih =>
    obtain ⟨past, hp, h⟩ := Option.bind_eq_some_iff.mp h
    obtain ⟨next, hn, h⟩ := Option.bind_eq_some_iff.mp h
    exact ((ih h).trans (after?_suffix hn)).trans (skipValue_suffix hp)

theorem enter?_suffix {token : String} {cs start : List Char}
    (h : enter? token cs = some start) : start <:+ cs := by
  refine List.IsSuffix.trans ?_ (skipGaps_suffix cs)
  unfold enter? at h
  split at h
  · rename_i inner hs
    rw [hs]
    split at h
    · cases h
    · exact (memberStart?_suffix h).trans (List.suffix_cons _ _)
  · rename_i inner hs
    rw [hs]
    obtain ⟨index, -, h⟩ := Option.bind_eq_some_iff.mp h
    split at h
    · cases h
    · exact (itemStart?_suffix h).trans (List.suffix_cons _ _)
  · cases h

/-- The place that a walk comes to lies in the text from which it started. -/
theorem walk_suffix (start : List Char) (tokens : List String) :
    (walk start tokens).1 <:+ start := by
  induction tokens generalizing start with
  | nil => exact List.suffix_rfl
  | cons t ts ih =>
    unfold walk
    split
    · rename_i next hn
      exact (ih next).trans (enter?_suffix hn)
    · exact List.suffix_rfl

/-! ## Strings that the reader accepts -/

theorem unit?_of_hexUnit? {a b c d : Char} {n : Nat} (h : hexUnit? a b c d = some n) :
    unit? a b c d = some n := by
  unfold unit?
  split
  · rename_i ha
    subst ha
    simp [hexUnit?, show Json.hexValue? '+' = none by decide] at h
  · exact h

theorem readUnit_ok {cs rest : List Char} {n : Nat} {hlt : rest.length < cs.length}
    (h : Json.readUnit cs = .ok (n, ⟨rest, hlt⟩)) :
    ∃ a b c d, cs = a :: b :: c :: d :: rest ∧ hexUnit? a b c d = some n := by
  unfold Json.readUnit at h
  split at h
  · rename_i a b c d rest
    split at h
    · rename_i hn
      cases h
      exact ⟨a, b, c, d, rfl, hn⟩
    · cases h
  · split at h
    · simp at h
    · cases h

theorem readLowHalf_ok {high : Nat} {cs rest : List Char} {d : Char}
    {hlt : rest.length < cs.length} (h : Json.readLowHalf high cs = .ok (d, ⟨rest, hlt⟩)) :
    ∃ e f g i low, cs = '\\' :: 'u' :: e :: f :: g :: i :: rest ∧ hexUnit? e f g i = some low ∧
      isLowSurrogate low = true ∧ d = pairedChar high low := by
  unfold Json.readLowHalf at h
  split at h
  · simp at h
  · simp at h
  · obtain ⟨⟨low, rest', hlt'⟩, hu, h⟩ := bind_eq_ok.mp h
    obtain ⟨e, f, g, i, rfl, hx⟩ := readUnit_ok hu
    dsimp only at h
    split at h
    · rename_i hlow
      simp only [pure, Except.pure, Except.ok.injEq, Prod.mk.injEq, Subtype.mk.injEq] at h
      obtain ⟨rfl, rfl⟩ := h
      exact ⟨e, f, g, i, low, rfl, hx, hlow, rfl⟩
    · cases h
  · simp at h
  · simp at h

/-- The scanner decodes an escape as the reader does. -/
theorem escapeChar?_readEscape {cs : List Char} {d : Char} {r : Json.Shorter cs}
    (h : Json.readEscape cs = .ok (d, r)) : escapeChar? cs = some (d, r.1) := by
  unfold Json.readEscape at h
  split at h
  · simp at h
  · simp only at h
    split at h
    case h_9 =>
      obtain ⟨⟨n, rest', hlt⟩, hu, h⟩ := bind_eq_ok.mp h
      obtain ⟨a, b, c, d', rfl, hx⟩ := readUnit_ok hu
      have hx := unit?_of_hexUnit? hx
      dsimp only at h
      split at h
      · cases h
      · rename_i hlow
        split at h
        · rename_i hhigh
          obtain ⟨⟨d'', rest'', hlt'⟩, hl, h⟩ := bind_eq_ok.mp h
          obtain ⟨e, f, g, i, low, rfl, hy, hlow', hd⟩ := readLowHalf_ok hl
          have hy := unit?_of_hexUnit? hy
          simp only [pure, Except.pure, Except.ok.injEq, Prod.mk.injEq] at h
          rw [← h.1, ← h.2]
          simp [escapeChar?, codePoint?, hx, hy, hhigh, hlow', hd]
        · rename_i hhigh
          simp only [pure, Except.pure, Except.ok.injEq, Prod.mk.injEq] at h
          rw [← h.1, ← h.2]
          simp [escapeChar?, codePoint?, hx, hhigh, hlow]
    case h_10 => simp at h
    all_goals
      cases h
      rfl

/-- The scanner reads the characters of a string as the reader does. -/
theorem chars?_spelled {cs ds after : List Char} (h : Json.Spelled cs ds after) {fuel : Nat}
    (hf : cs.length < fuel) : chars? fuel cs = some (ds, after) := by
  induction h generalizing fuel with
  | close =>
    obtain ⟨fuel, rfl⟩ : ∃ k, fuel = k + 1 := ⟨fuel - 1, by omega⟩
    simp [chars?]
  | @escape rest ds after d r he _ ih =>
    obtain ⟨fuel, rfl⟩ : ∃ k, fuel = k + 1 := ⟨fuel - 1, by omega⟩
    have hr := r.2
    simp only [List.length_cons] at hf
    simp [chars?, escapeChar?_readEscape he, ih (show r.1.length < fuel by omega)]
  | @plain c rest ds after hq hb _ ih =>
    obtain ⟨fuel, rfl⟩ : ∃ k, fuel = k + 1 := ⟨fuel - 1, by omega⟩
    simp only [List.length_cons] at hf
    simp [chars?, hq, hb, ih (show rest.length < fuel by omega)]

theorem literal?_spelled {cs ds after : List Char} (h : Json.Spelled cs ds after) :
    literal? ('"' :: cs) = some (ds, after) :=
  chars?_spelled h (Nat.lt_succ_self _)

/-! ## Values that the reader accepts -/

/-- What may follow a value: nothing, or a character that ends a number or literal. -/
def Ends (cs : List Char) : Prop := ∀ c ∈ cs.head?, endsScalar c = true

theorem ends_of_skipGaps {c : Char} {cs rest : List Char} (h : skipGaps cs = c :: rest)
    (hc : endsScalar c = true) : Ends cs := by
  intro d hd
  cases cs with
  | nil => cases hd
  | cons d cs =>
    cases hd
    by_cases hg : isGap d = true
    · simp [endsScalar, hg]
    · rw [Json.skipGaps_cons_of_not (by simpa using hg)] at h
      cases h
      exact hc

theorem endsScalar_of_isWordChar {c : Char} (h : Json.isWordChar c = true) :
    endsScalar c = false := by
  unfold endsScalar isGap
  simp only [Bool.or_eq_false_iff, decide_eq_false_iff_not]
  refine ⟨⟨⟨?_, ?_⟩, ?_⟩, ⟨⟨?_, ?_⟩, ?_⟩, ?_⟩ <;> rintro rfl <;> exact absurd h (by decide)

/-- A number or literal reaches up to what ends it. -/
theorem dropWhile_word {cs rest : List Char} (h : Json.Word cs rest) (he : Ends rest) :
    cs.dropWhile (!endsScalar ·) = rest := by
  induction h with
  | @done cs =>
    cases cs with
    | nil => rfl
    | cons c cs => simp [he c rfl]
  | more hc _ ih => simp [endsScalar_of_isWordChar hc, ih he]

section Sequences

variable {β : Type} {part : List Char → β → List Char → Prop} {close : Char}

/-- The parts of an array or object are skipped together if each of them is. -/
theorem skipParts_listed {lead skip : List Char → Option (List Char)} {room : Nat}
    (hclose : endsScalar close = true) (hcomma : close ≠ ',')
    (hlt : ∀ ⦃cs x rest⦄, part cs x rest → rest.length < cs.length)
    (hskip : ∀ ⦃cs x rest⦄, cs.length ≤ room → part cs x rest → Ends rest →
      (lead cs).bind skip = some rest)
    {cs after rest : List Char} {x : β} {xs : List β} (hx : part cs x after)
    (h : Json.Listed part close after xs rest) (hroom : cs.length ≤ room) {fuel : Nat}
    (hf : cs.length < fuel) : skipParts lead skip close fuel cs = some rest := by
  induction h generalizing cs x fuel with
  | @done after rest hs =>
    obtain ⟨fuel, rfl⟩ : ∃ k, fuel = k + 1 := ⟨fuel - 1, by omega⟩
    obtain ⟨mid, hl, hm⟩ := Option.bind_eq_some_iff.mp
      (hskip hroom hx (ends_of_skipGaps hs hclose))
    have hno : after? ',' after = none :=
      after?_eq_none.mpr fun r hr => hcomma (by rw [hs] at hr; cases hr; rfl)
    simp [skipParts, hl, hm, hno, after?_eq_some.mpr hs]
  | @more after next after' rest y ys hs hy hl ih =>
    obtain ⟨fuel, rfl⟩ : ∃ k, fuel = k + 1 := ⟨fuel - 1, by omega⟩
    obtain ⟨mid, hlead, hm⟩ := Option.bind_eq_some_iff.mp
      (hskip hroom hx (ends_of_skipGaps hs (by decide)))
    have h1 := hlt hx
    have h2 := Json.length_lt_of_skipGaps hs
    simp [skipParts, hlead, hm, after?_eq_some.mpr hs,
      ih hy (by omega) (show next.length < fuel by omega)]

/-- What stands between an opening character and the closing one is skipped. -/
theorem skip_enclosed {lead skip : List Char → Option (List Char)} {room : Nat}
    (hclose : endsScalar close = true) (hcomma : close ≠ ',')
    (hlt : ∀ ⦃cs x rest⦄, part cs x rest → rest.length < cs.length)
    (hskip : ∀ ⦃cs x rest⦄, cs.length ≤ room → part cs x rest → Ends rest →
      (lead cs).bind skip = some rest)
    {cs rest : List Char} {xs : List β} (h : Json.Enclosed part close cs xs rest)
    (hroom : cs.length ≤ room) :
    (after? close cs).or (skipParts lead skip close (cs.length + 1) cs) = some rest := by
  cases h with
  | nothing hs => simp [after?_eq_some.mpr hs]
  | something hne hx hl =>
    simp [after?_eq_none.mpr hne,
      skipParts_listed hclose hcomma hlt hskip hx hl hroom (Nat.lt_succ_self _)]

end Sequences

theorem pastName_memberAt {α : Type} {item : List Char → Except Json.Stop (Json.Followed α)}
    {cs rest : List Char} {m : String × α} (h : Json.MemberAt item cs m rest) :
    ∃ value, pastName cs = some value ∧ value.length < cs.length ∧
      item value = .ok (m.2, rest) := by
  obtain ⟨hq, hc, hv, hx⟩ := h
  have h1 := Json.length_lt_of_skipGaps hq
  have h2 := hc.length_lt
  have h3 := Json.length_lt_of_skipGaps hv
  exact ⟨_, by simp [pastName, hq, literal?_spelled hc, after?_eq_some.mpr hv], by omega, hx⟩

/-- Skipping a value stops where reading it does. -/
theorem skipNested_readValue {depth room : Nat} {cs rest : List Char} {v : Located}
    (h : Json.readValue depth cs = .ok (v, rest)) (he : Ends rest) (hroom : cs.length ≤ room) :
    skipNested room cs = some rest := by
  -- On the depth: the parts of an array or object are values of a smaller one.
  induction depth using Nat.strongRecOn generalizing cs rest v room with
  | ind depth ih =>
    have hv := Json.readValue_valueAt h
    generalize hs : skipGaps cs = start at hv
    cases hv with
    | @word _ c cs' rest j hc hw _ =>
      have hd := dropWhile_word (.more hc hw) he
      unfold skipNested
      rw [hs]
      split
      case h_5 => rw [hd]
      all_goals
        rename_i heq
        cases heq
        try exact absurd hc Bool.false_ne_true
    | string hc => simp [skipNested, hs, literal?_spelled hc]
    | @array depth inner rest items hi =>
      have hinner := Json.length_lt_of_skipGaps hs
      obtain ⟨room, rfl⟩ : ∃ k, room = k + 1 := ⟨room - 1, by omega⟩
      unfold skipNested
      rw [hs]
      refine skip_enclosed (by decide) (by decide)
        (fun _ _ _ => Json.ItemAt.length_lt fun _ _ _ => Json.readValue_length_lt) ?_ hi
        (show inner.length ≤ room by omega)
      intro ds x after hlen hx hend
      have hx' : Json.readValue depth ds = .ok (x, after) := by
        rw [← Json.readValue_skipGaps]
        exact hx
      exact ih depth (Nat.lt_succ_self _) hx' hend hlen
    | @object depth inner rest members hm =>
      have hinner := Json.length_lt_of_skipGaps hs
      obtain ⟨room, rfl⟩ : ∃ k, room = k + 1 := ⟨room - 1, by omega⟩
      unfold skipNested
      rw [hs]
      refine skip_enclosed (by decide) (by decide)
        (fun _ _ _ => Json.MemberAt.length_lt fun _ _ _ => Json.readValue_length_lt) ?_ hm
        (show inner.length ≤ room by omega)
      intro ds m after hlen hx hend
      obtain ⟨value, hp, hlt, hr⟩ := pastName_memberAt hx
      rw [hp]
      exact ih depth (Nat.lt_succ_self _) hr hend (by omega)

theorem skipValue_readValue {depth : Nat} {cs rest : List Char} {v : Located}
    (h : Json.readValue depth cs = .ok (v, rest)) (he : Ends rest) : skipValue cs = some rest :=
  skipNested_readValue h he (Nat.le_refl _)

end DeliveryRules.Pointer
