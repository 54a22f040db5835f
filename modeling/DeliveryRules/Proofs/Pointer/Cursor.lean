import DeliveryRules.Proofs.Json.Escapes
import DeliveryRules.Proofs.Pointer.Bytes
import DeliveryRules.Proofs.Text.Cut

/-!
# The cursor on any text

- **Runs** (`Sound`): a run comes to what is found among the characters, unless a character is
  escaped that is not ASCII, which does not happen in a text in which none is (`EscapesAscii`).
- **Strings** (`literal_sound`), **values** (`skipValue_sound`), **ways** (`walk_sound`): what the
  cursor does is sound, construct by construct.
- `Cursor.locate_safe`: where the cursor comes to.
-/

namespace DeliveryRules.Pointer.Cursor

open Json (EscapesAscii escapesAscii_escape escapesAscii_cons escapesAscii_append hexValue?
  hexUnit? isHighSurrogate isLowSurrogate pairedChar skipGaps_skipGaps skipGaps_length_le)
open Text (byteCount)

/-! ## Runs -/

section Runs

variable {α β γ δ : Type}

/-- The outcome is what is found among the characters, or is lost where nothing is. -/
inductive Matches (R : α → β → Prop) : Except Stop α → Option β → Prop where
  | found {a : α} {b : β} (h : R a b) : Matches R (.ok a) (some b)
  | lost : Matches R (.error .lost) none

/-- All characters that were escaped on the way are ASCII. -/
def Run.IsAscii (x : Run α) : Prop := ∀ b ∈ x.escaped, b.toNat < 128

instance (x : Run α) : Decidable x.IsAscii :=
  inferInstanceAs (Decidable (∀ b ∈ x.escaped, b.toNat < 128))

/-- The run matches what is found among the characters if it meets no escape but of ASCII
characters, and it meets none if the text has none. -/
structure Sound (text : List Char) (R : α → β → Prop) (x : Run α) (y : Option β) : Prop where
  isAscii : EscapesAscii text → x.IsAscii
  outcome : x.IsAscii → Matches R x.outcome y

variable {text : List Char} {R : α → β → Prop} {S : γ → δ → Prop} {x : Run α} {y : Option β}

theorem Run.pure_bind (a : α) (f : α → Run γ) : (pure a >>= f : Run γ) = f a := rfl

namespace Sound

theorem pure {a : α} {b : β} (h : R a b) : Sound text R (Pure.pure a) (some b) :=
  ⟨fun _ => nofun, fun _ => .found h⟩

theorem lost : Sound text R (Run.stop .lost) none :=
  ⟨fun _ => nofun, fun _ => .lost⟩

theorem mono {R' : α → β → Prop} (hx : Sound text R x y) (h : ∀ a b, R a b → R' a b) :
    Sound text R' x y := by
  refine ⟨hx.isAscii, fun hascii => ?_⟩
  obtain ⟨escaped, outcome⟩ := x
  cases hx.outcome hascii with
  | found hab => exact .found (h _ _ hab)
  | lost => exact .lost

/-- What goes on after some escapes is sound if it is after escapes of ASCII characters. -/
theorem prepend {escaped : List UInt8} {z : Run γ} {w : Option δ}
    (htext : EscapesAscii text → ∀ b ∈ escaped, b.toNat < 128)
    (hz : (∀ b ∈ escaped, b.toNat < 128) → Sound text S z w) :
    Sound text S ⟨escaped ++ z.escaped, z.outcome⟩ w where
  isAscii h := List.forall_mem_append.mpr ⟨htext h, (hz (htext h)).isAscii h⟩
  outcome h := by
    obtain ⟨hescaped, hrest⟩ := List.forall_mem_append.mp h
    exact (hz hescaped).outcome hrest

theorem bind (hx : Sound text R x y) {f : α → Run γ} {g : β → Option δ}
    (hf : ∀ a b, y = some b → R a b → Sound text S (f a) (g b)) :
    Sound text S (x >>= f) (y.bind g) := by
  obtain ⟨htext, houtcome⟩ := hx
  obtain ⟨escaped, outcome⟩ := x
  cases outcome with
  | ok a =>
    refine prepend htext fun hascii => ?_
    cases houtcome hascii with
    | found h => exact hf a _ rfl h
  | error s =>
    refine ⟨htext, fun hascii => ?_⟩
    cases houtcome hascii with
    | lost => exact .lost

/-- Where the way is lost, what goes on is sound with nothing found. -/
theorem settle (hx : Sound text R x y) {f : Option α → Run γ} {g : Option β → Option δ}
    (hfound : ∀ a b, y = some b → R a b → Sound text S (f (some a)) (g (some b)))
    (hlost : y = none → Sound text S (f none) (g none)) : Sound text S (x.settle f) (g y) := by
  obtain ⟨htext, houtcome⟩ := hx
  obtain ⟨escaped, outcome⟩ := x
  cases outcome with
  | ok a =>
    refine prepend htext fun hascii => ?_
    cases houtcome hascii with
    | found h => exact hfound a _ rfl h
  | error s =>
    cases s with
    | lost =>
      refine prepend htext fun hascii => ?_
      cases houtcome hascii with
      | lost => exact hlost rfl
    | torn => exact ⟨htext, fun hascii => nomatch houtcome hascii⟩
    | endless => exact ⟨htext, fun hascii => nomatch houtcome hascii⟩

theorem note {b : UInt8} (hb : b.toNat < 128) (hx : Sound text R x y) :
    Sound text R (Run.note b >>= fun _ => x) y :=
  prepend (fun _ => List.forall_mem_singleton.mpr hb) fun _ => hx

theorem eq_ok {x : Run α} {a : α} (hx : Sound text Eq x (some a)) (hascii : x.IsAscii) :
    x.outcome = .ok a := by
  obtain ⟨escaped, outcome⟩ := x
  cases hx.outcome hascii with
  | found h => rw [h]

end Sound

end Runs

variable {text : List Char} {pos : Nat} {rest : List Char}

/-- What comes of a run and what comes of the characters are the same, and the cursor stands where
the characters are left. -/
def Reads {α : Type} (text : List Char) (a : α × Nat) (b : α × List Char) : Prop :=
  a.1 = b.1 ∧ At text a.2 b.2

theorem expect_sound (h : Facing text pos rest) {c : Char} (hc : c.toNat < 128) :
    Sound text (At text) (expect text c pos) (after? c rest) := by
  rw [expect]
  rcases h.eat hc with ⟨after, next, hafter, heat, hnext⟩ | ⟨hafter, heat⟩
  · rw [hafter, heat]
    exact .pure hnext
  · rw [hafter, heat]
    exact .lost

/-! ## Strings -/

/-- The number of the four digits that start here, and what follows them. -/
def unitAt? : List Char → Option (Nat × List Char)
  | a :: b :: c :: d :: rest => (unit? a b c d).map (·, rest)
  | _ => none

theorem unitAt?_eq_none {cs : List Char}
    (h : ∀ a b c d rest, cs = a :: b :: c :: d :: rest → False) : unitAt? cs = none := by
  unfold unitAt?
  split
  · rename_i a b c d rest
    exact absurd rfl (h a b c d rest)
  · rfl

/-- The character after a high surrogate: that of both halves, if the other half follows. -/
def pairAt? (high : Nat) (rest : List Char) : Option (Char × List Char) :=
  match Text.afterPrefix? ['\\', 'u'] rest with
  | none => some (replacementChar, rest)
  | some after =>
    (unitAt? after).bind fun low =>
      if isLowSurrogate low.1 then some (pairedChar high low.1, low.2)
      else some (replacementChar, rest)

theorem codePoint?_eq (cs : List Char) :
    codePoint? cs = (unitAt? cs).bind fun unit =>
      if isHighSurrogate unit.1 then pairAt? unit.1 unit.2
      else some (ofUnit unit.1, unit.2) := by
  unfold codePoint?
  split
  · rename_i a b c d rest
    have hunit : unitAt? (a :: b :: c :: d :: rest) = (unit? a b c d).map (·, rest) := rfl
    rw [hunit]
    cases unit? a b c d with
    | none => rfl
    | some high =>
      simp only [Option.bind_eq_bind, Option.bind_some, Option.map_some]
      split
      · split
        · rename_i after
          have hmark : Text.afterPrefix? ['\\', 'u'] ('\\' :: 'u' :: after) = some after := rfl
          rw [pairAt?, hmark]
          simp only
          split
          · rename_i e f g h after
            have hlow : unitAt? (e :: f :: g :: h :: after) = (unit? e f g h).map (·, after) := rfl
            rw [hlow]
            cases unit? e f g h with
            | none => rfl
            | some low => rfl
          · rename_i hshort
            rw [unitAt?_eq_none hshort]
            rfl
        · rename_i hno
          have hmark : Text.afterPrefix? ['\\', 'u'] rest = none :=
            Option.eq_none_iff_forall_ne_some.mpr fun after h =>
              hno after (Text.afterPrefix?_eq_some.mp h)
          rw [pairAt?, hmark]
      · rename_i hhigh
        rw [ofUnit, Bool.eq_false_iff.mpr hhigh, Bool.false_or]
        split <;> rfl
  · rename_i hshort
    rw [unitAt?_eq_none hshort]
    rfl

theorem unit?_eq_some {a b c d : Char} {n : Nat} (h : unit? a b c d = some n) :
    ∀ x ∈ [a, b, c, d], x.toNat < 128 ∧ x ≠ '\\' := by
  have hvalue {x : Char} {n : Nat} (h : hexValue? x = some n) : x.toNat < 128 ∧ x ≠ '\\' :=
    ⟨Json.ascii_of_hexValue? h, Json.ne_backslash_of_hexValue? h⟩
  have hunit {a : Char} (h : hexUnit? a b c d = some n) :
      ∀ x ∈ [a, b, c, d], x.toNat < 128 ∧ x ≠ '\\' := by
    obtain ⟨_, ha, h⟩ := Option.bind_eq_some_iff.mp h
    obtain ⟨_, hb, h⟩ := Option.bind_eq_some_iff.mp h
    obtain ⟨_, hc, h⟩ := Option.bind_eq_some_iff.mp h
    obtain ⟨_, hd, -⟩ := Option.bind_eq_some_iff.mp h
    simp only [List.forall_mem_cons]
    exact ⟨hvalue ha, hvalue hb, hvalue hc, hvalue hd, nofun⟩
  unfold unit? at h
  split at h
  · rename_i ha
    exact List.forall_mem_cons.mpr ⟨by rw [ha]; decide, (List.forall_mem_cons.mp (hunit h)).2⟩
  · exact hunit h

theorem unit_sound (h : At text pos rest) :
    Sound text (fun n u => n = u.1 ∧ At text (pos + 4) u.2) (unit text pos) (unitAt? rest) := by
  rw [unit, h.slice?_add]
  split
  · rename_i a b c d heq
    obtain ⟨after, rfl, hcount⟩ := upTo?_eq_some heq
    have hafter := h.append
    rw [hcount] at hafter
    have hunit : unitAt? ([a, b, c, d] ++ after) = (unit? a b c d).map (·, after) := rfl
    rw [hunit]
    cases unit? a b c d with
    | none => exact .lost
    | some n => exact .pure ⟨rfl, hafter⟩
  · rename_i hne
    -- Four characters that are a number are four bytes.
    have hnone : unitAt? rest = none := by
      unfold unitAt?
      split
      · rename_i a b c d after
        cases hunit : unit? a b c d with
        | none => rfl
        | some n =>
          have hcount : byteCount [a, b, c, d] = 4 :=
            byteCount_of_ascii fun x hx => (unit?_eq_some hunit x hx).1
          have hpiece := upTo?_append [a, b, c, d] after
          rw [hcount] at hpiece
          exact absurd hpiece (hne a b c d)
      · rfl
    rw [hnone]
    exact .lost

theorem codePoint_sound (h : At text pos rest) :
    Sound text (Reads text) (codePoint text pos) (codePoint? rest) := by
  rw [codePoint?_eq, codePoint]
  refine (unit_sound h).bind ?_
  rintro high ⟨_, after⟩ - ⟨rfl, hafter⟩
  have hslice : slice? text (pos + 4) (pos + 6) = upTo? 2 after := hafter.slice?_add 2
  simp only
  cases hhigh : isHighSurrogate high with
  | false =>
    rw [Bool.false_and]
    exact .pure ⟨rfl, hafter⟩
  | true =>
    have hof : ofUnit high = replacementChar := if_pos (by rw [hhigh]; rfl)
    rw [Bool.true_and, if_pos rfl, hslice, pairAt?, hof]
    split
    · rename_i hmark
      obtain ⟨more, rfl, -⟩ := upTo?_eq_some (of_decide_eq_true hmark)
      have hmore : At text (pos + 6) more := (hafter.ascii (by decide)).ascii (by decide)
      rw [Text.afterPrefix?_append]
      refine (unit_sound hmore).bind ?_
      rintro low ⟨_, past⟩ - ⟨rfl, hpast⟩
      simp only
      split
      · exact .pure ⟨rfl, hpast⟩
      · exact .pure ⟨rfl, hafter⟩
    · rename_i hno
      cases hmark : Text.afterPrefix? ['\\', 'u'] after with
      | none => exact .pure ⟨rfl, hafter⟩
      | some more =>
        obtain rfl := Text.afterPrefix?_eq_some.mp hmark
        exact absurd (decide_eq_true (upTo?_append ['\\', 'u'] more)) hno

/-- What a backslash escapes is ASCII, and escapes nothing itself. -/
theorem escape_sound (h : At text pos rest)
    (htext : EscapesAscii text → EscapesAscii ('\\' :: rest)) :
    Sound text (Reads text) (escape text pos) (escapeChar? rest) := by
  cases rest with
  | nil =>
    rw [escape, h.next_nil]
    exact .lost
  | cons c rest =>
    obtain ⟨b, hb, hnext⟩ := h.next_cons
    rw [escape, hnext, Run.pure_bind]
    rcases mem_utf8EncodeChar hb with ⟨hc, hbyte⟩ | ⟨hc, hbyte⟩
    · have hafter := h.ascii hc
      refine .note (hbyte ▸ hc) ?_
      rw [(asChar_eq_iff hb hc).mpr rfl]
      unfold escapeChar?
      split
      case h_6 => exact codePoint_sound hafter
      case h_7 =>
        split
        case h_8 heq =>
          cases heq
          exact .pure ⟨rfl, hafter⟩
        all_goals
          rename_i heq
          cases heq
        all_goals contradiction
      all_goals exact .pure ⟨rfl, hafter⟩
    · constructor
      · intro hall
        have hascii := (escapesAscii_escape.mp (htext hall)).1
        omega
      · intro hall
        have hascii := hall b (List.mem_append_left _ List.mem_cons_self)
        omega

/-- The digits of an escape escape nothing. -/
theorem escapesAscii_of_unitAt? {cs rest : List Char} {n : Nat} (h : unitAt? cs = some (n, rest))
    (hcs : EscapesAscii cs) : EscapesAscii rest := by
  unfold unitAt? at h
  split at h
  · rename_i a b c d after
    obtain ⟨_, hunit, hn⟩ := Option.map_eq_some_iff.mp h
    cases hn
    have hascii := unit?_eq_some hunit
    simp only [List.forall_mem_cons] at hascii
    obtain ⟨ha, hb, hc, hd, -⟩ := hascii
    rwa [escapesAscii_cons ha.2, escapesAscii_cons hb.2, escapesAscii_cons hc.2,
      escapesAscii_cons hd.2] at hcs
  · cases h

theorem escapesAscii_of_pairAt? {high : Nat} {cs rest : List Char} {d : Char}
    (h : pairAt? high cs = some (d, rest)) (hcs : EscapesAscii cs) : EscapesAscii rest := by
  unfold pairAt? at h
  split at h
  · cases h
    exact hcs
  · rename_i after hmark
    obtain rfl := Text.afterPrefix?_eq_some.mp hmark
    obtain ⟨⟨low, past⟩, hlow, h⟩ := Option.bind_eq_some_iff.mp h
    have hpast := escapesAscii_of_unitAt? hlow (escapesAscii_escape.mp hcs).2
    simp only at h
    split at h
    · simp only [Option.some.injEq, Prod.mk.injEq] at h
      exact h.2 ▸ hpast
    · cases h
      exact hcs

theorem escapesAscii_of_escapeChar? {cs rest : List Char} {d : Char}
    (h : escapeChar? cs = some (d, rest)) (hcs : EscapesAscii ('\\' :: cs)) :
    EscapesAscii rest := by
  unfold escapeChar? at h
  split at h
  case h_1 => cases h
  case h_7 =>
    have hdigits := (escapesAscii_escape.mp hcs).2
    rw [codePoint?_eq] at h
    obtain ⟨⟨high, after⟩, hunit, h⟩ := Option.bind_eq_some_iff.mp h
    have hafter := escapesAscii_of_unitAt? hunit hdigits
    simp only at h
    split at h
    · exact escapesAscii_of_pairAt? h hafter
    · cases h
      exact hafter
  all_goals
    cases h
    exact (escapesAscii_escape.mp hcs).2

/-- Characters that are no quote or backslash are read as they are. -/
theorem chars?_append {run : List Char} (hrun : ∀ c ∈ run, isPlain c = true) (fuel : Nat)
    (rest : List Char) :
    chars? (run.length + fuel) (run ++ rest) =
      (chars? fuel rest).bind fun r => some (run ++ r.1, r.2) := by
  induction run with
  | nil => cases h : chars? fuel rest <;> simp [h]
  | cons c run ih =>
    rw [List.forall_mem_cons] at hrun
    obtain ⟨hquote, hbackslash⟩ : c ≠ '"' ∧ c ≠ '\\' := by simpa [isPlain] using hrun.1
    rw [List.length_cons, Nat.succ_add, List.cons_append, chars?, if_neg hquote, if_neg hbackslash,
      ih hrun.2]
    simp only [Option.bind_eq_bind, Option.bind_assoc]
    rfl

theorem chars_sound {fuel fuel' : Nat} (hfuel : rest.length < fuel) (hfuel' : rest.length < fuel')
    (h : At text pos rest) (htext : EscapesAscii text → EscapesAscii rest) :
    Sound text (Reads text) (chars text fuel pos) (chars? fuel' rest) := by
  induction fuel generalizing fuel' pos rest with
  | zero => cases hfuel
  | succ fuel ih =>
    obtain ⟨run, after, rfl, hrun, hhead, hslice, hafter⟩ := h.run isBlunt_isPlain
    rw [List.length_append] at hfuel hfuel'
    obtain ⟨fuel', rfl⟩ : ∃ k, fuel' = run.length + (k + 1) :=
      ⟨fuel' - run.length - 1, by omega⟩
    rw [chars, chars?_append hrun]
    simp only
    cases after with
    | nil =>
      rw [hafter.next_nil]
      exact .lost
    | cons c after =>
      obtain ⟨b, hb, hnext⟩ := hafter.next_cons
      have hpiece : (Run.ofOption .torn (some run) : Run (List Char)) = pure run := rfl
      rw [hnext, Run.pure_bind, hslice, hpiece, Run.pure_bind, chars?]
      by_cases hquote : c = '"'
      · subst hquote
        rw [if_pos ((asChar_eq_iff hb (by decide)).mpr rfl), if_pos rfl]
        exact .pure ⟨(List.append_nil run).symm, hafter.ascii (by decide)⟩
      · obtain rfl : c = '\\' := by simpa [isPlain, hquote] using hhead c rfl
        rw [if_neg fun heq => hquote ((asChar_eq_iff hb (by decide)).mp heq), if_neg hquote,
          if_pos rfl]
        have hno : ∀ c ∈ run, c ≠ '\\' := by
          rintro _ hmem rfl
          exact absurd (hrun _ hmem) (by decide)
        have hescape : EscapesAscii text → EscapesAscii ('\\' :: after) := fun ht =>
          (escapesAscii_append hno).mp (htext ht)
        simp only [Option.bind_eq_bind, Option.bind_assoc]
        refine (escape_sound (hafter.ascii (by decide)) hescape).bind ?_
        rintro ⟨d, next⟩ ⟨_, left⟩ hfound ⟨rfl, hleft⟩
        have hshort : left.length ≤ after.length := (escapeChar?_suffix hfound).length_le
        rw [List.length_cons] at hfuel hfuel'
        have hlt : left.length < fuel := by omega
        have hlt' : left.length < fuel' := by omega
        refine (ih hlt hlt' hleft ?_).bind ?_
        · exact fun ht => escapesAscii_of_escapeChar? hfound (hescape ht)
        · rintro ⟨ds, last⟩ ⟨_, past⟩ - ⟨rfl, hpast⟩
          exact .pure ⟨rfl, hpast⟩

theorem At.length_lt_fuel (h : At text pos rest) : rest.length < fuel text := by
  have hle := h.suffix.length_le
  have hbytes := length_le_byteCount text
  rw [fuel, length_bytes]
  omega

theorem literal_sound (h : At text pos rest) :
    Sound text (Reads text) (literal text pos) (literal? rest) := by
  cases rest with
  | nil =>
    rw [literal, h.next_nil]
    exact .lost
  | cons c rest =>
    obtain ⟨b, hb, hnext⟩ := h.next_cons
    rw [literal, hnext, Run.pure_bind]
    by_cases hquote : c = '"'
    · subst hquote
      have hinner := h.ascii (by decide)
      rw [if_pos ((asChar_eq_iff hb (by decide)).mpr rfl)]
      refine chars_sound hinner.length_lt_fuel (Nat.lt_succ_self _) hinner fun htext => ?_
      exact (escapesAscii_cons (by decide)).mp (htext.suffix h.suffix (by simp))
    · rw [if_neg fun heq => hquote ((asChar_eq_iff hb (by decide)).mp heq)]
      have hnone : literal? (c :: rest) = none := by
        unfold literal?
        split
        · rename_i heq
          cases heq
          exact absurd rfl hquote
        · rfl
      rw [hnone]
      exact .lost

/-! ## Values -/

theorem pastName_sound (h : Facing text pos rest) :
    Sound text (Facing text) (pastName text (skipGaps text pos)) (Pointer.pastName rest) := by
  refine (literal_sound h).bind ?_
  rintro ⟨name, next⟩ ⟨_, after⟩ - ⟨rfl, hafter⟩
  exact (expect_sound hafter.facing (by decide)).mono fun _ _ => At.facing

section Parts

variable {lead skip : Nat → Run Nat} {lead? skip? : List Char → Option (List Char)} {close : Char}
  {room : Nat} (hclose : close.toNat < 128)
  (hlead : ∀ ⦃pos rest⦄, Facing text pos rest →
    Sound text (Facing text) (lead (skipGaps text pos)) (lead? rest))
  (hshort : ∀ ⦃cs rest⦄, lead? cs = some rest → rest <:+ cs)
  (hskip : ∀ ⦃pos rest⦄, rest.length ≤ room → Facing text pos rest →
    Sound text (At text) (skip pos) (skip? rest))
  (hshorter : ∀ ⦃cs rest⦄, skip? cs = some rest → rest <:+ cs)

include hclose hlead hshort hskip hshorter

/-- Getting past parts is sound if getting to each of them and past it is. -/
theorem skipParts_sound {fuel fuel' : Nat} (hfuel : rest.length < fuel)
    (hfuel' : rest.length < fuel') (hroom : rest.length ≤ room) (h : Facing text pos rest) :
    Sound text (At text) (skipParts text lead skip close fuel pos)
      (Pointer.skipParts lead? skip? close fuel' rest) := by
  induction fuel generalizing fuel' pos rest with
  | zero => cases hfuel
  | succ fuel ih =>
    cases fuel' with
    | zero => cases hfuel'
    | succ fuel' =>
      rw [skipParts, Pointer.skipParts]
      refine (hlead h).bind fun pos value hvalue hfacing => ?_
      have hle := (hshort hvalue).length_le
      refine (hskip (by omega) hfacing).bind fun pos after hafter hat => ?_
      have hle' := (hshorter hafter).length_le
      rcases hat.facing.eat (by decide : ','.toNat < 128) with
        ⟨more, next, hmore, heat, hnext⟩ | ⟨hmore, heat⟩
      · rw [hmore, heat]
        have hlt := after?_length_lt hmore
        exact ih (by omega) (by omega) (by omega) hnext.facing
      · rw [hmore, heat]
        exact expect_sound (.of_skipGaps hat.skipGaps) hclose

/-- What stands between an opening character and the closing one is skipped. -/
theorem skipEnclosed_sound (hroom : rest.length ≤ room) (h : At text pos rest) :
    Sound text (At text)
      (match eat text close pos with
        | (true, pos) => pure pos
        | (false, pos) => skipParts text lead skip close (fuel text) pos)
      ((after? close rest).or (Pointer.skipParts lead? skip? close (rest.length + 1) rest)) := by
  rcases h.facing.eat hclose with ⟨after, next, hafter, heat, hnext⟩ | ⟨hafter, heat⟩
  · rw [hafter, heat]
    exact .pure hnext
  · rw [hafter, heat, Option.none_or]
    exact skipParts_sound hclose hlead hshort hskip hshorter h.length_lt_fuel
      (Nat.lt_succ_self _) hroom (.of_skipGaps h.skipGaps)

end Parts

theorem skipNested_sound {depth depth' : Nat} (hdepth : (Json.skipGaps rest).length ≤ depth)
    (hdepth' : (Json.skipGaps rest).length ≤ depth') (h : Facing text pos rest) :
    Sound text (At text) (skipValue text depth pos) (skipNested depth' rest) := by
  -- On the depth: the parts of an array or object are values of a smaller one.
  induction depth using Nat.strongRecOn generalizing depth' pos rest with
  | ind depth ih =>
    unfold Facing at h
    unfold skipValue skipNested
    simp only
    cases hs : Json.skipGaps rest with
    | nil =>
      rw [hs] at h
      rw [h.next_nil]
      exact .lost
    | cons c inner =>
      rw [hs] at h
      obtain ⟨b, hb, hnext⟩ := h.next_cons
      have hsees {d : Char} (hd : d.toNat < 128) : asChar b = d ↔ c = d := asChar_eq_iff hb hd
      rw [hs, List.length_cons] at hdepth hdepth'
      rw [hnext, Run.pure_bind]
      by_cases hquote : c = '"'
      · subst hquote
        rw [if_pos ((hsees (by decide)).mpr rfl)]
        simp only [Option.map_eq_bind]
        refine (literal_sound h).bind ?_
        rintro ⟨chars, next⟩ ⟨_, after⟩ - ⟨rfl, hafter⟩
        exact .pure hafter
      rw [if_neg fun heq => hquote ((hsees (by decide)).mp heq)]
      by_cases harray : c = '['
      · subst harray
        obtain ⟨depth, rfl⟩ : ∃ k, depth = k + 1 := ⟨depth - 1, by omega⟩
        obtain ⟨depth', rfl⟩ : ∃ k, depth' = k + 1 := ⟨depth' - 1, by omega⟩
        rw [if_pos ((hsees (by decide)).mpr rfl)]
        refine skipEnclosed_sound (by decide) (fun _ _ h => .pure (.of_skipGaps h))
          (fun _ _ h => by cases h; exact List.suffix_rfl) ?_ (fun _ _ => skipNested_suffix)
          (Nat.le_refl _) (h.ascii (by decide))
        intro pos value hroom hvalue
        have hle := skipGaps_length_le value
        exact ih depth (Nat.lt_succ_self _) (by omega) (by omega) hvalue
      rw [if_neg fun heq => harray ((hsees (by decide)).mp heq)]
      by_cases hobject : c = '\x7b'
      · subst hobject
        obtain ⟨depth, rfl⟩ : ∃ k, depth = k + 1 := ⟨depth - 1, by omega⟩
        obtain ⟨depth', rfl⟩ : ∃ k, depth' = k + 1 := ⟨depth' - 1, by omega⟩
        rw [if_pos ((hsees (by decide)).mpr rfl)]
        refine skipEnclosed_sound (by decide) (fun _ _ => pastName_sound)
          (fun _ _ => pastName_suffix) ?_ (fun _ _ => skipNested_suffix)
          (Nat.le_refl _) (h.ascii (by decide))
        intro pos value hroom hvalue
        have hle := skipGaps_length_le value
        exact ih depth (Nat.lt_succ_self _) (by omega) (by omega) hvalue
      rw [if_neg fun heq => hobject ((hsees (by decide)).mp heq)]
      split
      case h_5 => exact .pure (h.skipWhile isBlunt_scalar)
      all_goals
        rename_i heq
        cases heq
      all_goals contradiction

theorem skipValue_sound (h : Facing text pos rest) :
    Sound text (At text) (skipValue text (fuel text) pos) (Pointer.skipValue rest) :=
  skipNested_sound (Nat.le_of_lt (At.length_lt_fuel h)) (skipGaps_length_le rest) h

/-! ## Ways -/

theorem memberStart_sound (token : List Char) {fuel fuel' : Nat} (hfuel : rest.length < fuel)
    (hfuel' : rest.length < fuel') (h : Facing text pos rest) :
    Sound text (At text) (memberStart text token fuel pos) (memberStart? token fuel' rest) := by
  induction fuel generalizing fuel' pos rest with
  | zero => cases hfuel
  | succ fuel ih =>
    cases fuel' with
    | zero => cases hfuel'
    | succ fuel' =>
      rw [memberStart, memberStart?]
      refine (literal_sound h).bind ?_
      rintro ⟨name, _⟩ ⟨_, after⟩ hname ⟨rfl, hafter⟩
      have hle := (literal?_suffix hname).length_le
      have hgaps := skipGaps_length_le rest
      refine (expect_sound hafter.facing (by decide)).bind fun pos value hvalue hat => ?_
      have hlt := after?_length_lt hvalue
      simp only at hafter hlt ⊢
      split
      · exact .pure hat.skipGaps
      · refine (skipValue_sound (.of_skipGaps hat.skipGaps)).bind fun pos past hpast hat => ?_
        have hle' := (skipValue_suffix hpast).length_le
        refine (expect_sound hat.facing (by decide)).bind fun pos more hmore hat => ?_
        have hlt' := after?_length_lt hmore
        exact ih (by omega) (by omega) hat.facing

/-- However great the index is, there are no more items to get past than the text has characters. -/
theorem itemStart_sound {fuel : Nat} (hfuel : rest.length < fuel) (index : Nat)
    (h : Facing text pos rest) :
    Sound text (At text) (itemStart text fuel index pos) (itemStart? index rest) := by
  induction fuel generalizing index pos rest with
  | zero => cases hfuel
  | succ fuel ih =>
    cases index with
    | zero => exact .pure h
    | succ index =>
      rw [itemStart, itemStart?]
      refine (skipValue_sound (.of_skipGaps h)).bind fun pos past hpast hat => ?_
      have hle := (skipValue_suffix hpast).length_le
      refine (expect_sound hat.facing (by decide)).bind fun pos more hmore hat => ?_
      have hlt := after?_length_lt hmore
      exact ih (by omega) index hat.facing

theorem enter_sound (token : String) (h : At text pos rest) :
    Sound text (At text) (enter text token pos) (enter? token rest) := by
  have hgaps := h.skipGaps
  unfold enter enter?
  simp only
  cases hs : Json.skipGaps rest with
  | nil =>
    rw [hs] at hgaps
    rw [hgaps.next_nil]
    exact .lost
  | cons c inner =>
    rw [hs] at hgaps
    obtain ⟨b, hb, hnext⟩ := hgaps.next_cons
    have hsees {d : Char} (hd : d.toNat < 128) : asChar b = d ↔ c = d := asChar_eq_iff hb hd
    rw [hnext, Run.pure_bind]
    by_cases hobject : c = '\x7b'
    · subst hobject
      have hinner := hgaps.ascii (by decide)
      rw [if_pos ((hsees (by decide)).mpr rfl)]
      rcases hinner.facing.eat (by decide : '\x7d'.toNat < 128) with
        ⟨after, next, hafter, heat, -⟩ | ⟨hafter, heat⟩
      · simp only [hafter, heat]
        exact .lost
      · simp only [hafter, heat]
        exact memberStart_sound _ hinner.length_lt_fuel (Nat.lt_succ_self _)
          (.of_skipGaps hinner.skipGaps)
    rw [if_neg fun heq => hobject ((hsees (by decide)).mp heq)]
    by_cases harray : c = '['
    · subst harray
      have hinner := hgaps.ascii (by decide)
      rw [if_pos ((hsees (by decide)).mpr rfl)]
      cases index? token with
      | none => exact .lost
      | some index =>
        have hindex : (Run.ofOption .lost (some index) : Run Nat) = pure index := rfl
        rw [hindex, Run.pure_bind]
        rcases hinner.facing.eat (by decide : ']'.toNat < 128) with
          ⟨after, next, hafter, heat, -⟩ | ⟨hafter, heat⟩
        · simp only [Option.bind_eq_bind, Option.bind_some, hafter, heat]
          exact .lost
        · simp only [Option.bind_eq_bind, Option.bind_some, hafter, heat]
          exact itemStart_sound hinner.length_lt_fuel index (.of_skipGaps hinner.skipGaps)
    rw [if_neg fun heq => harray ((hsees (by decide)).mp heq)]
    split
    case h_3 => exact .lost
    all_goals
      rename_i heq
      cases heq
    all_goals contradiction

theorem walk_sound (h : At text pos rest) (tokens : List String) :
    Sound text (fun a b => a.2 = b.2 ∧ At text a.1 b.1) (walk text pos tokens)
      (some (Pointer.walk rest tokens)) := by
  induction tokens generalizing pos rest with
  | nil => exact .pure ⟨rfl, h⟩
  | cons t ts ih =>
    have hentered := enter_sound t h
    rw [walk, Pointer.walk]
    cases hfound : enter? t rest with
    | some next =>
      rw [hfound] at hentered
      refine hentered.settle (g := fun _ => some (Pointer.walk next ts))
        (fun _ _ hnext hat => ?_) (fun hnone => by cases hnone)
      cases hnext
      exact ih hat
    | none =>
      rw [hfound] at hentered
      exact hentered.settle (g := fun _ => some (rest, false)) (fun _ _ hsome => by cases hsome)
        fun _ => .pure ⟨rfl, h⟩

theorem locate_sound (text : String) (tokens : List String) :
    Sound text.toList Eq (locate text tokens) (some (Pointer.locate text tokens)) := by
  have hwalk := walk_sound (at_start text.toList).skipGaps tokens
  rw [locate, Pointer.locate]
  cases hfound : Pointer.walk (Json.skipGaps text.toList) tokens with
  | mk left whole =>
    rw [hfound] at hwalk
    refine hwalk.bind (g := fun _ => some _) ?_
    rintro ⟨pos, _⟩ _ hleft ⟨rfl, hat⟩
    cases hleft
    refine .pure ?_
    have hoffset : byteCount text.toList - byteCount left = pos := hat.offset
    simp only [hoffset, hat.lineAt]

/-! ## Longer ways -/

theorem walk_append (start : List Char) (ts us : List String) :
    Pointer.walk start (ts ++ us) =
      if (Pointer.walk start ts).2 then Pointer.walk (Pointer.walk start ts).1 us
      else Pointer.walk start ts := by
  induction ts generalizing start with
  | nil => rfl
  | cons t ts ih =>
    rw [List.cons_append, Pointer.walk, Pointer.walk]
    cases enter? t start with
    | some next => exact ih next
    | none => rfl

/-- The place that is found, by what comes before it. -/
theorem locate_place (text : String) (tokens : List String) :
    ∃ before : List Char, text.toList =
        before ++ (Pointer.walk (Json.skipGaps text.toList) tokens).1 ∧
      Pointer.locate text tokens = ⟨(String.ofList before).utf8ByteSize, before.count '\n' + 1,
        (Pointer.walk (Json.skipGaps text.toList) tokens).2⟩ := by
  have hsuffix := (walk_suffix (Json.skipGaps text.toList) tokens).trans
    (Json.skipGaps_suffix text.toList)
  obtain ⟨before, hbefore⟩ := hsuffix
  exact ⟨before, hbefore.symm, locate_eq hbefore.symm rfl⟩

/-- More tokens never lead back, and nowhere else from where one leads nowhere. -/
theorem locate_append (text : String) (tokens more : List String) :
    (Pointer.locate text tokens).offset ≤ (Pointer.locate text (tokens ++ more)).offset ∧
      (Pointer.locate text tokens).line ≤ (Pointer.locate text (tokens ++ more)).line ∧
      ((Pointer.locate text tokens).exact = false →
        Pointer.locate text (tokens ++ more) = Pointer.locate text tokens) := by
  obtain ⟨before, htext, hplace⟩ := locate_place text tokens
  have happend := walk_append (Json.skipGaps text.toList) tokens more
  cases hwhole : (Pointer.walk (Json.skipGaps text.toList) tokens).2 with
  | false =>
    rw [hwhole, if_neg Bool.false_ne_true] at happend
    have heq : Pointer.locate text (tokens ++ more) = Pointer.locate text tokens := by
      rw [Pointer.locate, Pointer.locate, happend]
    rw [heq]
    exact ⟨Nat.le_refl _, Nat.le_refl _, fun _ => rfl⟩
  | true =>
    rw [hwhole, if_pos rfl] at happend
    obtain ⟨between, hbetween⟩ :=
      walk_suffix (Pointer.walk (Json.skipGaps text.toList) tokens).1 more
    rw [← happend] at hbetween
    have hmore : text.toList = (before ++ between) ++
        (Pointer.walk (Json.skipGaps text.toList) (tokens ++ more)).1 := by
      rw [List.append_assoc, hbetween, ← htext]
    rw [locate_eq hmore rfl, hplace, hwhole]
    refine ⟨?_, ?_, fun hpart => ?_⟩
    · rw [Text.utf8ByteSize_ofList, Text.utf8ByteSize_ofList, Text.byteCount_append]
      exact Nat.le_add_right _ _
    · rw [List.count_append]
      simp only
      omega
    · cases hpart

/-- The cursor comes to an end on every text in which it meets no escape but of ASCII characters,
without taking a piece that is torn, at the place that `locate` gives. This is between two
characters of the text, in the line after the line feeds before it. More tokens never lead back, and
nowhere else from where one leads nowhere. In a text that the reader accepts there is no other
escape. -/
theorem locate_safe (text : String) (tokens more : List String) :
    ((locate text tokens).IsAscii →
      (locate text tokens).outcome = .ok (Pointer.locate text tokens)) ∧
    (∃ before after : String, text = before ++ after ∧
      (Pointer.locate text tokens).offset = before.utf8ByteSize ∧
      (Pointer.locate text tokens).line = before.toList.count '\n' + 1) ∧
    ((Pointer.locate text tokens).offset ≤ (Pointer.locate text (tokens ++ more)).offset ∧
      (Pointer.locate text tokens).line ≤ (Pointer.locate text (tokens ++ more)).line ∧
      ((Pointer.locate text tokens).exact = false →
        Pointer.locate text (tokens ++ more) = Pointer.locate text tokens)) ∧
    ∀ j, Json.read text = .ok j → (locate text tokens).IsAscii := by
  have hsound := locate_sound text tokens
  obtain ⟨before, htext, hplace⟩ := locate_place text tokens
  refine ⟨fun hascii => ?_, ?_, locate_append text tokens more, fun j hj => ?_⟩
  · exact hsound.eq_ok hascii
  · refine ⟨String.ofList before,
      String.ofList (Pointer.walk (Json.skipGaps text.toList) tokens).1, ?_, ?_, ?_⟩
    · rw [← String.toList_inj, String.toList_append, String.toList_ofList, String.toList_ofList]
      exact htext
    · rw [hplace]
    · rw [hplace, String.toList_ofList]
  · exact hsound.isAscii (Json.escapesAscii_of_read hj)

/-- A text with half a pair of surrogates before another escape, stray commas, and no end. -/
def brokenText : String :=
  "\x7b\"\\ud83d\\u0041\\\\é\": [,\n \"\\ud83d\\ude00\"],\n \"k\": [true,, \x7b\"é\\\"\": 1\x7d, 2"

/-- A text with a character that is not ASCII after a backslash that is escaped. -/
def accentedText : String := "[\"\\\\é\"]"

/-- A way to the greatest index. -/
def longWay : List String := ["k", "18446744073709551615"]

theorem locate_safe_broken :
    (Json.read brokenText).isOk = false ∧ index? "18446744073709551615" = some maxIndex ∧
      (locate brokenText longWay).IsAscii ∧
      (locate brokenText longWay).outcome = .ok ⟨48, 3, false⟩ ∧
      Pointer.locate brokenText (longWay ++ ["0"]) = ⟨48, 3, false⟩ ∧
      ∃ j, Json.read accentedText = .ok j ∧ (locate accentedText ["0"]).IsAscii := by
  have hascii : (locate brokenText longWay).IsAscii := by decide +kernel
  have hplace : Pointer.locate brokenText longWay = ⟨48, 3, false⟩ := by decide +kernel
  obtain ⟨hsafe, -, ⟨-, -, hstays⟩, -⟩ := locate_safe brokenText longWay ["0"]
  have hread : (Json.read accentedText).isOk = true := by decide +kernel
  refine ⟨by decide +kernel, by decide +kernel, hascii, by rw [hsafe hascii, hplace], ?_, ?_⟩
  · rw [hstays (by rw [hplace]), hplace]
  · cases hj : Json.read accentedText with
    | error e =>
      rw [hj] at hread
      cases hread
    | ok j => exact ⟨j, rfl, (locate_safe accentedText ["0"] []).2.2.2 j hj⟩

/-- A piece is torn where the character after the backslash is not ASCII. -/
example : (locate "[\"\\é\", 1]" ["1"]).outcome = .error .torn := by decide +kernel

end DeliveryRules.Pointer.Cursor
