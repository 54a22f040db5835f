import DeliveryRules.Pointer.Cursor
import DeliveryRules.Proofs.Json.Reading
import DeliveryRules.Proofs.Text.Lines
import Mathlib.Data.List.TakeWhile

/-!
# Positions between characters

- **Bytes** (`mem_utf8EncodeChar`): an ASCII character is one byte, of its number, and all bytes of
  other characters have greater ones. What does not tell the latter apart (`IsBlunt`) can be asked
  of bytes instead of characters.
- **Positions** (`At`): where the cursor stands when some characters are left. It gets to such a
  position past blanks and other runs of characters (`At.skipWhile`), and sees what comes next
  (`At.peek_cons`, `At.eat`).
- **Pieces** (`At.slice?_add`): a piece from such a position is what the bytes make up.
-/

namespace DeliveryRules.Pointer.Cursor

open Json (isGap skipGaps_skipGaps)
open Text (byteCount byteCount_append)

/-! ## Bytes -/

theorem mem_utf8EncodeChar {c : Char} {b : UInt8} (h : b ∈ String.utf8EncodeChar c) :
    c.toNat < 128 ∧ b.toNat = c.toNat ∨ 128 ≤ c.toNat ∧ 128 ≤ b.toNat := by
  have hc : c.val.toNat = c.toNat := rfl
  unfold String.utf8EncodeChar at h
  simp only [hc] at h
  split at h
  · left
    rw [List.mem_singleton.mp h, UInt8.toNat_ofNat']
    omega
  · right
    refine ⟨by omega, ?_⟩
    split at h
    · simp only [List.mem_cons, List.not_mem_nil, or_false] at h
      rcases h with rfl | rfl <;> rw [UInt8.toNat_ofNat'] <;> omega
    · split at h
      · simp only [List.mem_cons, List.not_mem_nil, or_false] at h
        rcases h with rfl | rfl | rfl <;> rw [UInt8.toNat_ofNat'] <;> omega
      · simp only [List.mem_cons, List.not_mem_nil, or_false] at h
        rcases h with rfl | rfl | rfl | rfl <;> rw [UInt8.toNat_ofNat'] <;> omega

theorem toNat_asChar (b : UInt8) : (asChar b).toNat = b.toNat := by
  have hb := b.toNat_lt
  have hvalid : b.toNat.isValidChar := .inl (by omega)
  rw [asChar, Char.ofNat, dif_pos hvalid]
  rfl

/-- A byte of a character that is seen as an ASCII character is this character. -/
theorem asChar_eq_iff {c d : Char} {b : UInt8} (h : b ∈ String.utf8EncodeChar c)
    (hd : d.toNat < 128) : asChar b = d ↔ c = d := by
  rw [← Char.toNat_inj, ← Char.toNat_inj, toNat_asChar]
  rcases mem_utf8EncodeChar h with ⟨-, hb⟩ | ⟨hc, hb⟩
  · rw [hb]
  · omega

/-- The characters that are not ASCII all satisfy `q`, or none does. -/
def IsBlunt (q : Char → Bool) : Prop :=
  ∀ c d : Char, 128 ≤ c.toNat → 128 ≤ d.toNat → q c = q d

theorem IsBlunt.asChar {q : Char → Bool} (hq : IsBlunt q) {c : Char} {b : UInt8}
    (h : b ∈ String.utf8EncodeChar c) : q (asChar b) = q c := by
  rcases mem_utf8EncodeChar h with ⟨hc, -⟩ | ⟨hc, hb⟩
  · rw [(asChar_eq_iff h hc).mpr rfl]
  · exact hq _ _ (by rw [toNat_asChar]; exact hb) hc

theorem isBlunt_of_eq {q : Char → Bool} (b : Bool)
    (h : ∀ c : Char, 128 ≤ c.toNat → q c = b) : IsBlunt q :=
  fun c d hc hd => (h c hc).trans (h d hd).symm

theorem ne_of_ascii {c d : Char} (hc : 128 ≤ c.toNat) (hd : d.toNat < 128) : c ≠ d := by
  rintro rfl
  omega

theorem isBlunt_isGap : IsBlunt isGap := by
  refine isBlunt_of_eq false fun c hc => ?_
  simp [isGap, ne_of_ascii hc]

theorem isBlunt_isPlain : IsBlunt isPlain := by
  refine isBlunt_of_eq true fun c hc => ?_
  simp [isPlain, ne_of_ascii hc]

theorem isBlunt_scalar : IsBlunt (!endsScalar ·) := by
  refine isBlunt_of_eq true fun c hc => ?_
  simp [endsScalar, isGap, ne_of_ascii hc]

theorem bytes_append (cs ds : List Char) : bytes (cs ++ ds) = bytes cs ++ bytes ds :=
  List.flatMap_append

theorem length_bytes (cs : List Char) : (bytes cs).length = byteCount cs := by
  induction cs with
  | nil => rfl
  | cons c cs ih =>
    rw [bytes, List.flatMap_cons, List.length_append, String.length_utf8EncodeChar, ← bytes, ih,
      byteCount]

theorem byteCount_of_ascii {cs : List Char} (h : ∀ c ∈ cs, c.toNat < 128) :
    byteCount cs = cs.length := by
  induction cs with
  | nil => rfl
  | cons c cs ih =>
    rw [List.forall_mem_cons] at h
    have hsize : c.utf8Size = 1 := by
      rw [Char.utf8Size_eq_one_iff, UInt32.le_iff_toNat_le]
      exact Nat.le_of_lt_succ h.1
    rw [byteCount, hsize, ih h.2, List.length_cons, Nat.add_comm]

/-- A byte is a line feed if and only if it is the one of that character. -/
theorem count_bytes (cs : List Char) : (bytes cs).count 10 = cs.count '\n' := by
  induction cs with
  | nil => rfl
  | cons c cs ih =>
    have hbytes : bytes (c :: cs) = String.utf8EncodeChar c ++ bytes cs := rfl
    rw [hbytes, List.count_append, ih, List.count_cons, Nat.add_comm]
    congr 1
    by_cases hc : c = '\n'
    · subst hc
      rfl
    · rw [if_neg (by simpa using hc), List.count_eq_zero]
      exact fun hmem => hc ((asChar_eq_iff hmem (by decide)).mp rfl)

theorem length_le_byteCount (cs : List Char) : cs.length ≤ byteCount cs := by
  induction cs with
  | nil => exact Nat.le_refl _
  | cons c cs ih =>
    have hc := Char.utf8Size_pos c
    rw [List.length_cons, byteCount]
    omega

theorem takeWhile_bytes {q : Char → Bool} (hq : IsBlunt q) (cs : List Char) :
    ((bytes cs).takeWhile fun b => q (asChar b)) = bytes (cs.takeWhile q) := by
  induction cs with
  | nil => rfl
  | cons c cs ih =>
    have hbytes : bytes (c :: cs) = String.utf8EncodeChar c ++ bytes cs := rfl
    have hc : ∀ b ∈ String.utf8EncodeChar c, q (asChar b) = q c := fun b hb => hq.asChar hb
    rw [hbytes]
    cases hqc : q c with
    | true =>
      rw [List.takeWhile_append_of_pos fun b hb => (hc b hb).trans hqc, ih,
        List.takeWhile_cons_of_pos hqc]
      rfl
    | false =>
      obtain ⟨b, rest, hfirst⟩ := List.exists_cons_of_ne_nil String.utf8EncodeChar_ne_nil
      have hb : q (asChar b) = false := (hc b (by rw [hfirst]; exact List.mem_cons_self)).trans hqc
      rw [hfirst, List.cons_append, List.takeWhile_cons_of_neg (by simp [hb]),
        List.takeWhile_cons_of_neg (by simp [hqc])]
      rfl

/-! ## Positions -/

/-- The cursor stands where the characters `rest` of the text are left. -/
def At (text : List Char) (pos : Nat) (rest : List Char) : Prop :=
  ∃ before, text = before ++ rest ∧ byteCount before = pos

variable {text rest : List Char} {pos : Nat}

theorem at_start (text : List Char) : At text 0 text := ⟨[], rfl, rfl⟩

namespace At

theorem suffix (h : At text pos rest) : rest <:+ text := by
  obtain ⟨before, rfl, -⟩ := h
  exact List.suffix_append _ _

theorem offset (h : At text pos rest) : byteCount text - byteCount rest = pos := by
  obtain ⟨before, rfl, rfl⟩ := h
  rw [byteCount_append, Nat.add_sub_cancel]

theorem append {cs : List Char} (h : At text pos (cs ++ rest)) :
    At text (pos + byteCount cs) rest := by
  obtain ⟨before, rfl, rfl⟩ := h
  exact ⟨before ++ cs, by rw [List.append_assoc], byteCount_append _ _⟩

theorem ascii {c : Char} (h : At text pos (c :: rest)) (hc : c.toNat < 128) :
    At text (pos + 1) rest := by
  have hnext : At text (pos + byteCount [c]) rest := append h
  rwa [byteCount_of_ascii (List.forall_mem_singleton.mpr hc)] at hnext

theorem drop_bytes (h : At text pos rest) : (bytes text).drop pos = bytes rest := by
  obtain ⟨before, rfl, rfl⟩ := h
  rw [bytes_append]
  exact List.drop_left' (length_bytes before)

theorem skipWhile_eq (h : At text pos rest) {q : Char → Bool} (hq : IsBlunt q) :
    skipWhile text q pos = pos + byteCount (rest.takeWhile q) := by
  rw [Cursor.skipWhile, h.drop_bytes, takeWhile_bytes hq, length_bytes]

theorem skipWhile (h : At text pos rest) {q : Char → Bool} (hq : IsBlunt q) :
    At text (skipWhile text q pos) (rest.dropWhile q) := by
  have hsplit : rest.takeWhile q ++ rest.dropWhile q = rest := List.takeWhile_append_dropWhile
  rw [h.skipWhile_eq hq]
  exact append (hsplit.symm ▸ h)

theorem skipGaps (h : At text pos rest) : At text (skipGaps text pos) (Json.skipGaps rest) :=
  h.skipWhile isBlunt_isGap

theorem peek_nil (h : At text pos []) : peek text pos = none := by
  rw [peek, ← List.head?_drop, h.drop_bytes]
  rfl

/-- The byte that the cursor sees is one of the next character. -/
theorem peek_cons {c : Char} (h : At text pos (c :: rest)) :
    ∃ b ∈ String.utf8EncodeChar c, peek text pos = some b := by
  obtain ⟨b, more, hfirst⟩ := List.exists_cons_of_ne_nil String.utf8EncodeChar_ne_nil
  refine ⟨b, by rw [hfirst]; exact List.mem_cons_self, ?_⟩
  have hbytes : bytes (c :: rest) = String.utf8EncodeChar c ++ bytes rest := rfl
  rw [peek, ← List.head?_drop, h.drop_bytes, hbytes, hfirst]
  rfl

theorem next_nil (h : At text pos []) : next text pos = .stop .lost := by
  rw [next, h.peek_nil]
  rfl

theorem next_cons {c : Char} (h : At text pos (c :: rest)) :
    ∃ b ∈ String.utf8EncodeChar c, next text pos = pure b := by
  obtain ⟨b, hb, hpeek⟩ := h.peek_cons
  exact ⟨b, hb, by rw [next, hpeek]; rfl⟩

/-- The line feeds before the position are those in the bytes before it. -/
theorem lineAt (h : At text pos rest) : lineAt text pos = Text.lineAt text pos := by
  obtain ⟨before, rfl, rfl⟩ := h
  have htake : (bytes (before ++ rest)).take (byteCount before) = bytes before := by
    rw [bytes_append]
    exact List.take_left' (length_bytes before)
  rw [Cursor.lineAt, htake, count_bytes, Text.lineAt_append]

end At

/-- What the cursor comes to after the gaps is what is left after them. -/
def Facing (text : List Char) (pos : Nat) (rest : List Char) : Prop :=
  At text (skipGaps text pos) (Json.skipGaps rest)

theorem At.facing (h : At text pos rest) : Facing text pos rest := h.skipGaps

theorem Facing.of_skipGaps (h : At text pos (Json.skipGaps rest)) : Facing text pos rest := by
  have := h.skipGaps
  rwa [skipGaps_skipGaps] at this

/-- The cursor gets past `c` where that comes next, or else past the gaps. -/
theorem Facing.eat (h : Facing text pos rest) {c : Char} (hc : c.toNat < 128) :
    (∃ after next, after? c rest = some after ∧ eat text c pos = (true, next) ∧
      At text next after) ∨
    after? c rest = none ∧ eat text c pos = (false, skipGaps text pos) := by
  unfold Facing at h
  unfold after? Cursor.eat
  simp only
  cases hrest : Json.skipGaps rest with
  | nil =>
    rw [hrest] at h
    right
    simp [h.peek_nil]
  | cons d after =>
    rw [hrest] at h
    obtain ⟨b, hb, hpeek⟩ := h.peek_cons
    rw [hpeek, Option.map_some]
    by_cases hd : d = c
    · left
      refine ⟨after, _, if_pos hd, if_pos (congrArg some ((asChar_eq_iff hb hc).mpr hd)), ?_⟩
      exact h.ascii (hd ▸ hc)
    · right
      refine ⟨if_neg hd, if_neg fun heq => hd ?_⟩
      exact (asChar_eq_iff hb hc).mp (Option.some.inj heq)

/-! ## Pieces -/

theorem upTo?_append (cs rest : List Char) : upTo? (byteCount cs) (cs ++ rest) = some cs := by
  induction cs with
  | nil => rw [byteCount, upTo?]
  | cons c cs ih =>
    obtain ⟨n, hn⟩ := Text.byteCount_cons_eq c cs
    have hcount : byteCount (c :: cs) = c.utf8Size + byteCount cs := rfl
    rw [hn, List.cons_append, upTo?, if_pos (by omega), ← hn, hcount, Nat.add_sub_cancel_left, ih]
    rfl

theorem upTo?_eq_some {n : Nat} {cs ds : List Char} (h : upTo? n cs = some ds) :
    ∃ rest, cs = ds ++ rest ∧ byteCount ds = n := by
  induction cs generalizing n ds with
  | nil =>
    cases n with
    | zero =>
      cases h
      exact ⟨[], rfl, rfl⟩
    | succ n => cases h
  | cons c cs ih =>
    cases n with
    | zero =>
      cases h
      exact ⟨c :: cs, rfl, rfl⟩
    | succ n =>
      rw [upTo?] at h
      split at h
      · rename_i hle
        obtain ⟨ds, hds, rfl⟩ := Option.map_eq_some_iff.mp h
        obtain ⟨rest, rfl, hcount⟩ := ih hds
        refine ⟨rest, rfl, ?_⟩
        rw [byteCount, hcount]
        omega
      · cases h

theorem At.from?_eq (h : At text pos rest) : from? pos text = some rest := by
  obtain ⟨before, rfl, rfl⟩ := h
  induction before with
  | nil => rw [byteCount, List.nil_append, from?.eq_1]
  | cons c cs ih =>
    obtain ⟨n, hn⟩ := Text.byteCount_cons_eq c cs
    have hcount : byteCount (c :: cs) = c.utf8Size + byteCount cs := rfl
    rw [hn, List.cons_append, from?, if_pos (by omega), ← hn, hcount, Nat.add_sub_cancel_left, ih]

theorem At.slice?_add (h : At text pos rest) (n : Nat) :
    slice? text pos (pos + n) = upTo? n rest := by
  rw [slice?, if_pos (Nat.le_add_right _ _), h.from?_eq, Nat.add_sub_cancel_left]
  rfl

/-- The cursor gets past the characters that satisfy `q`, and they are the piece up to there. -/
theorem At.run (h : At text pos rest) {q : Char → Bool} (hq : IsBlunt q) :
    ∃ run after, rest = run ++ after ∧ (∀ c ∈ run, q c = true) ∧ (∀ c ∈ after.head?, q c = false) ∧
      slice? text pos (Cursor.skipWhile text q pos) = some run ∧
      At text (Cursor.skipWhile text q pos) after := by
  refine ⟨rest.takeWhile q, rest.dropWhile q, List.takeWhile_append_dropWhile.symm,
    fun _ => List.mem_takeWhile_imp, ?_, ?_, h.skipWhile hq⟩
  · intro c hc
    have hnot := List.head?_dropWhile_not q rest
    rw [hc] at hnot
    simpa using hnot
  · rw [h.skipWhile_eq hq, h.slice?_add]
    have hpiece := upTo?_append (rest.takeWhile q) (rest.dropWhile q)
    rwa [List.takeWhile_append_dropWhile] at hpiece

end DeliveryRules.Pointer.Cursor
