import DeliveryRules.Proofs.Json.Literals
import DeliveryRules.Proofs.Pointer.Cursor

/-!
# Literals under the cursor

Wherever a literal stands in a text, the cursor reads the characters that it denotes and comes to
the place after its closing quote.

* **Runs** (`Yields`): a run comes to something, and what it escapes on the way is ASCII.
* **Escapes** (`yields_escape_short`, `yields_codePoint_*`): one for each way to write a character.
* **Strings** (`yields_chars`): by the characters of the literal. What is around the literal may be
  anything, so nothing is asked of the text.
-/

namespace DeliveryRules.Pointer.Cursor

open Json (Decodes LowFirst UnitEscape Writes hexUnit? isHighSurrogate isLowSurrogate pairedChar
  shortEscapes)
open Text (byteCount)

/-! ## Runs -/

section Runs

variable {α β : Type} {x : Run α} {a : α}

/-- The run comes to `a`, and escapes ASCII characters only. -/
def Yields (x : Run α) (a : α) : Prop := x.IsAscii ∧ x.outcome = .ok a

theorem yields_pure (a : α) : Yields (pure a) a := ⟨nofun, rfl⟩

theorem Yields.eq_of_pure {b : α} (h : Yields (pure a) b) : a = b := Except.ok.inj h.2

theorem Yields.bind {f : α → Run β} {b : β} (hx : Yields x a) (hf : Yields (f a) b) :
    Yields (x >>= f) b := by
  obtain ⟨escaped, outcome⟩ := x
  obtain ⟨hascii, rfl⟩ := hx
  exact ⟨List.forall_mem_append.mpr ⟨hascii, hf.1⟩, hf.2⟩

theorem Yields.of_bind {f : α → Run β} {b : β} (h : Yields (x >>= f) b) :
    ∃ a, Yields x a ∧ Yields (f a) b := by
  obtain ⟨escaped, outcome⟩ := x
  cases outcome with
  | ok a =>
    obtain ⟨hascii, houtcome⟩ := h
    obtain ⟨hescaped, hrest⟩ := List.forall_mem_append.mp hascii
    exact ⟨a, ⟨hescaped, rfl⟩, hrest, houtcome⟩
  | error s => cases h.2

theorem Yields.note {b : UInt8} (hb : b.toNat < 128) (hx : Yields x a) :
    Yields (Run.note b >>= fun _ => x) a :=
  .bind ⟨List.forall_mem_singleton.mpr hb, rfl⟩ hx

/-- What a run comes to is found among the characters. -/
theorem Yields.found {text : List Char} {R : α → β → Prop} {y : Option β} (h : Yields x a)
    (hsound : Sound text R x y) : ∃ b, y = some b ∧ R a b := by
  obtain ⟨escaped, outcome⟩ := x
  obtain ⟨hascii, rfl⟩ := h
  cases hsound.outcome hascii with
  | found hab => exact ⟨_, rfl, hab⟩

end Runs

variable {text rest : List Char} {pos : Nat}

theorem At.unique {other : List Char} (h : At text pos rest) (h' : At text pos other) :
    rest = other :=
  Option.some.inj (h.from?_eq.symm.trans h'.from?_eq)

/-! ## Escapes -/

section Digits

variable {a b c d : Char} {n : Nat}

theorem byteCount_digits (hunit : hexUnit? a b c d = some n) : byteCount [a, b, c, d] = 4 :=
  byteCount_of_ascii fun x hx => (unit?_eq_some (unit?_of_hexUnit? hunit) x hx).1

theorem At.digits (h : At text pos (a :: b :: c :: d :: rest)) (hunit : hexUnit? a b c d = some n) :
    At text (pos + 4) rest := by
  have hrest : At text (pos + byteCount [a, b, c, d]) rest := h.append
  rwa [byteCount_digits hunit] at hrest

theorem byteCount_unit (hunit : hexUnit? a b c d = some n) :
    byteCount ['\\', 'u', a, b, c, d] = 6 := by
  rw [show ['\\', 'u', a, b, c, d] = ['\\', 'u'] ++ [a, b, c, d] from rfl,
    Text.byteCount_append, byteCount_digits hunit]
  rfl

theorem At.unit_eq (h : At text pos (a :: b :: c :: d :: rest))
    (hunit : hexUnit? a b c d = some n) : unit text pos = pure n := by
  have hpiece := upTo?_append [a, b, c, d] rest
  rw [byteCount_digits hunit] at hpiece
  have hslice : slice? text pos (pos + 4) = some [a, b, c, d] := (h.slice?_add 4).trans hpiece
  rw [unit, hslice]
  simp only [unit?_of_hexUnit? hunit]
  rfl

end Digits

section CodePoints

variable {a b c d : Char} {n : Nat}

theorem yields_codePoint_char (h : At text pos (a :: b :: c :: d :: rest)) {x : Char}
    (hunit : hexUnit? a b c d = some x.toNat) : Yields (codePoint text pos) (x, pos + 4) := by
  rw [codePoint, h.unit_eq hunit, Run.pure_bind, Json.isHighSurrogate_toNat, Bool.false_and,
    if_neg Bool.false_ne_true, ofUnit, Json.isHighSurrogate_toNat, Json.isLowSurrogate_toNat,
    Bool.or_false, if_neg Bool.false_ne_true, Char.ofNat_toNat]
  exact yields_pure _

theorem yields_codePoint_low (h : At text pos (a :: b :: c :: d :: rest))
    (hunit : hexUnit? a b c d = some n) (hlow : isLowSurrogate n = true)
    (hhigh : isHighSurrogate n = false) :
    Yields (codePoint text pos) (replacementChar, pos + 4) := by
  rw [codePoint, h.unit_eq hunit, Run.pure_bind, hhigh, Bool.false_and,
    if_neg Bool.false_ne_true, ofUnit, hlow, Bool.or_true, if_pos rfl]
  exact yields_pure _

/-- The other half is looked at if it is there. -/
theorem codePoint_high (h : At text pos (a :: b :: c :: d :: rest))
    (hunit : hexUnit? a b c d = some n) (hhigh : isHighSurrogate n = true) :
    codePoint text pos =
      if upTo? 2 rest = some ['\\', 'u'] then
        unit text (pos + 6) >>= fun low =>
          if isLowSurrogate low then pure (pairedChar n low, pos + 10)
          else pure (replacementChar, pos + 4)
      else pure (replacementChar, pos + 4) := by
  have hslice : slice? text (pos + 4) (pos + 6) = upTo? 2 rest := (h.digits hunit).slice?_add 2
  have hof : ofUnit n = replacementChar := if_pos (by rw [hhigh]; rfl)
  rw [codePoint, h.unit_eq hunit, Run.pure_bind, hhigh, Bool.true_and, hslice, hof]
  simp only [decide_eq_true_eq]

theorem yields_codePoint_pair {e f g i : Char} {low : Nat}
    (h : At text pos (a :: b :: c :: d :: '\\' :: 'u' :: e :: f :: g :: i :: rest))
    (hunit : hexUnit? a b c d = some n) (hhigh : isHighSurrogate n = true)
    (hunit' : hexUnit? e f g i = some low) (hlow : isLowSurrogate low = true) :
    Yields (codePoint text pos) (pairedChar n low, pos + 10) := by
  have hmark : upTo? 2 ('\\' :: 'u' :: e :: f :: g :: i :: rest) = some ['\\', 'u'] :=
    upTo?_append ['\\', 'u'] _
  have hsecond : At text (pos + 6) (e :: f :: g :: i :: rest) :=
    ((h.digits hunit).ascii (by decide)).ascii (by decide)
  rw [codePoint_high h hunit hhigh, if_pos hmark, hsecond.unit_eq hunit', Run.pure_bind,
    if_pos hlow]
  exact yields_pure _

/-- After half a pair the cursor stays where another escape may begin. -/
theorem yields_codePoint_half (h : At text pos (a :: b :: c :: d :: rest))
    (hunit : hexUnit? a b c d = some n) (hhigh : isHighSurrogate n = true)
    (hnext : ∀ more, rest = '\\' :: 'u' :: more → ∃ e f g i low after,
      more = e :: f :: g :: i :: after ∧ hexUnit? e f g i = some low ∧ isLowSurrogate low = false) :
    Yields (codePoint text pos) (replacementChar, pos + 4) := by
  rw [codePoint_high h hunit hhigh]
  split
  · rename_i hmark
    obtain ⟨more, rfl, -⟩ := upTo?_eq_some hmark
    obtain ⟨e, f, g, i, low, after, rfl, hunit', hlow⟩ := hnext more rfl
    have hsecond : At text (pos + 6) (e :: f :: g :: i :: after) :=
      ((h.digits hunit).ascii (by decide)).ascii (by decide)
    rw [hsecond.unit_eq hunit', Run.pure_bind, hlow, if_neg Bool.false_ne_true]
    exact yields_pure _
  · exact yields_pure _

end CodePoints

theorem yields_escape_short {letter c : Char} (h : At text pos (letter :: rest))
    (hshort : (letter, c) ∈ shortEscapes) : Yields (escape text pos) (c, pos + 1) := by
  obtain ⟨b, hb, hnext⟩ := h.next_cons
  have hascii : letter.toNat < 128 := by
    have hall : ∀ e ∈ shortEscapes, e.1.toNat < 128 := by decide
    exact hall _ hshort
  have hletter : asChar b = letter := (asChar_eq_iff hb hascii).mpr rfl
  rw [escape, hnext, Run.pure_bind, hletter]
  refine .note (by rw [← toNat_asChar, hletter]; exact hascii) ?_
  simp only [shortEscapes, List.mem_cons, Prod.mk.injEq, List.not_mem_nil, or_false] at hshort
  rcases hshort with ⟨rfl, rfl⟩ | ⟨rfl, rfl⟩ | ⟨rfl, rfl⟩ | ⟨rfl, rfl⟩ | ⟨rfl, rfl⟩ |
    ⟨rfl, rfl⟩ | ⟨rfl, rfl⟩ | ⟨rfl, rfl⟩ <;> exact yields_pure _

theorem yields_escape_unit {r : Char × Nat} (h : At text pos ('u' :: rest))
    (hr : Yields (codePoint text (pos + 1)) r) : Yields (escape text pos) r := by
  obtain ⟨b, hb, hnext⟩ := h.next_cons
  have hletter : asChar b = 'u' := (asChar_eq_iff hb (by decide)).mpr rfl
  rw [escape, hnext, Run.pure_bind, hletter]
  exact .note (by rw [← toNat_asChar, hletter]; decide) hr

/-! ## Strings -/

/-- The characters up to a quote or backslash are taken as they are. -/
theorem chars_run (run : List Char) {after : List Char} {d : Char}
    (h : At text pos (run ++ d :: after))
    (hrun : ∀ c ∈ run, isPlain c = true) (hd : isPlain d = false) (fuel : Nat) :
    chars text (fuel + 1) pos =
      if d = '"' then pure (run, pos + byteCount run + 1)
      else
        escape text (pos + byteCount run + 1) >>= fun e =>
          chars text fuel e.2 >>= fun r => pure (run ++ e.1 :: r.1, r.2) := by
  have htake : (run ++ d :: after).takeWhile isPlain = run := by
    rw [List.takeWhile_append_of_pos hrun, List.takeWhile_cons_of_neg (by simp [hd]),
      List.append_nil]
  have hlast : skipWhile text isPlain pos = pos + byteCount run := by
    rw [h.skipWhile_eq isBlunt_isPlain, htake]
  have hslice : slice? text pos (pos + byteCount run) = some run := by
    rw [h.slice?_add, upTo?_append]
  obtain ⟨b, hb, hnext⟩ := h.append.next_cons
  have hquote : asChar b = '"' ↔ d = '"' := asChar_eq_iff hb (by decide)
  rw [chars]
  simp only [hlast, hnext, hslice, Run.pure_bind, Run.ofOption, Option.elim_some, hquote]

theorem yields_chars_close {after : List Char} (h : At text pos ('"' :: after)) (fuel : Nat) :
    Yields (chars text (fuel + 1) pos) ([], pos + 1) := by
  rw [chars_run [] h nofun (by decide), if_pos rfl]
  exact yields_pure _

theorem yields_chars_escape {c : Char} {r : List Char × Nat} {next fuel : Nat}
    (h : At text pos ('\\' :: rest)) (he : Yields (escape text (pos + 1)) (c, next))
    (hr : Yields (chars text fuel next) r) :
    Yields (chars text (fuel + 1) pos) (c :: r.1, r.2) := by
  rw [chars_run [] h nofun (by decide), if_neg (by decide)]
  exact .bind he (.bind hr (yields_pure _))

/-- A character that is taken as it is may belong to the characters after it. -/
theorem yields_chars_plain {c : Char} {r : List Char × Nat} {fuel : Nat} (hc : isPlain c = true)
    (h : At text pos (c :: rest)) (hr : Yields (chars text fuel (pos + byteCount [c])) r) :
    Yields (chars text fuel pos) (c :: r.1, r.2) := by
  cases fuel with
  | zero => cases hr.2
  | succ fuel =>
    have hrest : At text (pos + byteCount [c]) rest := h.append
    obtain ⟨run, after, rfl, hrun, hhead, -, hafter⟩ := hrest.run isBlunt_isPlain
    cases after with
    | nil =>
      rw [chars] at hr
      simp only [hafter.next_nil] at hr
      cases hr.2
    | cons d after =>
      have hd : isPlain d = false := hhead d rfl
      have hcount : byteCount (c :: run) = byteCount [c] + byteCount run :=
        Text.byteCount_append [c] run
      rw [chars_run run hrest hrun hd, Nat.add_assoc pos, ← hcount] at hr
      rw [chars_run (c :: run) h (List.forall_mem_cons.mpr ⟨hc, hrun⟩) hd]
      by_cases hquote : d = '"'
      · rw [if_pos hquote] at hr ⊢
        rw [← hr.eq_of_pure]
        exact yields_pure _
      · rw [if_neg hquote] at hr ⊢
        obtain ⟨e, he, hr⟩ := hr.of_bind
        obtain ⟨r', hr', hr⟩ := hr.of_bind
        rw [← hr.eq_of_pure]
        exact .bind he (.bind hr' (yields_pure _))

/-- A backslash and the letter of a unit begin an escape of a unit, also up to the closing quote. -/
theorem exists_unit_of_mark {body s after more : List Char} {halves : Nat}
    (h : Decodes body s halves) (heq : body ++ '"' :: after = '\\' :: 'u' :: more) :
    ∃ a b c d n rest, body = ['\\', 'u', a, b, c, d] ++ rest ∧ hexUnit? a b c d = some n := by
  have hunit {cs rest : List Char} {n : Nat} (hn : UnitEscape cs n) :
      ∃ a b c d n rest', cs ++ rest = ['\\', 'u', a, b, c, d] ++ rest' ∧
        hexUnit? a b c d = some n := by
    obtain ⟨a, b, c, d, rfl, hdigits⟩ := hn.exists_digits
    exact ⟨a, b, c, d, n, rest, rfl, hdigits⟩
  cases h with
  | nil => cases heq
  | cons hc hrest =>
    cases hc with
    | plain _ hbackslash _ => exact absurd (List.cons.inj heq).1 hbackslash
    | short hshort =>
      have hletter := (List.cons.inj (List.cons.inj heq).2).1
      have hall : ∀ e ∈ shortEscapes, e.1 ≠ 'u' := by decide
      exact absurd hletter (hall _ hshort)
    | unit h => exact hunit h
    | pair _ hhigh _ =>
      rw [List.append_assoc]
      exact hunit hhigh
  | half hn _ _ => exact hunit hn

/-- An escape comes to the character that it is a way to write, and to its own end. -/
theorem yields_escape_writes {es : List Char} {c : Char} (h : Writes ('\\' :: es) c)
    (hat : At text pos ('\\' :: (es ++ rest))) :
    Yields (escape text (pos + 1)) (c, pos + byteCount ('\\' :: es)) := by
  have hnext := hat.ascii (by decide)
  generalize hcs : '\\' :: es = cs at h
  cases h with
  | plain _ hbackslash _ => exact absurd (List.cons.inj hcs).1.symm hbackslash
  | @short letter c hshort =>
    cases hcs
    have hcount : byteCount ['\\', letter] = 2 := by
      have hall : ∀ e ∈ shortEscapes, byteCount ['\\', e.1] = 2 := by decide
      exact hall _ hshort
    rw [hcount]
    exact yields_escape_short hnext hshort
  | unit hunit =>
    obtain ⟨a, b, c', d, rfl, hdigits⟩ := hunit.exists_digits
    cases hcs
    rw [byteCount_unit hdigits]
    exact yields_escape_unit hnext (yields_codePoint_char (hnext.ascii (by decide)) hdigits)
  | pair hc hhigh hlow =>
    obtain ⟨a, b, c', d, rfl, hfirst⟩ := hhigh.exists_digits
    obtain ⟨e, f, g, i, rfl, hsecond⟩ := hlow.exists_digits
    cases hcs
    rw [Text.byteCount_append, byteCount_unit hfirst, byteCount_unit hsecond]
    have hpair := yields_codePoint_pair (hnext.ascii (by decide)) hfirst
      Json.isHighSurrogate_unit hsecond Json.isLowSurrogate_unit
    rw [Json.pairedChar_units hc] at hpair
    exact yields_escape_unit hnext hpair

theorem yields_escape_half {a b c d : Char} {body s after : List Char} {n halves : Nat}
    (hat : At text pos ('\\' :: 'u' :: a :: b :: c :: d :: (body ++ '"' :: after)))
    (hunit : hexUnit? a b c d = some n)
    (hsurrogate : isLowSurrogate n = true ∨ isHighSurrogate n = true ∧ ¬ LowFirst body)
    (hbody : Decodes body s halves) :
    Yields (escape text (pos + 1)) (replacementChar, pos + 6) := by
  have hletter := hat.ascii (by decide)
  have hdigits := hletter.ascii (by decide)
  refine yields_escape_unit hletter ?_
  by_cases hhigh : isHighSurrogate n = true
  · refine yields_codePoint_half hdigits hunit hhigh fun more heq => ?_
    obtain ⟨e, f, g, i, low, rest, rfl, hlow⟩ := exists_unit_of_mark hbody heq
    cases heq
    refine ⟨e, f, g, i, low, rest ++ '"' :: after, rfl, hlow, ?_⟩
    by_contra hpair
    have hfirst : LowFirst (['\\', 'u', e, f, g, i] ++ rest) :=
      ⟨_, rest, low, rfl, Json.unitEscape_of_hexUnit? hlow, Bool.eq_true_of_not_eq_false hpair⟩
    rcases hsurrogate with hn | ⟨-, hn⟩
    · rw [Json.isHighSurrogate_eq_false_of_low hn] at hhigh
      cases hhigh
    · exact hn hfirst
  · have hlow := hsurrogate.resolve_right fun h => hhigh h.1
    exact yields_codePoint_low hdigits hunit hlow (Bool.eq_false_iff.mpr hhigh)

theorem yields_chars {body s after : List Char} {halves fuel : Nat} (h : Decodes body s halves)
    (hat : At text pos (body ++ '"' :: after)) (hfuel : body.length < fuel) :
    Yields (chars text fuel pos) (s, pos + byteCount body + 1) := by
  -- On the characters denoted: what is left of the literal is a literal.
  induction h generalizing pos fuel with
  | nil =>
    obtain ⟨fuel, rfl⟩ : ∃ k, fuel = k + 1 := ⟨fuel - 1, by omega⟩
    exact yields_chars_close hat fuel
  | @cons cs rest s c halves hc _ ih =>
    obtain ⟨fuel, rfl⟩ : ∃ k, fuel = k + 1 := ⟨fuel - 1, by omega⟩
    rw [List.append_assoc] at hat
    rw [List.length_append] at hfuel
    rw [Text.byteCount_append, ← Nat.add_assoc]
    rcases hc.plain_or_escape with ⟨rfl, hplain⟩ | ⟨es, rfl⟩
    · rw [List.length_singleton] at hfuel
      exact yields_chars_plain (by simpa [isPlain] using hplain) hat
        (ih hat.append (by omega))
    · rw [List.length_cons] at hfuel
      exact yields_chars_escape hat (yields_escape_writes hc hat) (ih hat.append (by omega))
  | @half cs rest s n halves hn hsurrogate hrest ih =>
    obtain ⟨fuel, rfl⟩ : ∃ k, fuel = k + 1 := ⟨fuel - 1, by omega⟩
    obtain ⟨a, b, c, d, rfl, hdigits⟩ := hn.exists_digits
    rw [List.append_assoc] at hat
    have hafter := hat.append
    rw [byteCount_unit hdigits] at hafter
    simp only [List.length_append, List.length_cons] at hfuel
    rw [Text.byteCount_append, ← Nat.add_assoc, byteCount_unit hdigits]
    exact yields_chars_escape hat (yields_escape_half hat hdigits hsurrogate hrest)
      (ih hafter (by omega))

theorem yields_literal {body s after : List Char} {halves : Nat} (h : Decodes body s halves)
    (hat : At text pos ('"' :: (body ++ '"' :: after))) :
    Yields (literal text pos) (s, pos + byteCount body + 2) := by
  obtain ⟨b, hb, hnext⟩ := hat.next_cons
  have hfuel : body.length < fuel text := by
    have hlength := hat.length_lt_fuel
    simp only [List.length_cons, List.length_append] at hlength
    omega
  have hchars := yields_chars h (hat.ascii (by decide)) hfuel
  rw [literal, hnext, Run.pure_bind, if_pos ((asChar_eq_iff hb (by decide)).mpr rfl)]
  rwa [show pos + 1 + byteCount body + 1 = pos + byteCount body + 2 by omega] at hchars

/-- Wherever a literal stands in a text, the string that it denotes is read, and the cursor is left
after the closing quote. A surrogate without its other half is read as U+FFFD, and what follows it
for itself. The reader takes the same literal as the same string, unless there is such a half, which
it refuses. -/
theorem literal_decodes (before after : List Char) {body s : List Char} {halves : Nat}
    (h : Decodes body s halves) :
    (literal (before ++ '"' :: (body ++ '"' :: after)) (byteCount before)).outcome =
        .ok (s, byteCount before + byteCount body + 2) ∧
      literal? ('"' :: (body ++ '"' :: after)) = some (s, after) ∧
      (halves = 0 → Json.readString (body ++ '"' :: after) = .ok (String.ofList s, after)) ∧
      (halves ≠ 0 → ∃ e, Json.readString (body ++ '"' :: after) = .error e) := by
  have hat : At (before ++ '"' :: (body ++ '"' :: after)) (byteCount before)
      ('"' :: (body ++ '"' :: after)) := ⟨before, rfl, rfl⟩
  generalize before ++ '"' :: (body ++ '"' :: after) = text at hat
  have hyields := yields_literal h hat
  refine ⟨hyields.2, ?_, fun hzero => ?_, fun hne => ?_⟩
  · have hend : At text (byteCount before + byteCount body + 2) after := by
      have hquote : At text (byteCount before + 1 + byteCount body) ('"' :: after) :=
        (hat.ascii (by decide)).append
      have hafter := hquote.ascii (by decide)
      rwa [show byteCount before + 1 + byteCount body + 1 = byteCount before + byteCount body + 2
        by omega] at hafter
    obtain ⟨⟨s', after'⟩, hfound, rfl, hplace⟩ := hyields.found (literal_sound hat)
    rw [hfound, show after' = after from hplace.unique hend]
  · subst hzero
    exact Json.readString_eq_ok_iff.mpr ⟨body, rfl, by rwa [String.toList_ofList]⟩
  · obtain ⟨e, he⟩ := (Json.readChars_decodes h after).2 hne
    exact ⟨e, by rw [Json.readString, he]; rfl⟩

/-- A letter by its number and a slash by its short escape, half a pair, and then a pair. -/
def mixedBody : List Char :=
  ['\\', 'u', '0', '0', 'E', '9'] ++ (['\\', '/'] ++ (['\\', 'u', 'd', '8', '3', 'd'] ++
    (['\\', 'u', 'D', '8', '3', 'D'] ++ ['\\', 'u', 'D', 'e', '8', '0'] ++ (['x'] ++ []))))

theorem literal_decodes_mixed :
    Decodes mixedBody ['é', '/', '\uFFFD', '🚀', 'x'] 1 ∧
      (literal ("\\é".toList ++ '"' :: (mixedBody ++ '"' :: "\\é".toList)) 3).outcome =
        .ok (['é', '/', '\uFFFD', '🚀', 'x'], 32) := by
  have hletter : UnitEscape ['\\', 'u', '0', '0', 'E', '9'] 'é'.toNat :=
    Json.unitEscape_of_hexUnit? (by decide)
  have hhalf : UnitEscape ['\\', 'u', 'd', '8', '3', 'd'] 0xD83D :=
    Json.unitEscape_of_hexUnit? (by decide)
  have hpair : Writes (['\\', 'u', 'D', '8', '3', 'D'] ++ ['\\', 'u', 'D', 'e', '8', '0']) '🚀' :=
    .pair (by decide) (Json.unitEscape_of_hexUnit? (by decide))
      (Json.unitEscape_of_hexUnit? (by decide))
  have hnext : ¬ LowFirst (['\\', 'u', 'D', '8', '3', 'D'] ++ ['\\', 'u', 'D', 'e', '8', '0'] ++
      (['x'] ++ [])) := by
    rintro ⟨escape, rest, n, heq, hescape, hlow⟩
    obtain ⟨a, b, c, d, rfl, hdigits⟩ := hescape.exists_digits
    cases heq
    rw [show n = 0xD83D from Option.some.inj (hdigits.symm.trans (by decide))] at hlow
    exact absurd hlow (by decide)
  have hplain : Writes ['x'] 'x' := .plain (by decide) (by decide) (by decide)
  have hbody : Decodes mixedBody ['é', '/', '\uFFFD', '🚀', 'x'] 1 :=
    .cons (.unit hletter) <| .cons (.short (by decide)) <|
      .half hhalf (.inr ⟨by decide, hnext⟩) <| .cons hpair <| .cons hplain .nil
  exact ⟨hbody, (literal_decodes "\\é".toList "\\é".toList hbody).1⟩

end DeliveryRules.Pointer.Cursor
