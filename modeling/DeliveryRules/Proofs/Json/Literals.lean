import DeliveryRules.Proofs.Json.Escapes
import DeliveryRules.Proofs.Json.Printing

/-!
# What string literals denote

The ways to write a string between two quotes, without reference to any reader.

* **Characters** (`Writes`): as they are, by a short escape, or by the numbers of their UTF-16
  units, with hexadecimal digits in either case.
* **Strings** (`Decodes`): character by character, where a surrogate that has no other half stands
  for the replacement character. Only without those is it a literal of JSON.
* `readString_eq_ok_iff`: the reader accepts the literals of JSON and no other texts.
-/

namespace DeliveryRules.Json

/-- `c` is the hexadecimal digit of `n`, small or capital. -/
def IsHexDigit (n : Nat) (c : Char) : Prop :=
  "0123456789abcdef".toList[n]? = some c ∨ "0123456789ABCDEF".toList[n]? = some c

/-- The escape of a UTF-16 unit. -/
inductive UnitEscape : List Char → Nat → Prop where
  | digits {a b c d : Char} {k l m n : Nat} (ha : IsHexDigit k a) (hb : IsHexDigit l b)
      (hc : IsHexDigit m c) (hd : IsHexDigit n d) :
      UnitEscape ['\\', 'u', a, b, c, d] (((k * 16 + l) * 16 + m) * 16 + n)

/-- The letters of the short escapes, and what they stand for. -/
def shortEscapes : List (Char × Char) :=
  [('"', '"'), ('\\', '\\'), ('/', '/'), ('b', '\x08'), ('f', '\x0c'), ('n', '\n'), ('r', '\r'),
    ('t', '\t')]

/-- The ways to write a character in a literal. -/
inductive Writes : List Char → Char → Prop where
  | plain {c : Char} (hquote : c ≠ '"') (hbackslash : c ≠ '\\') (hcontrol : 0x20 ≤ c.toNat) :
      Writes [c] c
  | short {letter c : Char} (h : (letter, c) ∈ shortEscapes) : Writes ['\\', letter] c
  | unit {cs : List Char} {c : Char} (h : UnitEscape cs c.toNat) : Writes cs c
  | pair {high low : List Char} {c : Char} (hc : 0x10000 ≤ c.toNat)
      (hhigh : UnitEscape high (0xD800 + (c.toNat - 0x10000) / 0x400))
      (hlow : UnitEscape low (0xDC00 + (c.toNat - 0x10000) % 0x400)) : Writes (high ++ low) c

/-- An escape of a low surrogate comes first. -/
def LowFirst (cs : List Char) : Prop :=
  ∃ escape rest n, cs = escape ++ rest ∧ UnitEscape escape n ∧ isLowSurrogate n = true

/-- What the characters between the quotes stand for, and how many escapes of surrogates there are
that belong to no pair. What follows such an escape stands for itself. -/
inductive Decodes : List Char → List Char → Nat → Prop where
  | nil : Decodes [] [] 0
  | cons {cs rest s : List Char} {c : Char} {halves : Nat} (hc : Writes cs c)
      (hrest : Decodes rest s halves) : Decodes (cs ++ rest) (c :: s) halves
  | half {cs rest s : List Char} {n halves : Nat} (hn : UnitEscape cs n)
      (hsurrogate : isLowSurrogate n = true ∨ isHighSurrogate n = true ∧ ¬ LowFirst rest)
      (hrest : Decodes rest s halves) : Decodes (cs ++ rest) ('\uFFFD' :: s) (halves + 1)

/-! ## Digits -/

theorem IsHexDigit.lt {n : Nat} {c : Char} (h : IsHexDigit n c) : n < 16 := by
  rcases h with h | h
  · exact (List.getElem?_eq_some_iff.mp h).1
  · exact (List.getElem?_eq_some_iff.mp h).1

theorem IsHexDigit.value {n : Nat} {c : Char} (h : IsHexDigit n c) : hexValue? c = some n := by
  have hlt := h.lt
  unfold IsHexDigit at h
  interval_cases n <;> rcases h with h | h <;> cases h <;> rfl

theorem isHexDigit_of_value {n : Nat} {c : Char} (h : hexValue? c = some n) : IsHexDigit n c := by
  have hdigits : ∀ m < 128, ∀ n ∈ hexValue? (Char.ofNat m), IsHexDigit n (Char.ofNat m) := by
    unfold IsHexDigit
    decide
  have hc := hdigits c.toNat (ascii_of_hexValue? h)
  rw [Char.ofNat_toNat] at hc
  exact hc n h

theorem UnitEscape.exists_digits {cs : List Char} {n : Nat} (h : UnitEscape cs n) :
    ∃ a b c d, cs = ['\\', 'u', a, b, c, d] ∧ hexUnit? a b c d = some n := by
  cases h with
  | digits ha hb hc hd =>
    refine ⟨_, _, _, _, rfl, ?_⟩
    rw [hexUnit?, ha.value, hb.value, hc.value, hd.value]
    rfl

theorem unitEscape_of_hexUnit? {a b c d : Char} {n : Nat} (h : hexUnit? a b c d = some n) :
    UnitEscape ['\\', 'u', a, b, c, d] n := by
  obtain ⟨k, ha, h⟩ := Option.bind_eq_some_iff.mp h
  obtain ⟨l, hb, h⟩ := Option.bind_eq_some_iff.mp h
  obtain ⟨m, hc, h⟩ := Option.bind_eq_some_iff.mp h
  obtain ⟨o, hd, h⟩ := Option.bind_eq_some_iff.mp h
  cases h
  exact .digits (isHexDigit_of_value ha) (isHexDigit_of_value hb) (isHexDigit_of_value hc)
    (isHexDigit_of_value hd)

theorem UnitEscape.exists_cons {cs : List Char} {n : Nat} (h : UnitEscape cs n) :
    ∃ es, cs = '\\' :: es ∧ '"' ∉ es := by
  obtain ⟨a, b, c, d, rfl, hunit⟩ := h.exists_digits
  refine ⟨_, rfl, fun hmem => ?_⟩
  obtain ⟨_, ha, hunit⟩ := Option.bind_eq_some_iff.mp hunit
  obtain ⟨_, hb, hunit⟩ := Option.bind_eq_some_iff.mp hunit
  obtain ⟨_, hc, hunit⟩ := Option.bind_eq_some_iff.mp hunit
  obtain ⟨_, hd, -⟩ := Option.bind_eq_some_iff.mp hunit
  have hquote : hexValue? '"' = none := by decide
  simp only [List.mem_cons, List.not_mem_nil, or_false] at hmem
  rcases hmem with hu | rfl | rfl | rfl | rfl
  · exact absurd hu (by decide)
  all_goals simp_all

/-- What comes after the closing quote is no part of an escape. -/
theorem lowFirst_of_append {cs after : List Char} (h : LowFirst (cs ++ '"' :: after)) :
    LowFirst cs := by
  obtain ⟨escape, rest, n, heq, hescape, hlow⟩ := h
  obtain ⟨es, rfl, hes⟩ := hescape.exists_cons
  rcases List.append_eq_append_iff.mp heq with ⟨as, has, hrest⟩ | ⟨as, rfl, -⟩
  · cases as with
    | nil =>
      rw [List.append_nil] at has
      exact ⟨_, [], n, by rw [List.append_nil, has], hescape, hlow⟩
    | cons c as =>
      cases hrest
      have hmem : '"' ∈ '\\' :: es := by rw [has]; exact List.mem_append_right _ List.mem_cons_self
      rw [List.mem_cons] at hmem
      exact absurd (hmem.resolve_left (by decide)) hes
  · exact ⟨_, as, n, rfl, hescape, hlow⟩

/-- A character is written as it is or by an escape. -/
theorem Writes.plain_or_escape {cs : List Char} {c : Char} (h : Writes cs c) :
    (cs = [c] ∧ c ≠ '"' ∧ c ≠ '\\') ∨ ∃ es, cs = '\\' :: es := by
  cases h with
  | plain hquote hbackslash _ => exact .inl ⟨rfl, hquote, hbackslash⟩
  | short _ => exact .inr ⟨_, rfl⟩
  | unit h =>
    obtain ⟨es, rfl, -⟩ := h.exists_cons
    exact .inr ⟨es, rfl⟩
  | pair _ hhigh _ =>
    obtain ⟨es, rfl, -⟩ := hhigh.exists_cons
    exact .inr ⟨_, rfl⟩

/-! ## Surrogates -/

theorem toNat_lt (c : Char) : c.toNat < 0x110000 := by
  rcases c.valid with h | ⟨-, h⟩
  · exact Nat.lt_trans h (by decide)
  · exact h

theorem isHighSurrogate_toNat (c : Char) : isHighSurrogate c.toNat = false := by
  have h : c.toNat < 0xD800 ∨ 0xDFFF < c.toNat ∧ c.toNat < 0x110000 := c.valid
  rw [isHighSurrogate, Bool.and_eq_false_iff, decide_eq_false_iff_not, decide_eq_false_iff_not]
  omega

theorem isLowSurrogate_toNat (c : Char) : isLowSurrogate c.toNat = false := by
  have h : c.toNat < 0xD800 ∨ 0xDFFF < c.toNat ∧ c.toNat < 0x110000 := c.valid
  rw [isLowSurrogate, Bool.and_eq_false_iff, decide_eq_false_iff_not, decide_eq_false_iff_not]
  omega

theorem isHighSurrogate_eq_false_of_low {n : Nat} (h : isLowSurrogate n = true) :
    isHighSurrogate n = false := by
  rw [isLowSurrogate, Bool.and_eq_true_iff, decide_eq_true_iff, decide_eq_true_iff] at h
  rw [isHighSurrogate, Bool.and_eq_false_iff, decide_eq_false_iff_not, decide_eq_false_iff_not]
  omega

section Pairs

variable {c : Char}

theorem isHighSurrogate_unit : isHighSurrogate (0xD800 + (c.toNat - 0x10000) / 0x400) = true := by
  have hlt := toNat_lt c
  rw [isHighSurrogate, Bool.and_eq_true_iff, decide_eq_true_iff, decide_eq_true_iff]
  omega

theorem isLowSurrogate_unit : isLowSurrogate (0xDC00 + (c.toNat - 0x10000) % 0x400) = true := by
  rw [isLowSurrogate, Bool.and_eq_true_iff, decide_eq_true_iff, decide_eq_true_iff]
  omega

theorem isLowSurrogate_high : isLowSurrogate (0xD800 + (c.toNat - 0x10000) / 0x400) = false := by
  have hlt := toNat_lt c
  rw [isLowSurrogate, Bool.and_eq_false_iff, decide_eq_false_iff_not, decide_eq_false_iff_not]
  omega

theorem pairedChar_units (hc : 0x10000 ≤ c.toNat) :
    pairedChar (0xD800 + (c.toNat - 0x10000) / 0x400) (0xDC00 + (c.toNat - 0x10000) % 0x400) =
      c := by
  have hnumber : 0x10000 + (0xD800 + (c.toNat - 0x10000) / 0x400 - 0xD800) * 0x400 +
      (0xDC00 + (c.toNat - 0x10000) % 0x400 - 0xDC00) = c.toNat := by omega
  rw [pairedChar, hnumber, Char.ofNat_toNat]

end Pairs

/-- The character of a pair has the halves of the pair as its units. -/
theorem toNat_pairedChar {high low : Nat} (hhigh : isHighSurrogate high = true)
    (hlow : isLowSurrogate low = true) :
    (pairedChar high low).toNat = 0x10000 + (high - 0xD800) * 0x400 + (low - 0xDC00) := by
  rw [isHighSurrogate, Bool.and_eq_true_iff, decide_eq_true_iff, decide_eq_true_iff] at hhigh
  rw [isLowSurrogate, Bool.and_eq_true_iff, decide_eq_true_iff, decide_eq_true_iff] at hlow
  rw [pairedChar, Char.toNat_ofNat, if_pos (.inr ⟨by omega, by omega⟩)]

theorem writes_pair {high low : Nat} {cs ds : List Char} (hhigh : UnitEscape cs high)
    (hlow : UnitEscape ds low) (hs : isHighSurrogate high = true) (ht : isLowSurrogate low = true) :
    Writes (cs ++ ds) (pairedChar high low) := by
  have hnumber := toNat_pairedChar hs ht
  rw [isHighSurrogate, Bool.and_eq_true_iff, decide_eq_true_iff, decide_eq_true_iff] at hs
  rw [isLowSurrogate, Bool.and_eq_true_iff, decide_eq_true_iff, decide_eq_true_iff] at ht
  refine .pair (by omega) ?_ ?_
  · convert hhigh using 1
    omega
  · convert hlow using 1
    omega

theorem hexValue?_lt {c : Char} {n : Nat} (h : hexValue? c = some n) : n < 16 :=
  (isHexDigit_of_value h).lt

theorem hexUnit?_lt {a b c d : Char} {n : Nat} (h : hexUnit? a b c d = some n) : n < 0x10000 := by
  obtain ⟨_, ha, h⟩ := Option.bind_eq_some_iff.mp h
  obtain ⟨_, hb, h⟩ := Option.bind_eq_some_iff.mp h
  obtain ⟨_, hc, h⟩ := Option.bind_eq_some_iff.mp h
  obtain ⟨_, hd, h⟩ := Option.bind_eq_some_iff.mp h
  cases h
  have := hexValue?_lt ha
  have := hexValue?_lt hb
  have := hexValue?_lt hc
  have := hexValue?_lt hd
  omega

/-- A unit that is no surrogate is a character. -/
theorem toNat_ofNat_unit {n : Nat} (hn : n < 0x10000) (hhigh : isHighSurrogate n = false)
    (hlow : isLowSurrogate n = false) : (Char.ofNat n).toNat = n := by
  rw [isHighSurrogate, Bool.and_eq_false_iff, decide_eq_false_iff_not, decide_eq_false_iff_not]
    at hhigh
  rw [isLowSurrogate, Bool.and_eq_false_iff, decide_eq_false_iff_not, decide_eq_false_iff_not]
    at hlow
  have hvalid : n.isValidChar := by
    by_cases h : n < 0xD800
    · exact .inl h
    · exact .inr ⟨by omega, by omega⟩
  rw [Char.toNat_ofNat, if_pos hvalid]

/-! ## The reader -/

theorem readUnit_digits {a b c d : Char} {n : Nat} (h : hexUnit? a b c d = some n)
    (rest : List Char) :
    ∃ hlt, readUnit (a :: b :: c :: d :: rest) = .ok (n, ⟨rest, hlt⟩) := by
  refine ⟨by simp only [List.length_cons]; omega, ?_⟩
  rw [readUnit, h]

/-- The reader takes the digits of a unit, and for a high surrogate the other half. -/
theorem readEscape_digits {a b c d : Char} {n : Nat} (h : hexUnit? a b c d = some n)
    (rest : List Char) :
    (readEscape ('u' :: a :: b :: c :: d :: rest)).map (fun r => (r.1, r.2.1)) =
      if isLowSurrogate n then .error ⟨.loneSurrogate, rest, 0⟩
      else if isHighSurrogate n then (readLowHalf n rest).map fun r => (r.1, r.2.1)
      else .ok (Char.ofNat n, rest) := by
  obtain ⟨hlt, hunit⟩ := readUnit_digits h rest
  simp only [readEscape, hunit, bind, Except.bind]
  split
  · rfl
  · split
    · cases readLowHalf n rest <;> rfl
    · rfl

theorem readLowHalf_digits {a b c d : Char} {high low : Nat} (h : hexUnit? a b c d = some low)
    (hlow : isLowSurrogate low = true) (rest : List Char) :
    (readLowHalf high ('\\' :: 'u' :: a :: b :: c :: d :: rest)).map (fun r => (r.1, r.2.1)) =
      .ok (pairedChar high low, rest) := by
  obtain ⟨hlt, hunit⟩ := readUnit_digits h rest
  simp only [readLowHalf, hunit, bind, Except.bind, hlow, if_true, pure, Except.pure, Except.map]

/-- A high surrogate that no low one follows is refused. -/
theorem readLowHalf_eq_error (high : Nat) {cs : List Char} (h : ¬ LowFirst cs) :
    ∃ e, readLowHalf high cs = .error e := by
  cases hread : readLowHalf high cs with
  | error e => exact ⟨e, rfl⟩
  | ok r =>
    obtain ⟨d, rest, hlt⟩ := r
    obtain ⟨a, b, c, d', low, rfl, hunit, hlow, -⟩ := Pointer.readLowHalf_ok hread
    exact absurd ⟨_, rest, low, rfl, unitEscape_of_hexUnit? hunit, hlow⟩ h

theorem readChars_backslash (cs : List Char) :
    readChars ('\\' :: cs) =
      ((readEscape cs).map fun r => (r.1, r.2.1)).bind fun e =>
        (readChars e.2).map fun r => (e.1 :: r.1, r.2) := by
  rw [readChars, if_neg (by decide), if_pos rfl]
  cases readEscape cs with
  | error e => rfl
  | ok e =>
    simp only [Except.map, Except.bind]
    cases readChars e.2.1 <;> rfl

theorem readChars_writes {cs : List Char} {c : Char} (h : Writes cs c) (rest : List Char) :
    readChars (cs ++ rest) = (readChars rest).map fun r => (c :: r.1, r.2) := by
  cases h with
  | plain hquote hbackslash hcontrol => exact readChars_plain hquote hbackslash hcontrol rest
  | short hshort =>
    rw [List.cons_append, readChars_backslash]
    simp only [shortEscapes, List.mem_cons, Prod.mk.injEq, List.not_mem_nil, or_false] at hshort
    rcases hshort with ⟨rfl, rfl⟩ | ⟨rfl, rfl⟩ | ⟨rfl, rfl⟩ | ⟨rfl, rfl⟩ | ⟨rfl, rfl⟩ |
      ⟨rfl, rfl⟩ | ⟨rfl, rfl⟩ | ⟨rfl, rfl⟩ <;> rfl
  | unit hunit =>
    obtain ⟨a, b, d, e, rfl, hdigits⟩ := hunit.exists_digits
    simp only [List.cons_append, List.nil_append]
    rw [readChars_backslash, readEscape_digits hdigits, isLowSurrogate_toNat,
      isHighSurrogate_toNat, Char.ofNat_toNat]
    rfl
  | pair hc hhigh hlow =>
    obtain ⟨a, b, d, e, rfl, hfirst⟩ := hhigh.exists_digits
    obtain ⟨f, g, i, j, rfl, hsecond⟩ := hlow.exists_digits
    simp only [List.cons_append, List.nil_append]
    rw [readChars_backslash, readEscape_digits hfirst, if_neg (by rw [isLowSurrogate_high]; decide),
      if_pos isHighSurrogate_unit, readLowHalf_digits hsecond isLowSurrogate_unit,
      pairedChar_units hc]
    rfl

/-- A surrogate without its other half is refused, whatever follows. -/
theorem readChars_half {cs rest : List Char} {n : Nat} (hn : UnitEscape cs n)
    (h : isLowSurrogate n = true ∨ isHighSurrogate n = true ∧ ¬ LowFirst rest) :
    ∃ e, readChars (cs ++ rest) = .error e := by
  obtain ⟨a, b, c, d, rfl, hdigits⟩ := hn.exists_digits
  simp only [List.cons_append, List.nil_append]
  rw [readChars_backslash, readEscape_digits hdigits]
  by_cases hlow : isLowSurrogate n = true
  · rw [if_pos hlow]
    exact ⟨_, rfl⟩
  · obtain ⟨hhigh, hrest⟩ := h.resolve_left hlow
    obtain ⟨e, he⟩ := readLowHalf_eq_error n hrest
    rw [if_neg hlow, if_pos hhigh, he]
    exact ⟨e, rfl⟩

/-- The reader takes a literal as what it denotes, and refuses any half of a pair. -/
theorem readChars_decodes {body s : List Char} {halves : Nat} (h : Decodes body s halves)
    (after : List Char) :
    (halves = 0 → readChars (body ++ '"' :: after) = .ok (s, after)) ∧
      (halves ≠ 0 → ∃ e, readChars (body ++ '"' :: after) = .error e) := by
  induction h with
  | nil => exact ⟨fun _ => by rw [List.nil_append, readChars, if_pos rfl], fun h => absurd rfl h⟩
  | cons hc _ ih =>
    rw [List.append_assoc, readChars_writes hc]
    refine ⟨fun h => by rw [ih.1 h]; rfl, fun h => ?_⟩
    obtain ⟨e, he⟩ := ih.2 h
    exact ⟨e, by rw [he]; rfl⟩
  | half hn hsurrogate _ _ =>
    rw [List.append_assoc]
    refine ⟨fun h => absurd h (Nat.succ_ne_zero _), fun _ => readChars_half hn ?_⟩
    exact hsurrogate.imp_right fun h => ⟨h.1, mt lowFirst_of_append h.2⟩

theorem writes_of_readEscape {cs : List Char} {d : Char} {r : Shorter cs}
    (h : readEscape cs = .ok (d, r)) : ∃ es, cs = es ++ r.1 ∧ Writes ('\\' :: es) d := by
  unfold readEscape at h
  split at h
  · simp at h
  · simp only at h
    split at h
    case h_9 =>
      obtain ⟨⟨n, rest, hlt⟩, hread, h⟩ := bind_eq_ok.mp h
      obtain ⟨a, b, c, d', rfl, hunit⟩ := Pointer.readUnit_ok hread
      dsimp only at h
      split at h
      · cases h
      · rename_i hlow
        split at h
        · rename_i hhigh
          obtain ⟨⟨d'', rest', hlt'⟩, hread, h⟩ := bind_eq_ok.mp h
          obtain ⟨e, f, g, i, low, rfl, hunit', hlow', hd⟩ := Pointer.readLowHalf_ok hread
          have hpair := writes_pair (unitEscape_of_hexUnit? hunit) (unitEscape_of_hexUnit? hunit')
            hhigh hlow'
          simp only [pure, Except.pure, Except.ok.injEq, Prod.mk.injEq] at h
          rw [← h.1, ← h.2, hd]
          exact ⟨['u', a, b, c, d', '\\', 'u', e, f, g, i], rfl, hpair⟩
        · rename_i hhigh
          cases h
          have hnumber := toNat_ofNat_unit (hexUnit?_lt hunit) (Bool.eq_false_iff.mpr hhigh)
            (Bool.eq_false_iff.mpr hlow)
          exact ⟨['u', a, b, c, d'], rfl, .unit (hnumber.symm ▸ unitEscape_of_hexUnit? hunit)⟩
    case h_10 => simp at h
    all_goals
      cases h
      exact ⟨[_], rfl, .short (by decide)⟩

/-- What the reader takes as a string is a literal. -/
theorem decodes_of_readChars {cs ds after : List Char} (h : readChars cs = .ok (ds, after)) :
    ∃ body, cs = body ++ '"' :: after ∧ Decodes body ds 0 := by
  fun_induction readChars cs generalizing ds after with
  | case1 => simp at h
  | case2 => cases h; exact ⟨[], rfl, .nil⟩
  | case3 => cases h
  | case4 => cases h
  | case5 rest d rest' hlt he ds' after' hr _ ih =>
    cases h
    obtain ⟨body, rfl, hbody⟩ := ih hr
    obtain ⟨es, heq, hes⟩ := writes_of_readEscape he
    exact ⟨('\\' :: es) ++ body, by rw [heq, List.append_assoc]; rfl, .cons hes hbody⟩
  | case6 => simp at h
  | case7 => cases h
  | case8 c rest hquote hbackslash hcontrol ds' after' hr ih =>
    cases h
    obtain ⟨body, rfl, hbody⟩ := ih hr
    exact ⟨[c] ++ body, rfl, .cons (.plain hquote hbackslash (Nat.not_lt.mp hcontrol)) hbody⟩

/-- The reader accepts the literals of JSON, as what they denote, and no other texts. -/
theorem readString_eq_ok_iff {cs after : List Char} {s : String} :
    readString cs = .ok (s, after) ↔
      ∃ body, cs = body ++ '"' :: after ∧ Decodes body s.toList 0 := by
  constructor
  · intro h
    obtain ⟨⟨ds, rest⟩, hread, h⟩ := bind_eq_ok.mp h
    cases h
    rw [String.toList_ofList]
    exact decodes_of_readChars hread
  · rintro ⟨body, rfl, hbody⟩
    refine bind_eq_ok.mpr ⟨_, (readChars_decodes hbody after).1 rfl, ?_⟩
    show Except.ok (String.ofList s.toList, after) = _
    rw [String.ofList_toList]

end DeliveryRules.Json
