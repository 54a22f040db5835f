import DeliveryRules.Json.Printer
import DeliveryRules.Proofs.Decimal.Shortest

/-!
# Numbers come back from their text

An integer of 64 bits comes back as it was. A finite binary64 value comes back as some finite value:
of the digits of the shortest decimal all are read that fit, and no such text is out of range.

- **Digits** (`gather_digits`, `readNumber_whole`, `readFraction_digits`, `readExponent_digits`):
  each reader, on the digits that a printer writes.
- **Texts** (`readNumber_positional`, `readNumber_exponent`): the two forms of a decimal.
- `readNumber_int`, `readNumber_float`: what is read from the text of a number.
- `readNumber_fits`: what is read is a number of the kind that can be written.
-/

namespace DeliveryRules.Json

open Decimal

/-! ## Digits -/

def AllDigits (ds : List Char) : Prop := ∀ c ∈ ds, c.isDigit = true

/-- No number continues with `rest`. -/
def endsNumber : List Char → Bool
  | [] => true
  | c :: _ => !(c.isDigit || c = '.' || c = 'e' || c = 'E')

theorem startsWithDigit_of_endsNumber {rest : List Char} (h : endsNumber rest = true) :
    startsWithDigit rest = false := by
  cases rest with
  | nil => rfl
  | cons c cs =>
    simp only [endsNumber, Bool.not_eq_true', Bool.or_eq_false_iff] at h
    exact h.1.1.1

theorem allDigits_toDigits (n : Nat) : AllDigits (Nat.toDigits 10 n) := fun _ => isDigit_of_mem

theorem AllDigits.left {ds es : List Char} (h : AllDigits (ds ++ es)) : AllDigits ds := fun c hc =>
  h c (List.mem_append_left _ hc)

theorem AllDigits.right {ds es : List Char} (h : AllDigits (ds ++ es)) : AllDigits es := fun c hc =>
  h c (List.mem_append_right _ hc)

theorem AllDigits.dropWhile {ds rest : List Char} (h : AllDigits ds)
    (hrest : startsWithDigit rest = false) : (ds ++ rest).dropWhile Char.isDigit = rest := by
  rw [List.dropWhile_append_of_pos h]
  cases rest with
  | nil => rfl
  | cons c cs => exact List.dropWhile_cons_of_neg (by simpa [startsWithDigit] using hrest)

/-- The digits that fit are gathered; the first that does not and all after it are left. -/
theorem gather_digits (limit s n : Nat) {ds rest : List Char} (hds : AllDigits ds)
    (hrest : startsWithDigit rest = false) :
    ∃ kept dropped, ds = kept ++ dropped ∧
      gather limit s n (ds ++ rest) =
        ((Nat.ofDigitChars 10 kept s, n + kept.length), dropped ++ rest) ∧
      (s ≤ limit → Nat.ofDigitChars 10 kept s ≤ limit) ∧
      (Nat.ofDigitChars 10 ds s ≤ limit → dropped = []) ∧
      (ds ≠ [] → s * 10 + 9 ≤ limit → kept ≠ []) := by
  induction ds generalizing s n with
  | nil =>
    refine ⟨[], [], rfl, ?_, fun h => h, fun _ => rfl, fun h => absurd rfl h⟩
    cases rest with
    | nil => rfl
    | cons c cs =>
      have hc : c.isDigit = false := hrest
      simp only [List.nil_append, gather, hc, Bool.false_and]
      rfl
  | cons c cs ih =>
    have hc := hds c List.mem_cons_self
    have hnext : Nat.ofDigitChars 10 [c] s = s * 10 + digitValue c := by
      rw [Nat.ofDigitChars_cons, Nat.ofDigitChars_nil, Nat.mul_comm]
      rfl
    by_cases hfits : s * 10 + digitValue c ≤ limit
    · obtain ⟨kept, dropped, heq, hgather, hle, hall, -⟩ := ih (s * 10 + digitValue c) (n + 1)
        fun c' hc' => hds c' (List.mem_cons_of_mem _ hc')
      have hkept (es : List Char) : Nat.ofDigitChars 10 (c :: es) s =
          Nat.ofDigitChars 10 es (s * 10 + digitValue c) := by
        rw [← List.singleton_append, Nat.ofDigitChars_append, hnext]
      refine ⟨c :: kept, dropped, by rw [heq, List.cons_append], ?_,
        fun _ => hkept kept ▸ hle hfits, fun h => hall (hkept cs ▸ h),
        fun _ _ => List.cons_ne_nil _ _⟩
      have hcond : (c.isDigit && decide (s * 10 + digitValue c ≤ limit)) = true := by
        simp only [hc, hfits, decide_true, Bool.and_self]
      simp only [List.cons_append, gather, hcond, if_true, hgather, hkept, List.length_cons]
      rw [Nat.add_assoc, Nat.add_comm 1]
    · refine ⟨[], c :: cs, rfl, ?_, fun h => h, fun h => absurd ?_ hfits,
        fun _ h => absurd (Nat.le_trans (Nat.add_le_add_left (digitValue_le hc) _) h) hfits⟩
      · have hcond : (c.isDigit && decide (s * 10 + digitValue c ≤ limit)) = false := by
          simp only [hfits, decide_false, Bool.and_false]
        simp only [List.cons_append, gather, hcond]
        rfl
      · rw [← List.singleton_append, Nat.ofDigitChars_append, hnext,
          Nat.ofDigitChars_eq_ofDigitChars_zero] at h
        have hscale : s * 10 + digitValue c ≤ 10 ^ cs.length * (s * 10 + digitValue c) :=
          Nat.le_mul_of_pos_left _ (Nat.pow_pos (by decide))
        omega

/-- A single zero, or digits of which the first is not zero. -/
def Whole (ds : List Char) : Prop :=
  ds = ['0'] ∨ ∃ c cs, ds = c :: cs ∧ c ≠ '0' ∧ AllDigits ds

theorem whole_toDigits (n : Nat) : Whole (Nat.toDigits 10 n) := by
  rcases Nat.eq_zero_or_pos n with rfl | hn
  · exact .inl (Nat.toDigits_zero 10)
  · cases h : Nat.toDigits 10 n with
    | nil => exact absurd h Nat.toDigits_ne_nil
    | cons c cs =>
      exact .inr ⟨c, cs, rfl, fun hc => head_toDigits hn (hc ▸ h), h ▸ allDigits_toDigits n⟩

theorem readNumber_whole (negative : Bool) {ds rest : List Char} (h : Whole ds)
    (hfits : value ds ≤ maxSignificand) (hrest : startsWithDigit rest = false) :
    readNumber negative (ds ++ rest) =
      readTail negative ⟨value ds, 0⟩ (wholeNumber negative (value ds)) rest := by
  rcases h with rfl | ⟨c, cs, rfl, hc, hdigits⟩
  · rw [List.singleton_append, readNumber]
    simp only [hrest]
    rfl
  · obtain ⟨kept, dropped, heq, hgather, -, hall, -⟩ :=
      gather_digits maxSignificand 0 0 hdigits hrest
    obtain rfl := hall hfits
    rw [List.append_nil] at heq
    rw [← heq, List.nil_append, List.cons_append] at hgather
    rw [List.cons_append, readNumber]
    · simp only [hdigits c List.mem_cons_self, if_true, hgather, hrest]
      rfl
    · intro h0
      exact hc h0

theorem readTail_ends (negative : Bool) (parts : Parts) (whole : Number) {rest : List Char}
    (hrest : endsNumber rest = true) : readTail negative parts whole rest = .ok (whole, rest) := by
  unfold readTail
  split <;> first | rfl | exact absurd hrest (by simp [endsNumber])

/-- What follows the point, up to an exponent or to the end. -/
theorem readFraction_digits (negative : Bool) (parts : Parts) {ds rest : List Char}
    (hds : AllDigits ds) (hsome : ds ≠ []) (hrest : startsWithDigit rest = false) :
    ∃ kept dropped, ds = kept ++ dropped ∧
      (parts.significand ≤ maxSignificand →
        Nat.ofDigitChars 10 kept parts.significand ≤ maxSignificand) ∧
      (Nat.ofDigitChars 10 ds parts.significand ≤ maxSignificand → dropped = []) ∧
      (parts.significand * 10 + 9 ≤ maxSignificand → kept ≠ []) ∧
      (∀ r, rest = 'e' :: r → readFraction negative parts (ds ++ rest) =
        readExponent negative
          ⟨Nat.ofDigitChars 10 kept parts.significand, parts.exponent - kept.length⟩ r) ∧
      (endsNumber rest = true → readFraction negative parts (ds ++ rest) =
        floatOf negative
          ⟨Nat.ofDigitChars 10 kept parts.significand, parts.exponent - kept.length⟩ rest) := by
  obtain ⟨kept, dropped, heq, hgather, hle, hall, hkept⟩ :=
    gather_digits maxSignificand parts.significand 0 hds hrest
  refine ⟨kept, dropped, heq, hle, hall, hkept hsome, ?_⟩
  have hcond : (decide (kept.length = 0) && !startsWithDigit (dropped ++ rest)) = false := by
    cases kept with
    | cons c cs => simp
    | nil =>
      cases dropped with
      | nil => exact absurd heq hsome
      | cons c cs =>
        have hc : c.isDigit = true := hds c (heq ▸ List.mem_cons_self)
        simp [startsWithDigit, hc]
  have hdropped : AllDigits dropped := (heq ▸ hds : AllDigits (kept ++ dropped)).right
  simp only [readFraction, hgather, Nat.zero_add, hcond, hdropped.dropWhile hrest]
  constructor
  · rintro r rfl
    rfl
  · intro hends
    simp only [Bool.false_eq_true, if_false]
    split <;> first | rfl | exact absurd hends (by simp [endsNumber])

theorem readExponent_digits (negative : Bool) (parts : Parts) {e : Int} {rest : List Char}
    (he : e.natAbs ≤ maxExponent) (hrest : startsWithDigit rest = false) :
    readExponent negative parts
        ((if e < 0 then '-' else '+') :: (Nat.toDigits 10 e.natAbs ++ rest)) =
      floatOf negative { parts with exponent := parts.exponent + e } rest := by
  obtain ⟨kept, dropped, heq, hgather, -, hall, -⟩ :=
    gather_digits maxExponent 0 0 (allDigits_toDigits e.natAbs) hrest
  obtain rfl := hall (by rwa [Nat.ofDigitChars_ten_toDigits])
  rw [List.append_nil] at heq
  rw [← heq, Nat.ofDigitChars_ten_toDigits, List.nil_append] at hgather
  have hdigits (down : Bool) (hdown : (if down then -(e.natAbs : Int) else e.natAbs) = e) :
      readExponentDigits negative parts down (Nat.toDigits 10 e.natAbs ++ rest) =
        floatOf negative { parts with exponent := parts.exponent + e } rest := by
    cases hcs : Nat.toDigits 10 e.natAbs with
    | nil => exact absurd hcs Nat.toDigits_ne_nil
    | cons c cs =>
      have hc : c.isDigit = true := isDigit_of_mem (hcs ▸ List.mem_cons_self)
      rw [hcs, List.cons_append] at hgather
      simp only [readExponentDigits, List.cons_append, hc, if_true, hgather, hrest, hdown,
        Bool.false_eq_true, if_false]
  by_cases hneg : e < 0
  · rw [if_pos hneg]
    exact hdigits true (by rw [if_pos rfl]; omega)
  · rw [if_neg hneg]
    exact hdigits false (by rw [if_neg Bool.false_ne_true]; omega)

/-! ## Texts -/

theorem floatOf_of_scaled (negative : Bool) {parts : Parts} (rest : List Char)
    (h : ∃ y, scaled (Float.ofNat parts.significand) parts.exponent = some y) :
    ∃ y, floatOf negative parts rest = .ok (.float y, rest) := by
  obtain ⟨y, hy⟩ := h
  exact ⟨if negative then -y else y, by simp only [floatOf, Parts.value, hy, Option.map_some]⟩

/-- A decimal with a point and no exponent is read, whatever its value. -/
theorem readNumber_positional (negative : Bool) {whole fraction rest : List Char}
    (hwhole : Whole whole) (hfits : value whole * 10 + 9 ≤ maxSignificand)
    (hfraction : AllDigits fraction) (hsome : fraction ≠ []) (hrest : endsNumber rest = true) :
    ∃ y, readNumber negative (whole ++ '.' :: (fraction ++ rest)) = .ok (.float y, rest) := by
  rw [readNumber_whole negative hwhole (by omega) rfl, readTail]
  obtain ⟨kept, dropped, -, -, -, hkept, -, hread⟩ := readFraction_digits negative ⟨value whole, 0⟩
    hfraction hsome (startsWithDigit_of_endsNumber hrest)
  rw [hread hrest]
  have hpos : 0 < kept.length := List.length_pos_of_ne_nil (hkept hfits)
  exact floatOf_of_scaled negative rest (Binary.scaled_of_neg (by simp only; omega))

/-- The digits of a decimal with an exponent: what follows the first comes after a point. -/
def mantissa (c : Char) : List Char → List Char
  | [] => [c]
  | ds => c :: '.' :: ds

/-- A decimal with an exponent is read as its first digits, times a power of ten. -/
theorem readNumber_exponent (negative : Bool) {c : Char} {ds rest : List Char} {lead : Int}
    (hds : AllDigits (c :: ds)) (hc : c ≠ '0') (hlead : lead.natAbs ≤ maxExponent)
    (hrest : endsNumber rest = true) :
    ∃ kept dropped, ds = kept ++ dropped ∧ value (c :: kept) ≤ maxSignificand ∧
      (value (c :: ds) ≤ maxSignificand → dropped = []) ∧
      readNumber negative (mantissa c ds ++
          'e' :: (if lead < 0 then '-' else '+') :: (Nat.toDigits 10 lead.natAbs ++ rest)) =
        floatOf negative ⟨value (c :: kept), lead - kept.length⟩ rest := by
  have hcdigit := hds c List.mem_cons_self
  have hfirst : value [c] ≤ 9 := by
    rw [value, Nat.ofDigitChars_cons, Nat.ofDigitChars_nil, Nat.mul_zero, Nat.zero_add]
    exact digitValue_le hcdigit
  have hmax : 9 ≤ maxSignificand := by decide
  have hdigit := startsWithDigit_of_endsNumber hrest
  have hwhole : Whole [c] := .inr ⟨c, [], rfl, hc, fun c' hc' =>
    List.mem_singleton.mp hc' ▸ hcdigit⟩
  have hvalue (es : List Char) : value (c :: es) = Nat.ofDigitChars 10 es (value [c]) := by
    rw [value, ← List.singleton_append, Nat.ofDigitChars_append]
    rfl
  cases ds with
  | nil =>
    refine ⟨[], [], rfl, Nat.le_trans hfirst hmax, fun _ => rfl, ?_⟩
    rw [mantissa, readNumber_whole negative hwhole (Nat.le_trans hfirst hmax) rfl, readTail,
      readExponent_digits negative _ hlead hdigit]
    simp only [Int.zero_add, List.length_nil, Int.natCast_zero, Int.sub_zero]
  | cons d ds =>
    have hmantissa : mantissa c (d :: ds) = [c] ++ '.' :: (d :: ds) := rfl
    have htail : AllDigits (d :: ds) := fun c' hc' => hds c' (List.mem_cons_of_mem _ hc')
    have hletter : startsWithDigit ('e' :: (if lead < 0 then '-' else '+') ::
        (Nat.toDigits 10 lead.natAbs ++ rest)) = false := rfl
    obtain ⟨kept, dropped, heq, hle, hall, -, hread, -⟩ :=
      readFraction_digits negative ⟨value [c], 0⟩ htail (List.cons_ne_nil _ _) hletter
    refine ⟨kept, dropped, heq, by rw [hvalue]; exact hle (Nat.le_trans hfirst hmax),
      fun h => hall (by rwa [hvalue] at h), ?_⟩
    rw [hmantissa, List.append_assoc, readNumber_whole negative hwhole (Nat.le_trans hfirst hmax)
      rfl, List.cons_append, readTail, hread _ rfl, readExponent_digits negative _ hlead hdigit,
      hvalue]
    simp only [Int.zero_sub]
    congr 2
    omega

/-- Digits before and after a point, the former few enough that one more fits. -/
def Positional (cs : List Char) : Prop :=
  ∃ whole fraction, Whole whole ∧ value whole * 10 + 9 ≤ maxSignificand ∧
    AllDigits fraction ∧ fraction ≠ [] ∧ cs = whole ++ '.' :: fraction

theorem value_fits {ds : List Char} (hds : AllDigits ds) (h : ds.length ≤ 16) :
    value ds * 10 + 9 ≤ maxSignificand := by
  have hlt : value ds < 10 ^ 16 :=
    Nat.lt_of_lt_of_le (value_lt hds) (Nat.pow_le_pow_right (by decide) h)
  have hmax : 10 ^ 17 + 9 ≤ maxSignificand := by decide
  omega

theorem allDigits_zeros (n : Nat) : AllDigits (List.replicate n '0') := fun _ hc =>
  List.eq_of_mem_replicate hc ▸ rfl

theorem AllDigits.append {ds es : List Char} (h : AllDigits ds) (h' : AllDigits es) :
    AllDigits (ds ++ es) := fun c hc => (List.mem_append.mp hc).elim (h c) (h' c)

theorem toString_toList (n : Nat) : (toString n).toList = Nat.toDigits 10 n := Nat.toList_repr

theorem positional_eq (d : Decimal) (whole : String) :
    d.positional whole =
      if 0 ≤ d.exponent then
        String.ofList (toString d.digits).toList ++
          String.ofList (List.replicate d.exponent.toNat '0') ++ whole
      else if (-d.exponent).toNat < (toString d.digits).toList.length then
        String.ofList ((toString d.digits).toList.take
            ((toString d.digits).toList.length - (-d.exponent).toNat)) ++ "." ++
          String.ofList ((toString d.digits).toList.drop
            ((toString d.digits).toList.length - (-d.exponent).toNat))
      else
        "0." ++ String.ofList (List.replicate
            ((-d.exponent).toNat - (toString d.digits).toList.length) '0') ++
          String.ofList (toString d.digits).toList := rfl

/-- Small decimals are written without exponent. -/
theorem positional_positional {d : Decimal} (hpos : 0 < d.digits)
    (hlead : d.exponent + (Nat.toDigits 10 d.digits).length ≤ 16) :
    Positional (d.positional ".0").toList := by
  have hdigits := allDigits_toDigits d.digits
  obtain ⟨c, cs, hcs⟩ : ∃ c cs, Nat.toDigits 10 d.digits = c :: cs :=
    List.exists_cons_of_ne_nil Nat.toDigits_ne_nil
  have hc : c ≠ '0' := fun hc => head_toDigits hpos (hc ▸ hcs)
  have hwhole {ds : List Char} (hds : AllDigits (c :: ds)) : Whole (c :: ds) :=
    .inr ⟨c, ds, rfl, hc, hds⟩
  rw [positional_eq, toString_toList]
  rw [hcs] at hdigits hlead ⊢
  by_cases hexp : 0 ≤ d.exponent
  · rw [if_pos hexp]
    have hall : AllDigits (c :: (cs ++ List.replicate d.exponent.toNat '0')) :=
      hdigits.append (allDigits_zeros _)
    refine ⟨c :: (cs ++ List.replicate d.exponent.toNat '0'), ['0'], hwhole hall,
      value_fits hall ?_, by simp [AllDigits], List.cons_ne_nil _ _, by simp⟩
    simp only [List.length_cons, List.length_append, List.length_replicate] at hlead ⊢
    omega
  · rw [if_neg hexp]
    split
    next hlt =>
      obtain ⟨n, hn⟩ : ∃ n, (c :: cs).length - (-d.exponent).toNat = n + 1 :=
        ⟨(c :: cs).length - (-d.exponent).toNat - 1, by omega⟩
      have hsplit : c :: cs = (c :: cs).take (n + 1) ++ (c :: cs).drop (n + 1) :=
        (List.take_append_drop _ _).symm
      have htake : AllDigits ((c :: cs).take (n + 1)) := (hsplit ▸ hdigits : AllDigits _).left
      rw [hn]
      refine ⟨(c :: cs).take (n + 1), (c :: cs).drop (n + 1), hwhole htake, value_fits htake ?_,
        (hsplit ▸ hdigits : AllDigits _).right, ?_, by simp⟩
      · rw [List.length_take]
        omega
      · rw [ne_eq, List.drop_eq_nil_iff]
        omega
    next hle =>
      refine ⟨['0'], List.replicate ((-d.exponent).toNat - (c :: cs).length) '0' ++ c :: cs,
        .inl rfl, by decide, (allDigits_zeros _).append hdigits, ?_, by simp⟩
      exact List.append_ne_nil_of_right_ne_nil _ (List.cons_ne_nil _ _)

theorem text_eq {d : Decimal} {c : Char} {ds : List Char} (h : Nat.toDigits 10 d.digits = c :: ds) :
    d.text =
      if positionalFrom ≤ d.exponent + ds.length ∧ d.exponent + ds.length ≤ positionalTo then
        d.positional ".0"
      else String.ofList (mantissa c ds) ++ "e" ++
        (if d.exponent + ds.length < 0 then "-" else "+") ++
          toString (d.exponent + ds.length).natAbs := by
  unfold Decimal.text
  simp only [toString_toList, h, List.length_cons, Nat.add_sub_cancel, Bool.and_eq_true,
    decide_eq_true_eq]
  split
  · rfl
  · cases ds <;> rfl

/-- The two forms of a decimal. -/
theorem text_cases {d : Decimal} {c : Char} {ds : List Char} (hpos : 0 < d.digits)
    (h : Nat.toDigits 10 d.digits = c :: ds) :
    Positional d.text.toList ∨
      d.text.toList = mantissa c ds ++ 'e' :: (if d.exponent + ds.length < 0 then '-' else '+') ::
        Nat.toDigits 10 (d.exponent + ds.length).natAbs := by
  rw [text_eq h]
  split
  next hlead =>
    refine .inl (positional_positional hpos ?_)
    have : positionalTo = 15 := rfl
    rw [h, List.length_cons]
    omega
  next =>
    refine .inr ?_
    simp only [String.toList_append, String.toList_ofList, toString_toList, List.append_assoc]
    split <;> rfl

/-! ## Numbers -/

/-- What the text of a number may hold: an integer of 64 bits or a finite value. -/
def Fits : Number → Prop
  | .int n => -2 ^ 63 ≤ n ∧ n < 2 ^ 64
  | .float x => x.isFinite = true

/-- The sign before the text of a number, and the text itself. -/
def unsigned (negative : Bool) (cs : List Char) : List Char :=
  if negative then '-' :: cs else cs

theorem text_int (n : Int) :
    (Number.text (.int n)).toList = unsigned (decide (n < 0)) (Nat.toDigits 10 n.natAbs) := by
  show (toString n).toList = _
  cases n with
  | ofNat n =>
    have hnonneg : ¬ Int.ofNat n < 0 := Int.not_lt.mpr (Int.natCast_nonneg n)
    simp only [unsigned, hnonneg, decide_false]
    exact toString_toList n
  | negSucc n =>
    have hneg : Int.negSucc n < 0 := Int.negSucc_lt_zero n
    simp only [unsigned, hneg, decide_true, if_true]
    show ("-" ++ Nat.repr (n + 1)).toList = _
    rw [String.toList_append, Nat.toList_repr]
    rfl

theorem readNumber_int {n : Int} (h : Fits (.int n)) {rest : List Char}
    (hrest : endsNumber rest = true) :
    readNumber (decide (n < 0)) (Nat.toDigits 10 n.natAbs ++ rest) = .ok (.int n, rest) := by
  have hmax : maxSignificand = 2 ^ 64 - 1 := rfl
  have hfits : -2 ^ 63 ≤ n ∧ n < 2 ^ 64 := h
  rw [readNumber_whole _ (whole_toDigits _) (by rw [value_toDigits]; omega)
    (startsWithDigit_of_endsNumber hrest), value_toDigits, readTail_ends _ _ _ hrest]
  by_cases hneg : n < 0
  · have hrange : 0 < n.natAbs ∧ n.natAbs ≤ Nat.pow 2 63 := by
      show 0 < n.natAbs ∧ n.natAbs ≤ 2 ^ 63
      omega
    have hback : -(n.natAbs : Int) = n := by omega
    simp only [wholeNumber, hneg, decide_true, if_true, hrange.1, hrange.2, Bool.and_self, hback]
  · have hback : (n.natAbs : Int) = n := by omega
    simp only [wholeNumber, hneg, decide_false, Bool.false_eq_true, if_false, hback]

theorem text_float (x : Float) :
    ∃ negative cs, (Number.text (.float x)).toList = unsigned negative cs ∧
      (cs = ['0', '.', '0'] ∨
        x.toBits.toNat % 2 ^ 63 ≠ 0 ∧ cs = (Binary.ofFloat x).shortest.text.toList) := by
  have htext : Number.text (.float x) =
      if x.toBits.toNat % 2 ^ 63 = 0 then (if 2 ^ 63 ≤ x.toBits.toNat then "-" else "") ++ "0.0"
      else (if 2 ^ 63 ≤ x.toBits.toNat then "-" else "") ++
        (Binary.ofFloat x).shortest.text := rfl
  have hsign (s : String) : ((if 2 ^ 63 ≤ x.toBits.toNat then "-" else "") ++ s).toList =
      unsigned (decide (2 ^ 63 ≤ x.toBits.toNat)) s.toList := by
    rw [String.toList_append]
    by_cases hneg : 2 ^ 63 ≤ x.toBits.toNat
    · simp only [hneg, if_true, unsigned, decide_true]
      rfl
    · simp only [hneg, if_false, unsigned, decide_false]
      rfl
  rw [htext]
  split
  next => exact ⟨_, _, hsign _, .inl rfl⟩
  next hne => exact ⟨_, _, hsign _, .inr ⟨hne, rfl⟩⟩

/-- The text of a finite value is read as a number, the sign apart. -/
theorem readNumber_shortest (negative : Bool) {x : Float} (h : Fits (.float x))
    (hne : x.toBits.toNat % 2 ^ 63 ≠ 0) {rest : List Char} (hrest : endsNumber rest = true) :
    ∃ y, readNumber negative ((Binary.ofFloat x).shortest.text.toList ++ rest) =
      .ok (.float y, rest) := by
  obtain ⟨hm, hm', hq⟩ := Binary.ofFloat_bounds h hne
  obtain ⟨hpos, hlow, hhigh, -⟩ := Binary.shortest_bound hm
  obtain ⟨c, ds, hds⟩ : ∃ c ds, Nat.toDigits 10 (Binary.ofFloat x).shortest.digits = c :: ds :=
    List.exists_cons_of_ne_nil Nat.toDigits_ne_nil
  rcases text_cases hpos hds with ⟨whole, fraction, hwhole, hfits, hfraction, hsome, heq⟩ | heq
  · rw [heq, List.append_assoc, List.cons_append]
    exact readNumber_positional negative hwhole hfits hfraction hsome hrest
  · have hdigits : AllDigits (c :: ds) := hds ▸ allDigits_toDigits _
    have hc : c ≠ '0' := fun hc => head_toDigits hpos (hc ▸ hds)
    have hlead : ((Binary.ofFloat x).shortest.exponent + ds.length).natAbs ≤ maxExponent := by
      have hlength := Binary.length_shortest_le hm hm' hq
      have hmax : maxExponent = 2 ^ 31 - 1 := rfl
      rw [hds, List.length_cons] at hlength
      omega
    obtain ⟨kept, dropped, hsplit, hfits, hall, hread⟩ :=
      readNumber_exponent negative hdigits hc hlead hrest
    rw [heq, List.append_assoc, List.cons_append, List.cons_append, hread]
    apply floatOf_of_scaled
    have hexponent : (Binary.ofFloat x).shortest.exponent + ds.length - kept.length =
        (Binary.ofFloat x).shortest.exponent + dropped.length := by
      rw [hsplit, List.length_append]
      omega
    rw [hexponent]
    refine Binary.scaled_shortest hm hm' hq (by rw [hds, hsplit, List.cons_append])
      (List.cons_ne_nil _ _) hfits fun hle => hall ?_
    rwa [← hds, value_toDigits]

theorem readNumber_float {x : Float} (h : Fits (.float x)) :
    ∃ negative cs, (Number.text (.float x)).toList = unsigned negative cs ∧
      ∀ {rest : List Char}, endsNumber rest = true →
        ∃ y, readNumber negative (cs ++ rest) = .ok (.float y, rest) := by
  obtain ⟨negative, cs, htext, rfl | ⟨hne, rfl⟩⟩ := text_float x
  · have hzero : AllDigits ['0'] := allDigits_zeros 1
    exact ⟨negative, _, htext,
      readNumber_positional negative (.inl rfl) (by decide) hzero (List.cons_ne_nil _ _)⟩
  · exact ⟨negative, _, htext, readNumber_shortest negative h hne⟩

/-! ## What is read -/

theorem scaled_isFinite {x y : Float} {e : Int} (hx : x.isFinite = true)
    (h : scaled x e = some y) : y.isFinite = true := by
  have hdiv {x : Float} {n : Nat} (hx : x.isFinite = true) (hpos : 0 < n) (hn : n ≤ 308) :
      (x / tenTo n).isFinite = true := by
    have hten : 10 ^ 1 ≤ 10 ^ n := Nat.pow_le_pow_right (by decide) hpos
    exact Binary64.isFinite_div hx (Binary64.near_tenTo hn) (Nat.le_trans (by decide) hten)
  have hmax : maxTenth = 308 := rfl
  fun_induction scaled x e with
  | case1 x e _ _ z hz => exact Option.some.inj h ▸ hz
  | case3 x => exact Option.some.inj h ▸ hx
  | case2 | case4 => cases h
  | case5 x e _ _ => exact Option.some.inj h ▸ hdiv hx (by omega) (by omega)
  | case6 x => exact Option.some.inj h ▸ hx
  | case7 x e _ _ _ ih => exact ih (hdiv hx (by decide) (by decide)) h

theorem floatOf_fits {negative : Bool} {parts : Parts} {cs rest : List Char} {n : Number}
    (hp : parts.significand ≤ maxSignificand) (h : floatOf negative parts cs = .ok (n, rest)) :
    Fits n := by
  unfold floatOf at h
  split at h
  next x hx =>
    cases h
    simp only [Parts.value, Option.map_eq_some_iff] at hx
    obtain ⟨y, hy, rfl⟩ := hx
    have hfinite := scaled_isFinite (Binary64.isFinite_ofNat (Nat.lt_succ_of_le hp)) hy
    show (if negative then -y else y).isFinite = true
    split
    · exact Binary64.isFinite_neg hfinite
    · exact hfinite
  · cases h

theorem gather_le {limit s : Nat} (n : Nat) (cs : List Char) (hs : s ≤ limit) :
    (gather limit s n cs).1.1 ≤ limit := by
  induction cs generalizing s n with
  | nil => exact hs
  | cons c cs ih =>
    unfold gather
    split
    next hc =>
      simp only [Bool.and_eq_true, decide_eq_true_eq] at hc
      exact ih _ hc.2
    · exact hs

theorem readExponent_fits {negative : Bool} {parts : Parts} {cs rest : List Char} {n : Number}
    (hp : parts.significand ≤ maxSignificand) (h : readExponent negative parts cs = .ok (n, rest)) :
    Fits n := by
  have hparts (e : Int) : ({ parts with exponent := e } : Parts).significand ≤ maxSignificand := hp
  unfold readExponent readExponentDigits at h
  split at h
  · cases h
  · simp only at h
    split at h
    · split at h
      · split at h
        · cases h
        · cases h
          show (if negative then -0.0 else 0.0 : Float).isFinite = true
          split <;> decide +kernel
      · exact floatOf_fits (hparts _) h
    · cases h

theorem readFraction_fits {negative : Bool} {parts : Parts} {cs rest : List Char} {n : Number}
    (hp : parts.significand ≤ maxSignificand) (h : readFraction negative parts cs = .ok (n, rest)) :
    Fits n := by
  have hgather := gather_le 0 cs hp
  unfold readFraction at h
  simp only at h
  split at h
  · split at h <;> cases h
  · split at h
    · exact readExponent_fits hgather h
    · exact readExponent_fits hgather h
    · exact floatOf_fits hgather h

theorem readTail_fits {negative : Bool} {parts : Parts} {whole n : Number} {cs rest : List Char}
    (hp : parts.significand ≤ maxSignificand) (hwhole : Fits whole)
    (h : readTail negative parts whole cs = .ok (n, rest)) : Fits n := by
  unfold readTail at h
  split at h
  · exact readFraction_fits hp h
  · exact readExponent_fits hp h
  · exact readExponent_fits hp h
  · cases h
    exact hwhole

theorem wholeNumber_fits (negative : Bool) {n : Nat} (h : n ≤ maxSignificand) :
    Fits (wholeNumber negative n) := by
  have hmax : maxSignificand = 2 ^ 64 - 1 := rfl
  unfold wholeNumber
  split
  · split
    next hrange =>
      simp only [Bool.and_eq_true, decide_eq_true_eq] at hrange
      have hle : n ≤ 2 ^ 63 := hrange.2
      show -2 ^ 63 ≤ -(n : Int) ∧ -(n : Int) < 2 ^ 64
      omega
    · exact Binary64.isFinite_neg (Binary64.isFinite_ofNat (Nat.lt_succ_of_le h))
  · show -2 ^ 63 ≤ (n : Int) ∧ (n : Int) < 2 ^ 64
    omega

/-- What is read is an integer of 64 bits or a finite value. -/
theorem readNumber_fits {negative : Bool} {cs rest : List Char} {n : Number}
    (h : readNumber negative cs = .ok (n, rest)) : Fits n := by
  have hgather : (gather maxSignificand 0 0 cs).1.1 ≤ maxSignificand :=
    gather_le 0 cs (Nat.zero_le _)
  unfold readNumber at h
  split at h
  · cases h
  · split at h
    · cases h
    · exact readTail_fits (Nat.zero_le _) (wholeNumber_fits _ (Nat.zero_le _)) h
  · split at h
    · simp only at h
      split at h
      · split at h
        · exact readFraction_fits hgather h
        · exact readExponent_fits hgather h
        · exact readExponent_fits hgather h
        · exact floatOf_fits hgather h
      · exact readTail_fits hgather (wholeNumber_fits _ hgather) h
    · cases h

end DeliveryRules.Json
