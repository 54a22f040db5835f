import DeliveryRules.Decimal.Shortest
import DeliveryRules.Proofs.Decimal.Rounding
import DeliveryRules.Proofs.Json.Reading

/-!
# The shortest decimal does not exceed what can be read

The shortest decimal of a binary64 value may be greater than this value, and reading it rounds three
times. It is not read as an infinite value all the same.

- **Digits** (`value_lt`, `value_append`, `head_toDigits`): what the first digits of a number say
  about it.
- **The bound** (`shortest_bound`): the shortest decimal is at most halfway to the value above.
- **Reading** (`scaled_of_neg`, `scaled_shortest`): the first digits of the shortest decimal, scaled
  by what is left of its exponent, are a finite value.
-/

namespace DeliveryRules.Decimal

/-! ## Digits -/

/-- The number with these digits. -/
def value (ds : List Char) : Nat := Nat.ofDigitChars 10 ds 0

theorem value_append (ds es : List Char) :
    value (ds ++ es) = value ds * 10 ^ es.length + value es := by
  rw [value, Nat.ofDigitChars_append, Nat.ofDigitChars_eq_ofDigitChars_zero, Nat.mul_comm]
  rfl

theorem value_toDigits (n : Nat) : value (Nat.toDigits 10 n) = n := Nat.ofDigitChars_ten_toDigits

theorem isDigit_of_mem {n : Nat} {c : Char} (h : c ∈ Nat.toDigits 10 n) : c.isDigit = true :=
  Nat.isDigit_of_mem_toDigits (by decide) (by decide) h

theorem value_lt {ds : List Char} (h : ∀ c ∈ ds, c.isDigit = true) : value ds < 10 ^ ds.length := by
  induction ds with
  | nil => exact Nat.one_pos
  | cons c cs ih =>
    have hcs := ih fun c' hc' => h c' (List.mem_cons_of_mem _ hc')
    have hc : value [c] ≤ 9 := by
      rw [value, Nat.ofDigitChars_cons, Nat.ofDigitChars_nil, Nat.mul_zero, Nat.zero_add]
      exact Json.digitValue_le (h c List.mem_cons_self)
    rw [List.length_cons, Nat.pow_succ, ← List.singleton_append, value_append]
    calc value [c] * 10 ^ cs.length + value cs
        < 9 * 10 ^ cs.length + 10 ^ cs.length :=
          Nat.add_lt_add_of_le_of_lt (Nat.mul_le_mul_right _ hc) hcs
      _ = 10 ^ cs.length * 10 := by ring

/-- The first digits of a positive number are not all zero. -/
theorem value_pos {n : Nat} {ds es : List Char} (hn : 0 < n) (h : Nat.toDigits 10 n = ds ++ es)
    (hds : ds ≠ []) : 0 < value ds := by
  have hes : ∀ c ∈ es, c.isDigit = true := fun c hc =>
    isDigit_of_mem (h ▸ List.mem_append_right _ hc)
  have hvalue : n = value ds * 10 ^ es.length + value es := by
    rw [← value_append, ← h, value_toDigits]
  by_contra hzero
  have hlt : n < 10 ^ es.length := by
    rw [hvalue, Nat.eq_zero_of_not_pos hzero, Nat.zero_mul, Nat.zero_add]
    exact value_lt hes
  have hpos : 0 < es.length := by
    by_contra hnone
    rw [Nat.eq_zero_of_not_pos hnone] at hlt
    omega
  have hlength := (Nat.length_toDigits_le_iff (by decide) hpos).mpr hlt
  rw [h, List.length_append] at hlength
  exact hds (List.length_eq_zero_iff.mp (by omega))

theorem head_toDigits {n : Nat} {ds : List Char} (hn : 0 < n) : Nat.toDigits 10 n ≠ '0' :: ds :=
  fun h =>
    have hsplit : Nat.toDigits 10 n = ['0'] ++ ds := h
    absurd (value_pos hn hsplit (List.cons_ne_nil _ _)) (by decide)

namespace Binary

/-! ## The bound -/

theorem holds_of_onGrid? {b : Binary} {k : Int} {c : Nat} (h : b.onGrid? k = some c) :
    0 < c ∧ b.holds k c = true := by
  unfold onGrid? at h
  simp only at h
  generalize 4 * b.m * b.quarterScale k / b.gridScale k = below at h
  have hbelow : (b.holds k below && below != 0) = true → 0 < below ∧ b.holds k below = true := by
    simp only [Bool.and_eq_true, bne_iff_ne]
    exact fun ⟨hholds, hne⟩ => ⟨Nat.pos_of_ne_zero hne, hholds⟩
  split at h
  next hlow hhigh =>
    split at h <;> injection h with h
    · exact h ▸ hbelow hlow
    · exact h ▸ ⟨Nat.succ_pos _, hhigh⟩
  next hlow _ =>
    injection h with h
    exact h ▸ hbelow hlow
  next _ hhigh =>
    injection h with h
    exact h ▸ ⟨Nat.succ_pos _, hhigh⟩
  next => exact nomatch h

/-- The first number above the values that round to `b`, at least one. -/
def top (b : Binary) : Nat := (4 * b.m + 2) * 2 ^ (b.q - 2).toNat

/-- `digits * 10 ^ exponent` is at most `n`. -/
def AtMost (d : Decimal) (n : Nat) : Prop :=
  d.digits * 10 ^ d.exponent.toNat ≤ n * 10 ^ (-d.exponent).toNat

theorem atMost_of_holds {b : Binary} {k : Int} {c : Nat} (h : b.holds k c = true) :
    AtMost ⟨c, k⟩ b.top := by
  have hle : c * b.gridScale k ≤ b.bounds.2 * b.quarterScale k := by
    unfold holds at h
    split at h <;> simp only [Bool.and_eq_true, decide_eq_true_eq] at h
    · exact h.2
    · exact Nat.le_of_lt h.2
  calc c * 10 ^ k.toNat ≤ c * 10 ^ k.toNat * 2 ^ (2 - b.q).toNat :=
        Nat.le_mul_of_pos_right _ (Nat.two_pow_pos _)
    _ = c * b.gridScale k := by
      rw [gridScale, Nat.mul_assoc]
      rfl
    _ ≤ b.bounds.2 * b.quarterScale k := hle
    _ = b.top * 10 ^ (-k).toNat := by
      rw [quarterScale, ← Nat.mul_assoc]
      rfl

theorem coarsest_bound {b : Binary} (hm : 0 < b.m) (n : Nat) (k : Int) (hk : k ≤ n) :
    0 < (b.coarsest k n).digits ∧ k - n ≤ (b.coarsest k n).exponent ∧
      (b.coarsest k n).exponent ≤ k ∧ AtMost (b.coarsest k n) b.top := by
  induction n generalizing k with
  | zero =>
    refine ⟨hm, by simp only [coarsest]; omega, Int.le_refl k, ?_⟩
    have hzero : k.toNat = 0 := by omega
    calc b.m * 10 ^ k.toNat = b.m := by rw [hzero, Nat.pow_zero, Nat.mul_one]
      _ ≤ b.top := Nat.le_trans (by omega) (Nat.le_mul_of_pos_right _ (Nat.two_pow_pos _))
      _ ≤ b.top * 10 ^ (-k).toNat := Nat.le_mul_of_pos_right _ (Nat.pow_pos (by decide))
  | succ n ih =>
    rw [coarsest]
    split
    next c hc =>
      obtain ⟨hpos, hholds⟩ := holds_of_onGrid? hc
      exact ⟨hpos, by simp only; omega, Int.le_refl k, atMost_of_holds hholds⟩
    · obtain ⟨hpos, hlow, hhigh, hmost⟩ := ih (k - 1) (by omega)
      exact ⟨hpos, by omega, by omega, hmost⟩

theorem shortest_bound {b : Binary} (hm : 0 < b.m) :
    0 < b.shortest.digits ∧ -331 ≤ b.shortest.exponent ∧ b.shortest.exponent ≤ 309 ∧
      AtMost b.shortest b.top :=
  coarsest_bound hm 640 309 (by decide)

/-- Where digits are dropped and counted by the exponent, the number does not become greater. -/
theorem AtMost.take {d : Decimal} {n : Nat} (h : AtMost d n) {kept dropped : List Char}
    (hds : Nat.toDigits 10 d.digits = kept ++ dropped) (he : 0 ≤ d.exponent + dropped.length) :
    value kept * 10 ^ (d.exponent + dropped.length).toNat ≤ n := by
  have hkept : value kept * 10 ^ dropped.length ≤ d.digits := by
    rw [← value_toDigits d.digits, hds, value_append]
    exact Nat.le_add_right _ _
  have hsplit : (d.exponent + dropped.length).toNat + (-d.exponent).toNat =
      dropped.length + d.exponent.toNat := by omega
  refine Nat.le_of_mul_le_mul_right (c := 10 ^ (-d.exponent).toNat) ?_ (Nat.pow_pos (by decide))
  calc value kept * 10 ^ (d.exponent + dropped.length).toNat * 10 ^ (-d.exponent).toNat
      = value kept * 10 ^ dropped.length * 10 ^ d.exponent.toNat := by
        rw [Nat.mul_assoc, Nat.mul_assoc, ← Nat.pow_add, ← Nat.pow_add, hsplit]
    _ ≤ d.digits * 10 ^ d.exponent.toNat := Nat.mul_le_mul_right _ hkept
    _ ≤ n * 10 ^ (-d.exponent).toNat := h

theorem biased_lt {x : Float} (h : x.isFinite = true) :
    x.toBits.toNat % 2 ^ 63 / 2 ^ 52 < 2047 := by
  have hne := (Binary64.isFinite_assembled _ _ _).mp h
  have hexponent : (@Float.Model.UnpackedFloat.unpackExponent .binary64
      x.toModel.toBits.toBitVec).toNat = x.toBits.toNat / 2 ^ 52 % 2 ^ 11 := by
    rw [Float.Model.UnpackedFloat.unpackExponent, BitVec.toNat_cast, BitVec.extractLsb_toNat,
      Nat.shiftRight_eq_div_pow]
    rfl
  have hbelow : x.toBits.toNat / 2 ^ 52 % 2 ^ 11 ≠ 2047 := fun heq =>
    hne (BitVec.eq_of_toNat_eq (hexponent.trans heq))
  omega

theorem ofFloat_bounds {x : Float} (h : x.isFinite = true) (hne : x.toBits.toNat % 2 ^ 63 ≠ 0) :
    0 < (ofFloat x).m ∧ (ofFloat x).m < 2 ^ 53 ∧ (ofFloat x).q ≤ 971 := by
  have hlt := biased_lt h
  have hofFloat : ofFloat x = if x.toBits.toNat % 2 ^ 63 / 2 ^ 52 = 0 then
      ⟨x.toBits.toNat % 2 ^ 63 % 2 ^ 52, -1074⟩
    else ⟨2 ^ 52 + x.toBits.toNat % 2 ^ 63 % 2 ^ 52,
      (x.toBits.toNat % 2 ^ 63 / 2 ^ 52 : Nat) - 1075⟩ := rfl
  rw [hofFloat]
  split <;> simp only <;> omega

/-! ## Reading -/

open Json

theorem scaled_of_neg {x : Float} {e : Int} (he : e < 0) : ∃ y, scaled x e = some y := by
  fun_induction scaled x e with
  | case1 | case2 | case3 | case4 => omega
  | case5 x e => exact ⟨_, rfl⟩
  | case6 x e => exact ⟨_, rfl⟩
  | case7 x e _ hfar _ ih => exact ih (by simp only [maxTenth] at *; omega)

theorem scaled_of_isFinite {x : Float} {e : Nat} (he : e ≤ 308)
    (h : (x * tenTo e).isFinite = true) : scaled x e = some (x * tenTo e) := by
  rw [scaled, if_pos (Int.natCast_nonneg e), if_pos (by unfold maxTenth; omega), Int.toNat_natCast]
  exact if_pos h

/-- A number that is far enough below `2 ^ 1024` is read. -/
theorem scaled_of_lt {n e : Nat} (hpos : 0 < n) (hn : n ≤ maxSignificand)
    (h : n * 10 ^ e * (2 ^ 53 + 1) ^ 3 < 2 ^ 1183) :
    ∃ y, scaled (Float.ofNat n) e = some y := by
  have he : e ≤ 308 := by
    by_contra hlarge
    have hpow : 10 ^ 309 ≤ 10 ^ e := pow_le_pow_right₀ (by decide) (Nat.lt_of_not_le hlarge)
    have hle : 10 ^ 309 * (2 ^ 53 + 1) ^ 3 ≤ n * 10 ^ e * (2 ^ 53 + 1) ^ 3 :=
      Nat.mul_le_mul_right _ (Nat.le_trans hpow (Nat.le_mul_of_pos_left _ hpos))
    exact absurd (Nat.lt_of_le_of_lt hle h) (by decide +kernel)
  exact ⟨_, scaled_of_isFinite he (Binary64.isFinite_mul
    (Binary64.near_ofNat hpos (Nat.lt_of_le_of_lt hn (by decide))) (Binary64.near_tenTo he) h)⟩

theorem top_mul_lt {b : Binary} (hm : b.m < 2 ^ 53) (hq : b.q ≤ 971)
    (h : b.q < 971 ∨ b.m < 2 ^ 53 - 3) : b.top * (2 ^ 53 + 1) ^ 3 < 2 ^ 1183 := by
  rcases h with hless | hless
  · have hpow : 2 ^ (b.q - 2).toNat ≤ 2 ^ 968 := pow_le_pow_right₀ (by decide) (by omega)
    have htop : b.top ≤ 2 ^ 55 * 2 ^ 968 := Nat.mul_le_mul (by omega) hpow
    exact Nat.lt_of_le_of_lt (Nat.mul_le_mul_right _ htop) (by decide +kernel)
  · have hpow : 2 ^ (b.q - 2).toNat ≤ 2 ^ 969 := pow_le_pow_right₀ (by decide) (by omega)
    have htop : b.top ≤ (2 ^ 55 - 14) * 2 ^ 969 := Nat.mul_le_mul (by omega) hpow
    exact Nat.lt_of_le_of_lt (Nat.mul_le_mul_right _ htop) (by decide +kernel)

theorem length_shortest_le {b : Binary} (hpos : 0 < b.m) (hm : b.m < 2 ^ 53) (hq : b.q ≤ 971) :
    (Nat.toDigits 10 b.shortest.digits).length ≤ 1000 := by
  obtain ⟨-, hlow, -, hmost⟩ := shortest_bound hpos
  have hpow : 2 ^ (b.q - 2).toNat ≤ 2 ^ 969 := pow_le_pow_right₀ (by decide) (by omega)
  have htop : b.top ≤ 2 ^ 55 * 2 ^ 969 := Nat.mul_le_mul (by omega) hpow
  have htens : 10 ^ (-b.shortest.exponent).toNat ≤ 10 ^ 331 :=
    pow_le_pow_right₀ (by decide) (by omega)
  apply (Nat.length_toDigits_le_iff (by decide) (by decide)).mpr
  calc b.shortest.digits ≤ b.shortest.digits * 10 ^ b.shortest.exponent.toNat :=
        Nat.le_mul_of_pos_right _ (Nat.pow_pos (by decide))
    _ ≤ b.top * 10 ^ (-b.shortest.exponent).toNat := hmost
    _ ≤ 2 ^ 55 * 2 ^ 969 * 10 ^ 331 := Nat.mul_le_mul htop htens
    _ < 10 ^ 1000 := by decide +kernel

/-- The three greatest values are so near to `2 ^ 1024` that only a look at them shows that no
rounding leads there. -/
theorem greatest {b : Binary} (hm : b.m < 2 ^ 53) (hq : b.q = 971) (h : 2 ^ 53 - 3 ≤ b.m) :
    ∃ n, b.shortest = ⟨n, 292⟩ ∧ n ≤ maxSignificand ∧
      (Float.ofNat n * tenTo 292).isFinite = true := by
  obtain ⟨m, q⟩ := b
  obtain rfl : q = 971 := hq
  simp only at hm h
  obtain rfl | rfl | rfl : m = 2 ^ 53 - 3 ∨ m = 2 ^ 53 - 2 ∨ m = 2 ^ 53 - 1 := by omega
  · exact ⟨17976931348623153, by decide +kernel, by decide, by decide +kernel⟩
  · exact ⟨17976931348623155, by decide +kernel, by decide, by decide +kernel⟩
  · exact ⟨17976931348623157, by decide +kernel, by decide, by decide +kernel⟩

/-- The first digits of the shortest decimal, all of them where they fit, are read. -/
theorem scaled_shortest {b : Binary} (hpos : 0 < b.m) (hm : b.m < 2 ^ 53) (hq : b.q ≤ 971)
    {kept dropped : List Char} (hds : Nat.toDigits 10 b.shortest.digits = kept ++ dropped)
    (hsome : kept ≠ []) (hkept : value kept ≤ maxSignificand)
    (hall : b.shortest.digits ≤ maxSignificand → dropped = []) :
    ∃ y, scaled (Float.ofNat (value kept)) (b.shortest.exponent + dropped.length) = some y := by
  obtain ⟨hdigits, -, -, hmost⟩ := shortest_bound hpos
  by_cases he : b.shortest.exponent + dropped.length < 0
  · exact scaled_of_neg he
  by_cases hless : b.q < 971 ∨ b.m < 2 ^ 53 - 3
  · have hle := hmost.take hds (by omega)
    have hnat : b.shortest.exponent + dropped.length =
        ((b.shortest.exponent + dropped.length).toNat : Int) := by omega
    rw [hnat]
    exact scaled_of_lt (value_pos hdigits hds hsome) hkept
      (Nat.lt_of_le_of_lt (Nat.mul_le_mul_right _ hle) (top_mul_lt hm hq hless))
  · obtain ⟨n, hn, hfits, hfinite⟩ := greatest hm (by omega) (by omega)
    rw [hn] at hds hall ⊢
    obtain rfl := hall hfits
    have hvalue : value kept = n := by rw [← value_toDigits n, hds, List.append_nil]
    rw [hvalue]
    exact ⟨_, scaled_of_isFinite (e := 292) (by decide) hfinite⟩

end Binary

end DeliveryRules.Decimal
