import DeliveryRules.Json.Number
import Mathlib

/-!
# Binary64 arithmetic that stays finite

A binary64 value is computed from an exact one by rounding its mantissa to 53 bits. Here is what
this does to the size of numbers, in natural numbers alone.

- **Rounding** (`round_eq`): what is left of a mantissa after one shift, and after another if it was
  rounded up to `2 ^ 53`.
- **Finite values** (`isFinite_pack`, `unpack_of_isFinite`): those with an exponent up to `971`.
- **Natural numbers** (`Near`, `near_ofNat`, `near_tenTo`): a natural number is rounded up by no
  more than one part in `2 ^ 53`.
- `isFinite_mul`: a product of such values is finite if the exact product is far enough from the
  greatest value.
- `isFinite_div`: dividing by one of them does not lead out of the finite values.
-/

namespace DeliveryRules.Binary64

open Float.Model Float.Model.UnpackedFloat

/-! ## Rounding -/

theorem shift_succ (em : ExtendedMantissa) (n : Nat) :
    em >>> (n + 1) = (em >>> n).shiftRightOne := rfl

theorem mantissa_shift (em : ExtendedMantissa) (n : Nat) :
    (em >>> n).mantissa = em.mantissa / 2 ^ n := by
  induction n with
  | zero =>
    rw [Nat.pow_zero, Nat.div_one]
    rfl
  | succ n ih =>
    rw [shift_succ, Nat.pow_succ, ← Nat.div_div_eq_div_mul, ← ih]
    rfl

theorem mantissa_ofMantissaAndAccuracy (m : Nat) (accuracy : Accuracy) :
    (ExtendedMantissa.ofMantissaAndAccuracy m accuracy).mantissa = m := by
  unfold ExtendedMantissa.ofMantissaAndAccuracy
  split <;> rfl

/-- A mantissa is rounded up by one at most, and only if the bit after it is set. -/
theorem roundedMantissa_bounds (em : ExtendedMantissa) :
    em.mantissa ≤ em.roundedMantissa ∧
      em.roundedMantissa ≤ em.mantissa + em.roundBit.toNat := by
  obtain ⟨m, roundBit, stickyBit⟩ := em
  cases roundBit <;> cases stickyBit <;>
    simp only [ExtendedMantissa.roundedMantissa, ExtendedMantissa.accuracy,
      Accuracy.roundToNearestEven, Bool.toNat_false, Bool.toNat_true] <;> omega

/-- Rounding adds no more than half of the last place. -/
theorem roundedMantissa_shift_le (m n : Nat) :
    ((⟨m, false, false⟩ : ExtendedMantissa) >>> (n + 1)).roundedMantissa * 2 ^ (n + 1) ≤
      m + 2 ^ n := by
  let before : ExtendedMantissa := (⟨m, false, false⟩ : ExtendedMantissa) >>> n
  have hbefore : before.mantissa = m / 2 ^ n := mantissa_shift _ n
  have hrounded := (roundedMantissa_bounds before.shiftRightOne).2
  have hle : before.shiftRightOne.roundedMantissa * 2 ≤ before.mantissa + 1 := by
    have hmantissa : before.shiftRightOne.mantissa = before.mantissa / 2 := rfl
    have hbit : before.shiftRightOne.roundBit = (before.mantissa % 2 != 0) := rfl
    rw [hmantissa, hbit] at hrounded
    rcases Nat.mod_two_eq_zero_or_one before.mantissa with heven | hodd
    · simp only [heven, bne_self_eq_false, Bool.toNat_false] at hrounded
      omega
    · have hset : (1 != 0) = true := rfl
      simp only [hodd, hset, Bool.toNat_true] at hrounded
      omega
  have hdiv : m / 2 ^ n * 2 ^ n ≤ m := Nat.div_mul_le_self m (2 ^ n)
  rw [shift_succ]
  calc before.shiftRightOne.roundedMantissa * 2 ^ (n + 1)
      = before.shiftRightOne.roundedMantissa * 2 * 2 ^ n := by ring
    _ ≤ (m / 2 ^ n + 1) * 2 ^ n := Nat.mul_le_mul_right _ (hbefore ▸ hle)
    _ = m / 2 ^ n * 2 ^ n + 2 ^ n := by ring
    _ ≤ m + 2 ^ n := Nat.add_le_add_right hdiv _

theorem targetExponent_binary64 (n : Int) :
    Format.binary64.targetExponent n = max (n - 53) (-1074) := rfl

theorem targetExponent_eq (m : Nat) (e : Int) :
    Format.binary64.targetExponent (totalExponent m e) = max (m.log2 + e - 52) (-1074) := by
  rw [targetExponent_binary64, totalExponent]
  omega

/-- By how much a mantissa is shifted to have 53 bits, or fewer where the exponent is least. -/
def places (m : Nat) (e : Int) : Nat := (max (m.log2 + e - 52) (-1074) - e).toNat

theorem shiftToTargetExponent_eq (m : Nat) (e : Int) (accuracy : Accuracy) :
    shiftToTargetExponent Format.binary64 m e accuracy =
      (ExtendedMantissa.ofMantissaAndAccuracy m accuracy >>> places m e, e + places m e) := by
  rw [shiftToTargetExponent, shiftToExponent, targetExponent_eq]
  rfl

theorem div_places_lt (m : Nat) (e : Int) : m / 2 ^ places m e < 2 ^ 53 := by
  have hlog : m.log2 + 1 ≤ 53 + places m e := by
    unfold places
    omega
  rw [Nat.div_lt_iff_lt_mul (Nat.two_pow_pos _), ← Nat.pow_add]
  exact Nat.lt_of_lt_of_le Nat.lt_log2_self (Nat.pow_le_pow_right (by decide) hlog)

/-- The mantissa after rounding. -/
def rounded (m : Nat) (e : Int) (accuracy : Accuracy) : Nat :=
  (ExtendedMantissa.ofMantissaAndAccuracy m accuracy >>> places m e).roundedMantissa

theorem rounded_bounds (m : Nat) (e : Int) (accuracy : Accuracy) :
    m / 2 ^ places m e ≤ rounded m e accuracy ∧
      rounded m e accuracy ≤ m / 2 ^ places m e + 1 := by
  have hbounds := roundedMantissa_bounds
    (ExtendedMantissa.ofMantissaAndAccuracy m accuracy >>> places m e)
  rw [mantissa_shift, mantissa_ofMantissaAndAccuracy] at hbounds
  exact ⟨hbounds.1, Nat.le_trans hbounds.2 (Nat.add_le_add_left (Bool.toNat_le _) _)⟩

/-- The mantissa and the exponent that a rounded mantissa ends with. -/
def carried (sign : Sign) (r : Nat) (e : Int) : UnpackedFloat :=
  if h : r = 0 then .zero sign
  else if r < 2 ^ 53 then .finite sign r e (Nat.pos_of_ne_zero h)
  else .finite sign (2 ^ 52) (e + 1) (Nat.two_pow_pos 52)

/-- The second shift, after rounding: it only takes place where the mantissa became `2 ^ 53`. -/
theorem shift_rounded_eq (sign : Sign) (r : Nat) (e : Int) (hle : r ≤ 2 ^ 53) (he : -1074 ≤ e) :
    (if h : (ExtendedMantissa.ofMantissaAndAccuracy r .exact >>> places r e).mantissa = 0 then
        UnpackedFloat.zero sign
      else .finite sign (ExtendedMantissa.ofMantissaAndAccuracy r .exact >>> places r e).mantissa
        (e + places r e) (Nat.pos_of_ne_zero h)) = carried sign r e := by
  simp only [mantissa_shift, mantissa_ofMantissaAndAccuracy, carried]
  by_cases hlt : r < 2 ^ 53
  · have hplaces : places r e = 0 := by
      have hlog : r.log2 < 53 := by
        by_cases hzero : r = 0
        · rw [hzero]
          decide
        · exact (Nat.log2_lt hzero).mpr hlt
      unfold places
      omega
    simp only [hplaces, hlt, if_true, Nat.pow_zero, Nat.div_one, Int.natCast_zero, Int.add_zero]
  · have heq : r = 2 ^ 53 := by omega
    have hplaces : places r e = 1 := by
      unfold places
      rw [heq, Nat.log2_two_pow]
      omega
    subst heq
    simp only [hplaces]
    rfl

/-- A value is rounded by one shift, and another if that leads to `2 ^ 53`. -/
theorem round_eq (sign : Sign) (m : Nat) (e : Int) (accuracy : Accuracy) :
    roundWithAccuracy Format.binary64 sign m e accuracy =
      carried sign (rounded m e accuracy) (e + places m e) := by
  have hleast : -1074 ≤ e + places m e := by
    unfold places
    omega
  have hle : rounded m e accuracy ≤ 2 ^ 53 := by
    have hlt := div_places_lt m e
    have hbounds := rounded_bounds m e accuracy
    omega
  simp only [roundWithAccuracy, shiftToTargetExponent_eq]
  exact shift_rounded_eq sign (rounded m e accuracy) (e + places m e) hle hleast

theorem places_add {m : Nat} {e : Int} (hm : 2 ^ 52 ≤ m) (he : -1074 ≤ m.log2 + e - 52) :
    52 + places m e = m.log2 := by
  have hlog : 52 ≤ m.log2 := (Nat.le_log2 (by omega)).mpr hm
  unfold places
  omega

theorem two_pow_places_le {m : Nat} {e : Int} (hm : 2 ^ 52 ≤ m)
    (he : -1074 ≤ m.log2 + e - 52) : 2 ^ 52 * 2 ^ places m e ≤ m := by
  rw [← Nat.pow_add, places_add hm he]
  exact Nat.log2_self_le (by omega)

/-- A mantissa of 53 bits or more is rounded up by no more than one part in `2 ^ 53`. -/
theorem rounded_excess {m : Nat} {e : Int} (hm : 2 ^ 52 ≤ m) (he : -1074 ≤ m.log2 + e - 52) :
    rounded m e .exact * 2 ^ places m e * 2 ^ 53 ≤ m * (2 ^ 53 + 1) := by
  have hpower := two_pow_places_le hm he
  cases hp : places m e with
  | zero =>
    have hsame : rounded m e .exact = m := by
      rw [rounded, hp]
      rfl
    rw [hsame]
    omega
  | succ n =>
    have hhalf : rounded m e .exact * 2 ^ (n + 1) ≤ m + 2 ^ n := by
      rw [rounded, hp]
      exact roundedMantissa_shift_le m n
    rw [hp, Nat.pow_succ] at hpower
    calc rounded m e .exact * 2 ^ (n + 1) * 2 ^ 53
        ≤ (m + 2 ^ n) * 2 ^ 53 := Nat.mul_le_mul_right _ hhalf
      _ = m * 2 ^ 53 + 2 ^ 52 * (2 ^ n * 2) := by ring
      _ ≤ m * 2 ^ 53 + m := Nat.add_le_add_left hpower _
      _ = m * (2 ^ 53 + 1) := by ring

/-- A mantissa of 53 bits or more is rounded to 53 bits, up by no more than one part in
`2 ^ 53`. -/
theorem round_exact {m : Nat} {e : Int} (sign : Sign) (hm : 2 ^ 52 ≤ m)
    (he : -1074 ≤ m.log2 + e - 52) :
    ∃ (a k : Nat) (h : 0 < a), 2 ^ 52 ≤ a ∧ a < 2 ^ 53 ∧ a * 2 ^ k * 2 ^ 53 ≤ m * (2 ^ 53 + 1) ∧
      m.log2 ≤ 52 + k ∧
      roundWithAccuracy Format.binary64 sign m e .exact = .finite sign a (e + k) h := by
  have hplaces := places_add hm he
  have hexcess := rounded_excess hm he
  have hbounds := rounded_bounds m e .exact
  have hlow : 2 ^ 52 ≤ rounded m e .exact :=
    Nat.le_trans ((Nat.le_div_iff_mul_le (Nat.two_pow_pos _)).mpr (two_pow_places_le hm he))
      hbounds.1
  have hhigh : rounded m e .exact ≤ 2 ^ 53 := by
    have hlt := div_places_lt m e
    omega
  rw [round_eq]
  unfold carried
  have hpos : rounded m e .exact ≠ 0 := by omega
  simp only [hpos, dite_false]
  by_cases hlt : rounded m e .exact < 2 ^ 53
  · simp only [hlt, if_true]
    exact ⟨_, _, Nat.pos_of_ne_zero hpos, hlow, hlt, hexcess, Nat.le_of_eq hplaces.symm, rfl⟩
  · have heq : rounded m e .exact = 2 ^ 53 := by omega
    simp only [hlt, if_false]
    refine ⟨2 ^ 52, places m e + 1, Nat.two_pow_pos 52, Nat.le_refl _, by decide, ?_, by omega, by
      rw [Int.natCast_add, ← Int.add_assoc]
      rfl⟩
    rw [heq] at hexcess
    rw [Nat.pow_succ]
    calc 2 ^ 52 * (2 ^ places m e * 2) * 2 ^ 53 = 2 ^ 53 * 2 ^ places m e * 2 ^ 53 := by ring
      _ ≤ m * (2 ^ 53 + 1) := hexcess

/-! ## Finite values -/

theorem toNat_implicit_append (v : BitVec 52) : (1#1 ++ v).toNat = 2 ^ 52 + v.toNat := by
  rw [BitVec.toNat_append, ← Nat.shiftLeft_add_eq_or_of_lt v.isLt, Nat.shiftLeft_eq]
  rfl

/-- The value with the given sign, biased exponent and stored mantissa. -/
def assembled (sign : Sign) (exponent : BitVec 11) (mantissa : BitVec 52) : UnpackedFloat :=
  if exponent = -1#11 then if mantissa = 0#52 then .infinity sign else .notANumber
  else if exponent = 0#11 then
    if h : mantissa = 0#52 then .zero sign
    else .finite sign mantissa.toNat (exponent.toNat - 1075 + 1)
      (Nat.pos_of_ne_zero fun heq => h (BitVec.eq_of_toNat_eq heq))
  else .finite sign (1#1 ++ mantissa).toNat (exponent.toNat - 1075) (by
    rw [toNat_implicit_append]
    omega)

theorem unpack_eq (b : BitVec Format.binary64.numBits) :
    UnpackedFloat.unpack Format.binary64 b =
      assembled (.ofBitVec (unpackSign b)) (unpackExponent b) (unpackMantissa b) := rfl

theorem isFinite_assembled (sign : Sign) (exponent : BitVec 11) (mantissa : BitVec 52) :
    (assembled sign exponent mantissa).isFinite = true ↔ exponent ≠ -1#11 := by
  unfold assembled
  by_cases hinf : exponent = -1#11
  · simp only [hinf, if_true, ne_eq, not_true, iff_false]
    split <;> exact Bool.noConfusion
  · simp only [hinf, if_false, ne_eq, not_false_iff, iff_true]
    split
    · split <;> rfl
    · rfl

theorem assembled_finite {sign : Sign} {exponent : BitVec 11} {mantissa : BitVec 52}
    (h : exponent ≠ -1#11) :
    assembled sign exponent mantissa = .zero sign ∨
      ∃ m e hm, assembled sign exponent mantissa = .finite sign m e hm ∧
        m < 2 ^ 53 ∧ -1074 ≤ e ∧ e ≤ 971 := by
  have hmantissa := mantissa.isLt
  have hbelow : exponent.toNat < 2047 := by
    have hne : exponent.toNat ≠ 2047 := fun heq => h (BitVec.eq_of_toNat_eq heq)
    have hlt := exponent.isLt
    omega
  unfold assembled
  simp only [h, if_false]
  by_cases hzero : exponent = 0#11
  · simp only [hzero, if_true]
    by_cases hnone : mantissa = 0#52
    · exact .inl (dif_pos hnone)
    · have hpos : 0 < mantissa.toNat :=
        Nat.pos_of_ne_zero fun heq => hnone (BitVec.eq_of_toNat_eq heq)
      exact .inr ⟨_, _, hpos, dif_neg hnone, Nat.lt_trans hmantissa (by decide), by decide,
        by decide⟩
  · have hpos : exponent.toNat ≠ 0 := fun heq => hzero (BitVec.eq_of_toNat_eq heq)
    simp only [hzero, if_false]
    have hm : 0 < (1#1 ++ mantissa).toNat := by
      rw [toNat_implicit_append]
      omega
    refine .inr ⟨_, _, hm, rfl, ?_, by omega, by omega⟩
    rw [toNat_implicit_append]
    omega

/-- A finite value is zero or has a mantissa of at most 53 bits and an exponent up to `971`. -/
theorem unpack_of_isFinite {x : Float.Model} (h : x.isFinite = true) :
    ∃ sign, x.unpack = .zero sign ∨
      ∃ m e hm, x.unpack = .finite sign m e hm ∧ m < 2 ^ 53 ∧ -1074 ≤ e ∧ e ≤ 971 :=
  ⟨_, assembled_finite ((isFinite_assembled _ _ _).mp h)⟩

theorem ofNat_ne_neg_one {n : Nat} (h : n < 2047) : BitVec.ofNat 11 n ≠ -1#11 := by
  intro heq
  have hnat := congrArg BitVec.toNat heq
  rw [BitVec.toNat_ofNat] at hnat
  have : (-1#11).toNat = 2047 := rfl
  omega

theorem pack_finite (sign : Sign) (m : Nat) (e : Int) (hm : 0 < m) (h : e ≤ 971) :
    UnpackedFloat.pack Format.binary64 (.finite sign m e hm) =
      if m.log2 = 52 then
        packComponents Format.binary64 sign (BitVec.ofNat 11 (e + 1075).toNat) (BitVec.ofNat 52 m)
      else packComponents Format.binary64 sign 0#11 (BitVec.ofNat 52 m) := by
  have hbias : e + (Format.binary64.exponentBias : Int) +
      (Format.binary64.mantissaBitsWithoutImplicit : Int) = e + 1075 := by
    show e + 1023 + 52 = e + 1075
    omega
  have hover : ¬ 2 ^ Format.binary64.exponentBits ≤ (e + 1075).toNat + 1 := by
    show ¬ 2 ^ 11 ≤ (e + 1075).toNat + 1
    omega
  have hbits : (m.log2 + 1 = Format.binary64.mantissaBits) ↔ m.log2 = 52 := by
    show m.log2 + 1 = 53 ↔ m.log2 = 52
    omega
  simp only [UnpackedFloat.pack, hbias, hover, if_false, hbits]

theorem isFinite_pack {f : UnpackedFloat} (hf : f.isFinite = true)
    (h : ∀ sign m e hm, f = .finite sign m e hm → e ≤ 971) :
    (Float.Model.pack f).isFinite = true := by
  apply (isFinite_assembled _ _ _).mpr
  cases f with
  | infinity => exact Bool.noConfusion hf
  | notANumber => exact Bool.noConfusion hf
  | zero sign =>
    show unpackExponent (packComponents Format.binary64 sign 0#11 0#52) ≠ _
    rw [unpackExponent_packComponents]
    decide
  | finite sign m e hm =>
    have he := h sign m e hm rfl
    show unpackExponent (UnpackedFloat.pack Format.binary64 (.finite sign m e hm)) ≠ _
    rw [pack_finite sign m e hm he]
    split
    · rw [unpackExponent_packComponents]
      exact ofNat_ne_neg_one (by omega)
    · rw [unpackExponent_packComponents]
      decide

/-- A mantissa of 53 bits and an exponent in range are stored as they are. -/
theorem unpack_pack {sign : Sign} {m : Nat} {e : Int} (hm : 0 < m) (hlow : 2 ^ 52 ≤ m)
    (hhigh : m < 2 ^ 53) (he : -1074 ≤ e) (he' : e ≤ 971) :
    (Float.Model.pack (.finite sign m e hm)).unpack = .finite sign m e hm := by
  have hlog : m.log2 = 52 := by
    rw [Nat.log2_eq_iff (by omega)]
    exact ⟨hlow, hhigh⟩
  show UnpackedFloat.unpack _ (UnpackedFloat.pack Format.binary64 (.finite sign m e hm)) = _
  rw [pack_finite sign m e hm he', if_pos hlog, unpack_eq, unpackSign_packComponents,
    unpackExponent_packComponents, unpackMantissa_packComponents]
  have hexponent : (BitVec.ofNat 11 (e + 1075).toNat).toNat = (e + 1075).toNat := by
    rw [BitVec.toNat_ofNat, Nat.mod_eq_of_lt (by omega)]
  have hmantissa : (1#1 ++ BitVec.ofNat 52 m).toNat = m := by
    rw [toNat_implicit_append, BitVec.toNat_ofNat]
    omega
  have hinf : BitVec.ofNat 11 (e + 1075).toNat ≠ -1#11 := ofNat_ne_neg_one (by omega)
  have hzero : BitVec.ofNat 11 (e + 1075).toNat ≠ 0#11 := by
    intro heq
    rw [heq] at hexponent
    simp only [BitVec.toNat_zero] at hexponent
    omega
  have hsign : Sign.ofBitVec sign.toBitVec = sign := by cases sign <;> rfl
  have hback : ((e + 1075).toNat : Int) - 1075 = e := by omega
  simp only [assembled, hinf, hzero, if_false, hexponent, hmantissa, hsign, hback]

/-! ## Products -/

/-- `x` is positive, has 53 bits, of which the first is no lower than that of `n`, and exceeds `n`
by no more than one part in `2 ^ 53`. -/
def Near (x : Float) (n : Nat) : Prop :=
  ∃ (a k : Nat) (h : 0 < a), x.toModel.unpack = .finite .positive a (k - 53) h ∧
    2 ^ 52 ≤ a ∧ a < 2 ^ 53 ∧ n < 2 ^ k ∧ a * 2 ^ k ≤ n * (2 ^ 53 + 1)

/-- The value of a mantissa of 53 bits, rounded. -/
theorem round_self {m : Nat} {e : Int} (hlow : 2 ^ 52 ≤ m) (hhigh : m < 2 ^ 53) (he : -1074 ≤ e) :
    roundWithAccuracy Format.binary64 .positive m e .exact =
      .finite .positive m e (Nat.lt_of_lt_of_le (Nat.two_pow_pos 52) hlow) := by
  have hlog : m.log2 = 52 := by
    rw [Nat.log2_eq_iff (by omega)]
    exact ⟨hlow, hhigh⟩
  have hplaces : places m e = 0 := by
    unfold places
    omega
  have hrounded : rounded m e .exact = m := by
    rw [rounded, hplaces]
    rfl
  have hpos : m ≠ 0 := by omega
  rw [round_eq, hplaces, hrounded, carried, dif_neg hpos, if_pos hhigh]
  simp only [Int.natCast_zero, Int.add_zero]

/-- A natural number that binary64 holds exactly. -/
theorem toFloat_unpack {u : UInt64} {n : Nat} (hu : u.toNat = n) (hpos : 0 < n)
    (h : n < 2 ^ 53) :
    ∃ hm, u.toFloat.toModel.unpack =
      .finite .positive (n * 2 ^ (52 - n.log2)) (-(52 - n.log2 : Nat)) hm := by
  have hlog : n.log2 ≤ 52 := Nat.le_of_lt_succ ((Nat.log2_lt (by omega)).mpr h)
  have hlow : 2 ^ 52 ≤ n * 2 ^ (52 - n.log2) := by
    calc 2 ^ 52 = 2 ^ n.log2 * 2 ^ (52 - n.log2) := by
          rw [← Nat.pow_add, Nat.add_sub_cancel' hlog]
      _ ≤ _ := Nat.mul_le_mul_right _ (Nat.log2_self_le (by omega))
  have hhigh : n * 2 ^ (52 - n.log2) < 2 ^ 53 := by
    calc n * 2 ^ (52 - n.log2)
        < 2 ^ (n.log2 + 1) * 2 ^ (52 - n.log2) :=
          Nat.mul_lt_mul_of_pos_right Nat.lt_log2_self (Nat.two_pow_pos _)
      _ = 2 ^ 53 := by
        rw [← Nat.pow_add]
        congr 1
        omega
  have hm : 0 < n * 2 ^ (52 - n.log2) := by omega
  refine ⟨hm, ?_⟩
  have hround : UnpackedFloat.ofUInt64 Format.binary64 u =
      .finite .positive (n * 2 ^ (52 - n.log2)) (-(52 - n.log2 : Nat)) hm := by
    have hpositive : compare (n : Int) 0 = .gt := Int.compare_eq_gt.mpr (by omega)
    have hshift : (-max ((n.log2 : Int) + 0 - 52) (-1074)).toNat = 52 - n.log2 := by
      omega
    rw [← round_self hlow hhigh (by omega), UnpackedFloat.ofUInt64, hu, UnpackedFloat.ofNat,
      UnpackedFloat.ofInt, UnpackedFloat.normalize, hpositive]
    simp only [UnpackedFloat.round, Int.toNat_natCast, targetExponent_eq, decreaseExponent,
      Int.zero_sub, hshift, Nat.shiftLeft_eq]
  show (Float.Model.pack (UnpackedFloat.ofUInt64 Format.binary64 u)).unpack = _
  rw [hround]
  exact unpack_pack hm hlow hhigh (by omega) (by omega)

/-- A natural number that does not exceed the greatest value, with `52 + j` zeros after it,
rounded. -/
theorem near_round {x : Float} {n j : Nat} (hpos : 0 < n) (h : n * (2 ^ 53 + 1) < 2 ^ 1077)
    (hx : x.toModel = Float.Model.pack
      (roundWithAccuracy Format.binary64 .positive (n * 2 ^ (52 + j)) (-52 - j) .exact)) :
    Near x n := by
  have hwide : 2 ^ (52 + j) ≤ n * 2 ^ (52 + j) := Nat.le_mul_of_pos_left _ hpos
  have hlog : 52 + j ≤ (n * 2 ^ (52 + j)).log2 :=
    (Nat.le_log2 (Nat.mul_ne_zero (by omega) (Nat.two_pow_pos _).ne')).mpr hwide
  obtain ⟨a, p, ha, hlow, hhigh, hle, hp, hround⟩ :=
    round_exact (m := n * 2 ^ (52 + j)) (e := -52 - j) .positive
      (Nat.le_trans (Nat.pow_le_pow_right (by decide) (Nat.le_add_right 52 j)) hwide) (by omega)
  obtain ⟨k, hk⟩ : ∃ k, p + 1 = k + j := ⟨p + 1 - j, by omega⟩
  have hbound : a * 2 ^ k ≤ n * (2 ^ 53 + 1) := by
    refine Nat.le_of_mul_le_mul_right (c := 2 ^ j * 2 ^ 53) ?_ (by positivity)
    calc a * 2 ^ k * (2 ^ j * 2 ^ 53) = a * 2 ^ (k + j) * 2 ^ 53 := by ring
      _ = a * 2 ^ p * 2 ^ 53 * 2 := by
        rw [← hk]
        ring
      _ ≤ n * 2 ^ (52 + j) * (2 ^ 53 + 1) * 2 := Nat.mul_le_mul_right _ hle
      _ = n * (2 ^ 53 + 1) * (2 ^ j * 2 ^ 53) := by ring
  have hsmall : k < 1025 := by
    have hpow : 2 ^ (52 + k) < 2 ^ 1077 := by
      calc 2 ^ (52 + k) = 2 ^ 52 * 2 ^ k := Nat.pow_add ..
        _ ≤ a * 2 ^ k := Nat.mul_le_mul_right _ hlow
        _ ≤ n * (2 ^ 53 + 1) := hbound
        _ < 2 ^ 1077 := h
    have := (Nat.pow_lt_pow_iff_right (by decide : 1 < 2)).mp hpow
    omega
  have hexponent : (-52 - (j : Int) + p) = k - 53 := by omega
  rw [hexponent] at hround
  have hfirst : n < 2 ^ k := by
    refine Nat.lt_of_mul_lt_mul_right (a := 2 ^ (52 + j)) ?_
    calc n * 2 ^ (52 + j) < 2 ^ ((n * 2 ^ (52 + j)).log2 + 1) := Nat.lt_log2_self
      _ ≤ 2 ^ (k + (52 + j)) := Nat.pow_le_pow_right (by decide) (by omega)
      _ = 2 ^ k * 2 ^ (52 + j) := Nat.pow_add ..
  refine ⟨a, k, ha, ?_, hlow, hhigh, hfirst, hbound⟩
  rw [hx, hround]
  exact unpack_pack ha hlow hhigh (by omega) (by omega)

theorem one_unpack : (Float.ofBits 0x3FF0000000000000).toModel.unpack =
    .finite .positive (2 ^ 52) (-52) (Nat.two_pow_pos 52) := rfl

/-- A decimal without fraction that is computed by one rounding. -/
theorem near_ofScientific {n e : Nat} (hpos : 0 < n) (h : n * 10 ^ e * (2 ^ 53 + 1) < 2 ^ 1077)
    (he : e ≤ 2 ^ 11) : Near (.ofModel (Float.Model.ofScientific n e)) (n * 10 ^ e) := by
  apply near_round (j := 1) (Nat.mul_pos hpos (Nat.pow_pos (by decide))) h
  have hmost : ¬ (e : Int) > 2 ^ Format.binary64.exponentBits := by
    show ¬ (e : Int) > 2 ^ 11
    omega
  have hleast : ¬ (e : Int) < -((2 ^ Format.binary64.exponentBits : Int) + n.log2) := by
    show ¬ (e : Int) < -((2 ^ 11 : Int) + n.log2)
    omega
  have hmantissa : n <<< Format.binary64.mantissaBits * 10 ^ (e : Int).toNat =
      n * 10 ^ e * 2 ^ (52 + 1) := by
    rw [Nat.shiftLeft_eq, Int.toNat_natCast]
    show n * 2 ^ 53 * 10 ^ e = _
    ring
  rw [← hmantissa]
  show Float.Model.pack (UnpackedFloat.ofScientific Format.binary64 n e) = _
  rw [UnpackedFloat.ofScientific, dif_neg (Nat.pos_iff_ne_zero.mp hpos), if_neg hmost,
    if_neg hleast, if_pos (Int.natCast_nonneg e)]
  rfl

/-- A natural number below `2 ^ 64`, rounded to binary64. -/
theorem near_ofNat {n : Nat} (hpos : 0 < n) (h : n < 2 ^ 64) : Near (Float.ofNat n) n := by
  have hnarrow : n * (2 ^ 53 + 1) < 2 ^ 118 := by omega
  have hbound : n * (2 ^ 53 + 1) < 2 ^ 1077 :=
    Nat.lt_trans hnarrow (by decide +kernel)
  by_cases hsmall : n < 2 ^ 53
  · have hn : n.toUInt64.toNat = n := by
      show n % 2 ^ 64 = n
      omega
    obtain ⟨hm, hunpack⟩ := toFloat_unpack hn hpos hsmall
    apply near_round (j := 52 - n.log2) hpos hbound
    have hfast : Float.ofNat n = n.toUInt64.toFloat * Float.ofBits 0x3FF0000000000000 := by
      show Float.ofScientific n false 0 = _
      rw [Float.ofScientific, dif_pos ⟨hsmall, Nat.zero_le _⟩]
      rfl
    rw [hfast]
    have hmantissa : n * 2 ^ (52 - n.log2) * 2 ^ 52 = n * 2 ^ (52 + (52 - n.log2)) := by ring
    have hexponent : -((52 - n.log2 : Nat) : Int) + -52 = -52 - (52 - n.log2 : Nat) := by omega
    rw [← hmantissa, ← hexponent]
    show Float.Model.pack (UnpackedFloat.mul Format.binary64 n.toUInt64.toFloat.toModel.unpack
      (Float.ofBits 0x3FF0000000000000).toModel.unpack) = _
    rw [one_unpack, hunpack]
    rfl
  · have hslow : Float.ofNat n = .ofModel (Float.Model.ofScientific n (0 : Nat)) := by
      show Float.ofScientific n false 0 = _
      rw [Float.ofScientific, dif_neg fun hfast => hsmall hfast.1]
      rfl
    have hnear := near_ofScientific (e := 0) hpos (by rwa [Nat.pow_zero, Nat.mul_one])
      (Nat.zero_le _)
    rwa [← hslow, Nat.pow_zero, Nat.mul_one] at hnear

/-- Whether `x` is near `n`, to be evaluated. -/
def isNear (x : Float) (n : Nat) : Bool :=
  match x.toModel.unpack with
  | .finite .positive a e _ =>
    2 ^ 52 ≤ a && a < 2 ^ 53 && -53 ≤ e && n < 2 ^ (e + 53).toNat &&
      a * 2 ^ (e + 53).toNat ≤ n * (2 ^ 53 + 1)
  | _ => false

theorem near_of_isNear {x : Float} {n : Nat} (h : isNear x n = true) : Near x n := by
  unfold isNear at h
  split at h
  next a e ha hunpack =>
    simp only [Bool.and_eq_true, decide_eq_true_eq] at h
    obtain ⟨⟨⟨⟨hlow, hhigh⟩, he⟩, hlt⟩, hle⟩ := h
    have hback : e = (e + 53).toNat - 53 := by omega
    exact ⟨a, (e + 53).toNat, ha, hback ▸ hunpack, hlow, hhigh, hlt, hle⟩
  · exact Bool.noConfusion h

/-- The product of values near `n` and `m` is finite where `n * m` is below the greatest value, by
a part in `2 ^ 53` for each of the three roundings. -/
theorem isFinite_mul {x y : Float} {n m : Nat} (hx : Near x n) (hy : Near y m)
    (h : n * m * (2 ^ 53 + 1) ^ 3 < 2 ^ 1183) : (x * y).isFinite = true := by
  obtain ⟨a, k, ha, hxu, halow, hahigh, -, hax⟩ := hx
  obtain ⟨b, l, hb, hyu, hblow, hbhigh, -, hby⟩ := hy
  have hproduct : 2 ^ 104 ≤ a * b := by
    calc 2 ^ 104 = 2 ^ 52 * 2 ^ 52 := by norm_num
      _ ≤ a * b := Nat.mul_le_mul halow hblow
  have hlog : 104 ≤ (a * b).log2 := (Nat.le_log2 (by omega)).mpr hproduct
  obtain ⟨c, p, hc, hclow, -, hcle, -, hround⟩ :=
    round_exact (m := a * b) (e := ((k : Int) - 53) + (l - 53)) .positive (by omega) (by omega)
  have hvalue : (x * y).toModel = Float.Model.pack
      (.finite .positive c (((k : Int) - 53) + (l - 53) + p) hc) := by
    show Float.Model.pack (UnpackedFloat.mul Format.binary64 x.toModel.unpack y.toModel.unpack) = _
    rw [hxu, hyu, ← hround]
    rfl
  have hbound : c * 2 ^ p * 2 ^ k * 2 ^ l * 2 ^ 53 < 2 ^ 1183 := by
    calc c * 2 ^ p * 2 ^ k * 2 ^ l * 2 ^ 53
        = c * 2 ^ p * 2 ^ 53 * (2 ^ k * 2 ^ l) := by ring
      _ ≤ a * b * (2 ^ 53 + 1) * (2 ^ k * 2 ^ l) := Nat.mul_le_mul_right _ hcle
      _ = (a * 2 ^ k) * (b * 2 ^ l) * (2 ^ 53 + 1) := by ring
      _ ≤ (n * (2 ^ 53 + 1)) * (m * (2 ^ 53 + 1)) * (2 ^ 53 + 1) :=
        Nat.mul_le_mul_right _ (Nat.mul_le_mul hax hby)
      _ = n * m * (2 ^ 53 + 1) ^ 3 := by ring
      _ < 2 ^ 1183 := h
  have hexponent : p + k + l < 1078 := by
    have hpow : 2 ^ (52 + (p + k + l) + 53) < 2 ^ 1183 := by
      refine Nat.lt_of_le_of_lt ?_ hbound
      calc 2 ^ (52 + (p + k + l) + 53) = 2 ^ 52 * (2 ^ p * 2 ^ k * 2 ^ l) * 2 ^ 53 := by
            rw [Nat.pow_add, Nat.pow_add, Nat.pow_add _ (p + k), Nat.pow_add _ p]
        _ ≤ c * (2 ^ p * 2 ^ k * 2 ^ l) * 2 ^ 53 :=
            Nat.mul_le_mul_right _ (Nat.mul_le_mul_right _ hclow)
        _ = c * 2 ^ p * 2 ^ k * 2 ^ l * 2 ^ 53 := by ring
    have := (Nat.pow_lt_pow_iff_right (by decide : 1 < 2)).mp hpow
    omega
  show (x * y).toModel.isFinite = true
  rw [hvalue]
  apply isFinite_pack rfl
  intro sign m' e hm' heq
  injection heq
  omega

/-! ## Quotients -/

theorem isFinite_round (sign : Sign) {m : Nat} {e : Int} (accuracy : Accuracy)
    (hm : m.log2 + e ≤ 1022) (he : e ≤ 970) :
    (Float.Model.pack (roundWithAccuracy Format.binary64 sign m e accuracy)).isFinite = true := by
  have hexponent : e + places m e ≤ 970 := by
    unfold places
    omega
  rw [round_eq, carried]
  split
  · exact isFinite_pack rfl fun _ _ _ _ heq => by cases heq
  · split <;>
    · refine isFinite_pack rfl fun sign' m' e' hm' heq => ?_
      injection heq
      omega

/-- A quotient by 53 bits or more is that much shorter. -/
theorem log2_div_le {m b s : Nat} (hb : 2 ^ 52 ≤ b) (hq : 0 < m * 2 ^ s / b) :
    (m * 2 ^ s / b).log2 + 52 ≤ m.log2 + s := by
  have hpow : 2 ^ ((m * 2 ^ s / b).log2 + 52) < 2 ^ (m.log2 + 1 + s) := by
    calc 2 ^ ((m * 2 ^ s / b).log2 + 52) = 2 ^ (m * 2 ^ s / b).log2 * 2 ^ 52 := Nat.pow_add ..
      _ ≤ m * 2 ^ s / b * b := Nat.mul_le_mul (Nat.log2_self_le (by omega)) hb
      _ ≤ m * 2 ^ s := Nat.div_mul_le_self ..
      _ < 2 ^ (m.log2 + 1) * 2 ^ s :=
        Nat.mul_lt_mul_of_pos_right Nat.lt_log2_self (Nat.two_pow_pos _)
      _ = 2 ^ (m.log2 + 1 + s) := (Nat.pow_add ..).symm
  have := (Nat.pow_lt_pow_iff_right (by decide : 1 < 2)).mp hpow
  omega

/-- Dividing by a value near `2` or more does not lead out of the finite values. -/
theorem isFinite_div {x y : Float} {n : Nat} (hx : x.isFinite = true) (hy : Near y n)
    (hn : 2 ≤ n) : (x / y).isFinite = true := by
  obtain ⟨b, l, hb, hyu, hblow, hbhigh, hlt, -⟩ := hy
  have hl : 2 ≤ l := by
    by_contra hless
    have : 2 ^ l ≤ 2 ^ 1 := Nat.pow_le_pow_right (by decide) (by omega)
    omega
  have hlogb : b.log2 = 52 := by
    rw [Nat.log2_eq_iff (by omega)]
    exact ⟨hblow, hbhigh⟩
  obtain ⟨sign, hzero | ⟨m, e, hm, hxu, hmhigh, -, he⟩⟩ := unpack_of_isFinite hx
  · show (Float.Model.pack
      (UnpackedFloat.div Format.binary64 x.toModel.unpack y.toModel.unpack)).isFinite = true
    rw [hzero, hyu]
    exact isFinite_pack rfl nofun
  · have hlogm : m.log2 < 53 := (Nat.log2_lt (by omega)).mpr hmhigh
    show (Float.Model.pack
      (UnpackedFloat.div Format.binary64 x.toModel.unpack y.toModel.unpack)).isFinite = true
    rw [hxu, hyu]
    simp only [UnpackedFloat.div, divCore, targetExponent_binary64, totalExponent, hlogb,
      Nat.shiftLeft_eq]
    generalize ht : min (e - ((l : Int) - 53)) _ = t
    generalize hs : (e - ((l : Int) - 53) - t).toNat = s
    have ht' : t ≤ 970 := by omega
    refine isFinite_round _ _ ?_ ht'
    rcases Nat.eq_zero_or_pos (m * 2 ^ s / b) with hnone | hsome
    · rw [hnone]
      have : (0 : Nat).log2 = 0 := rfl
      omega
    · have := log2_div_le hblow hsome
      omega

theorem isFinite_neg {x : Float} (hx : x.isFinite = true) : (-x).isFinite = true := by
  obtain ⟨sign, hzero | ⟨m, e, hm, hxu, -, -, he⟩⟩ := unpack_of_isFinite hx
  · show (Float.Model.pack x.toModel.unpack.neg).isFinite = true
    rw [hzero]
    exact isFinite_pack rfl nofun
  · show (Float.Model.pack x.toModel.unpack.neg).isFinite = true
    rw [hxu]
    refine isFinite_pack rfl fun sign' m' e' hm' heq => ?_
    injection heq
    omega

/-! ## Powers of ten -/

theorem isNear_tenTo : ∀ n < 23, isNear (Json.tenTo n) (10 ^ n) = true := by decide +kernel

theorem near_tenTo {n : Nat} (h : n ≤ 308) : Near (Json.tenTo n) (10 ^ n) := by
  by_cases hsmall : n < 23
  · exact near_of_isNear (isNear_tenTo n hsmall)
  · have hslow : Json.tenTo n = .ofModel (Float.Model.ofScientific 1 n) := by
      rw [Json.tenTo, Float.ofScientific, dif_neg fun hfast => hsmall (Nat.lt_succ_of_le hfast.2)]
      rfl
    have hbound : 1 * 10 ^ n * (2 ^ 53 + 1) < 2 ^ 1077 := by
      calc 1 * 10 ^ n * (2 ^ 53 + 1) = 10 ^ n * (2 ^ 53 + 1) := by rw [Nat.one_mul]
        _ ≤ 10 ^ 308 * (2 ^ 53 + 1) :=
          Nat.mul_le_mul_right _ (Nat.pow_le_pow_right (by decide) h)
        _ < 2 ^ 1077 := by decide +kernel
    have hnear := near_ofScientific (n := 1) Nat.one_pos hbound (by omega)
    rwa [← hslow, Nat.one_mul] at hnear

theorem isFinite_of_near {x : Float} {n : Nat} (h : Near x n) : x.isFinite = true := by
  obtain ⟨a, k, ha, hunpack, -⟩ := h
  show x.toModel.unpack.isFinite = true
  rw [hunpack]
  rfl

theorem isFinite_ofNat {n : Nat} (h : n < 2 ^ 64) : (Float.ofNat n).isFinite = true := by
  rcases Nat.eq_zero_or_pos n with rfl | hpos
  · decide +kernel
  · exact isFinite_of_near (near_ofNat hpos h)

end DeliveryRules.Binary64
