import BraceLang.Decimal.Shortest
import Mathlib

/-!
# Rounding to the nearest binary number

A result is rounded from its first bits and from what is known of the others: whether they are less
than half of the last place, equal to it or more, or all zero. The bits are moved to the exponent
that the magnitude of the result asks for, and rounded there. If that carries into another place,
the bits are moved once more.

A result in the interval of a number is rounded to that number. Below a power of two the interval
reaches into the numbers of half the exponent; there the result is rounded up to the power of two.

* `Binary.Canonical`, `Binary.Contains`: the numbers of the format and their intervals.
* `Describes`: what bits say of a number.
* `roundWithAccuracy_eq`: rounding to the number whose interval the result is in.
-/

namespace BraceLang.Decimal

open Float.Model Float.Model.UnpackedFloat

/-! ## Numbers of the format -/

/-- The positive numbers of the format, with the exponent that the format gives them. -/
structure Binary.Canonical (b : Binary) : Prop where
  mantissa_pos : 0 < b.mantissa
  mantissa_lt : b.mantissa < 2 ^ 53
  exponent_le : b.exponent ≤ 971
  full : b.exponent = -1074 ∨ -1074 < b.exponent ∧ 2 ^ 52 ≤ b.mantissa

/-- The interval of the numbers that are rounded to `b`. -/
def Binary.Contains (b : Binary) (t : ℚ) : Prop :=
  if b.mantissa % 2 = 0 then
    b.lowest * (2 : ℚ) ^ (b.exponent - 2) ≤ t ∧ t ≤ b.highest * (2 : ℚ) ^ (b.exponent - 2)
  else b.lowest * (2 : ℚ) ^ (b.exponent - 2) < t ∧ t < b.highest * (2 : ℚ) ^ (b.exponent - 2)

namespace Binary

variable {b : Binary} {t : ℚ}

theorem Contains.bounds (h : b.Contains t) :
    b.lowest * (2 : ℚ) ^ (b.exponent - 2) ≤ t ∧ t ≤ b.highest * (2 : ℚ) ^ (b.exponent - 2) := by
  unfold Contains at h
  split at h
  · exact h
  · exact ⟨h.1.le, h.2.le⟩

/-- A quarter of the last place. -/
theorem four_mul_quarter (b : Binary) :
    (2 : ℚ) ^ b.exponent = 4 * (2 : ℚ) ^ (b.exponent - 2) := by
  rw [zpow_sub₀ two_ne_zero]
  norm_num
  ring

theorem sub_two_le_lowest (b : Binary) :
    (4 * b.mantissa - 2 : ℚ) ≤ b.lowest := by
  have hnat : 4 * b.mantissa ≤ b.lowest + 2 := by
    unfold lowest
    split <;> omega
  have hcast : (4 * b.mantissa : ℚ) ≤ b.lowest + 2 := by exact_mod_cast hnat
  linarith

theorem sub_one_le_lowest (hm : b.mantissa = 2 ^ 52) (he : -1074 < b.exponent) :
    (4 * b.mantissa - 1 : ℚ) ≤ b.lowest := by
  have hlow : b.lowest = 4 * b.mantissa - 1 := by
    unfold lowest
    rw [if_pos]
    exact ⟨hm, he⟩
  have hnat : 4 * b.mantissa ≤ b.lowest + 1 := by omega
  have hcast : (4 * b.mantissa : ℚ) ≤ b.lowest + 1 := by exact_mod_cast hnat
  linarith

theorem cast_highest (b : Binary) : (b.highest : ℚ) = 4 * b.mantissa + 2 := by
  simp [highest]

end Binary

/-! ## Bits and what they say -/

/-- The number is the mantissa and a fraction, of which the two other bits tell how it compares
with zero and with a half. -/
def Describes : ExtendedMantissa → ℚ → Prop
  | ⟨m, false, false⟩, y => y = m
  | ⟨m, false, true⟩, y => m < y ∧ y < m + 1 / 2
  | ⟨m, true, false⟩, y => y = m + 1 / 2
  | ⟨m, true, true⟩, y => m + 1 / 2 < y ∧ y < m + 1

/-- The number is nearer to `r` than to any other one, or half way to one and `r` is even. -/
def IsNearest (r : ℕ) (y : ℚ) : Prop :=
  (r - 1 / 2 < y ∧ y < r + 1 / 2) ∨ (r % 2 = 0 ∧ r - 1 / 2 ≤ y ∧ y ≤ r + 1 / 2)

variable {em : ExtendedMantissa} {y t : ℚ} {r : ℕ}

theorem Describes.bounds (h : Describes em y) : (em.mantissa : ℚ) ≤ y ∧ y < em.mantissa + 1 := by
  obtain ⟨m, round, sticky⟩ := em
  cases round <;> cases sticky <;> simp only [Describes] at h
  · constructor <;> linarith
  · constructor <;> linarith [h.1, h.2]
  · constructor <;> linarith
  · constructor <;> linarith [h.1, h.2]

theorem Describes.shiftRightOne (h : Describes em y) : Describes em.shiftRightOne (y / 2) := by
  obtain ⟨m, round, sticky⟩ := em
  obtain ⟨q, rfl | rfl⟩ := Nat.even_or_odd' m
  · have hdiv : 2 * q / 2 = q := by omega
    have hmod : 2 * q % 2 = 0 := by omega
    cases round <;> cases sticky <;>
      simp only [Describes, ExtendedMantissa.shiftRightOne, hdiv, hmod, bne_self_eq_false,
        Bool.or_false, Bool.or_true] at h ⊢ <;> push_cast at h
    · linarith
    · constructor <;> linarith [h.1, h.2]
    · constructor <;> linarith
    · constructor <;> linarith [h.1, h.2]
  · have hdiv : (2 * q + 1) / 2 = q := by omega
    have hmod : ((2 * q + 1) % 2 != 0) = true := by
      have : (2 * q + 1) % 2 = 1 := by omega
      rw [this]
      rfl
    cases round <;> cases sticky <;>
      simp only [Describes, ExtendedMantissa.shiftRightOne, hdiv, hmod,
        Bool.or_false, Bool.or_true] at h ⊢ <;> push_cast at h
    · linarith
    · constructor <;> linarith [h.1, h.2]
    · constructor <;> linarith
    · constructor <;> linarith [h.1, h.2]

theorem Describes.shiftRight (h : Describes em y) (k : ℕ) :
    Describes (em >>> k) (y / 2 ^ k) := by
  induction k with
  | zero =>
    rw [pow_zero, div_one]
    exact h
  | succ k ih =>
    have hstep : em >>> (k + 1) = (em >>> k).shiftRightOne := rfl
    rw [hstep, pow_succ, ← div_div]
    exact ih.shiftRightOne

/-- Rounding by the bits gives the nearest number. -/
theorem Describes.roundedMantissa_eq (h : Describes em y) (hr : IsNearest r y) :
    em.roundedMantissa = r := by
  have hnear : (r - 1 / 2 : ℚ) ≤ y ∧ y ≤ r + 1 / 2 := by
    rcases hr with hr | hr
    · exact ⟨hr.1.le, hr.2.le⟩
    · exact hr.2
  obtain ⟨m, round, sticky⟩ := em
  cases round <;> cases sticky <;> simp only [Describes] at h <;>
    simp only [ExtendedMantissa.roundedMantissa, ExtendedMantissa.accuracy,
      Accuracy.roundToNearestEven]
  · have hle : (m : ℚ) < r + 1 := by linarith
    have hge : (r : ℚ) < m + 1 := by linarith
    have hle' : m < r + 1 := by exact_mod_cast hle
    have hge' : r < m + 1 := by exact_mod_cast hge
    omega
  · have hle : (m : ℚ) < r + 1 := by linarith
    have hge : (r : ℚ) < m + 1 := by linarith
    have hle' : m < r + 1 := by exact_mod_cast hle
    have hge' : r < m + 1 := by exact_mod_cast hge
    omega
  · -- Half way between two numbers the even one is the nearest.
    have hle : (m : ℚ) ≤ r := by linarith
    have hge : (r : ℚ) ≤ m + 1 := by linarith
    have hle' : m ≤ r := by exact_mod_cast hle
    have hge' : r ≤ m + 1 := by exact_mod_cast hge
    have heven : r % 2 = 0 := by
      rcases hr with hr | hr
      · exfalso
        have hlt : (m : ℚ) < r := by linarith [hr.2]
        have hgt : (r : ℚ) < m + 1 := by linarith [hr.1]
        have hlt' : m < r := by exact_mod_cast hlt
        have hgt' : r < m + 1 := by exact_mod_cast hgt
        omega
      · exact hr.1
    omega
  · have hle : (m : ℚ) < r := by linarith
    have hge : (r : ℚ) < m + 2 := by linarith
    have hle' : m < r := by exact_mod_cast hle
    have hge' : r < m + 2 := by exact_mod_cast hge
    omega

/-! ## The exponent of a result -/

theorem targetExponent_eq (total : ℤ) :
    Format.binary64.targetExponent total = max (total - 53) (-1074) := rfl

/-- The bits of a number other than zero say between which powers of two it is. -/
theorem Describes.magnitude {mantissa : ℕ} {accuracy : Accuracy} {exponent : ℤ}
    (h : Describes (.ofMantissaAndAccuracy mantissa accuracy) (t / (2 : ℚ) ^ exponent)) :
    t < (2 : ℚ) ^ totalExponent mantissa exponent ∧
      (mantissa ≠ 0 → (2 : ℚ) ^ (totalExponent mantissa exponent - 1) ≤ t) := by
  have hpos : (0 : ℚ) < 2 ^ exponent := by positivity
  have hmantissa : (ExtendedMantissa.ofMantissaAndAccuracy mantissa accuracy).mantissa =
      mantissa := by
    cases accuracy with
    | exact => rfl
    | inexact order => cases order <;> rfl
  obtain ⟨hlow, hhigh⟩ := h.bounds
  rw [hmantissa] at hlow hhigh
  rw [le_div_iff₀ hpos] at hlow
  rw [div_lt_iff₀ hpos] at hhigh
  have htotal : (2 : ℚ) ^ totalExponent mantissa exponent =
      2 ^ (mantissa.log2 + 1) * 2 ^ exponent := by
    rw [totalExponent, zpow_add₀ two_ne_zero]
    norm_cast
  have htotal' : (2 : ℚ) ^ (totalExponent mantissa exponent - 1) =
      2 ^ mantissa.log2 * 2 ^ exponent := by
    rw [totalExponent, show (mantissa.log2 + 1 + exponent - 1 : ℤ) = mantissa.log2 + exponent by
      ring, zpow_add₀ two_ne_zero]
    norm_cast
  constructor
  · have hlog : (mantissa + 1 : ℚ) ≤ 2 ^ (mantissa.log2 + 1) := by
      exact_mod_cast Nat.lt_log2_self (n := mantissa)
    rw [htotal]
    exact hhigh.trans_le (mul_le_mul_of_nonneg_right hlog hpos.le)
  · intro hne
    have hlog : (2 ^ mantissa.log2 : ℚ) ≤ mantissa := by
      exact_mod_cast Nat.log2_self_le hne
    rw [htotal']
    exact (mul_le_mul_of_nonneg_right hlog hpos.le).trans hlow

theorem Binary.Contains.lt_power {b : Binary} (hb : b.Canonical) (ht : b.Contains t) :
    t < (2 : ℚ) ^ (53 + b.exponent) := by
  have hquarter : (0 : ℚ) < 2 ^ (b.exponent - 2) := by positivity
  have hmantissa : (b.mantissa + 1 : ℚ) ≤ 2 ^ 53 := by exact_mod_cast hb.mantissa_lt
  have hhighest : (b.highest : ℚ) < 4 * 2 ^ 53 := by
    rw [b.cast_highest]
    linarith
  calc t ≤ b.highest * 2 ^ (b.exponent - 2) := ht.bounds.2
    _ < 4 * 2 ^ 53 * 2 ^ (b.exponent - 2) := mul_lt_mul_of_pos_right hhighest hquarter
    _ = 2 ^ (53 + b.exponent) := by
      rw [zpow_add₀ two_ne_zero, b.four_mul_quarter]
      norm_num
      ring

/-- A number whose mantissa has a bit more than `k` is not below the power of two of these bits. -/
theorem Binary.Contains.power_le {b : Binary} (ht : b.Contains t) {k : ℕ}
    (hk : 2 ^ k < b.mantissa) : (2 : ℚ) ^ (k + b.exponent) ≤ t := by
  have hquarter : (0 : ℚ) < 2 ^ (b.exponent - 2) := by positivity
  have hmantissa : (2 ^ k + 1 : ℚ) ≤ b.mantissa := by exact_mod_cast hk
  have hlowest : (4 * 2 ^ k : ℚ) ≤ b.lowest := by linarith [b.sub_two_le_lowest]
  calc (2 : ℚ) ^ (k + b.exponent) = 4 * 2 ^ k * 2 ^ (b.exponent - 2) := by
        rw [zpow_add₀ two_ne_zero, zpow_natCast, b.four_mul_quarter]
        ring
    _ ≤ b.lowest * 2 ^ (b.exponent - 2) := mul_le_mul_of_nonneg_right hlowest hquarter.le
    _ ≤ t := ht.bounds.1

/-- A result in the interval of `b` has the exponent of `b`, unless it is below a power of two that
is the least number with its exponent. -/
theorem targetExponent_of_contains {b : Binary} (hb : b.Canonical) (ht : b.Contains t) {total : ℤ}
    (hhigh : t < (2 : ℚ) ^ total) (hlow : (2 : ℚ) ^ (total - 1) ≤ t ∨ total ≤ -1021) :
    max (total - 53) (-1074) = b.exponent ∨
      max (total - 53) (-1074) = b.exponent - 1 ∧ -1074 < b.exponent ∧ b.mantissa = 2 ^ 52 ∧
        t < (2 : ℚ) ^ (52 + b.exponent) := by
  have hle : (2 : ℚ) ^ (total - 1) ≤ t → total ≤ 53 + b.exponent := by
    intro h
    have := (zpow_lt_zpow_iff_right₀ one_lt_two).mp (h.trans_lt (ht.lt_power hb))
    omega
  rcases hb.full with hleast | ⟨hleast, hfull⟩
  · left
    rcases hlow with hlow | hlow
    · have := hle hlow
      omega
    · omega
  · have htotal : total ≤ 53 + b.exponent := by
      rcases hlow with hlow | hlow
      · exact hle hlow
      · omega
    have hge : 51 + b.exponent < total := by
      have hpower : (2 : ℚ) ^ ((51 : ℕ) + b.exponent) ≤ t := ht.power_le (by omega)
      exact (zpow_lt_zpow_iff_right₀ one_lt_two).mp (hpower.trans_lt hhigh)
    rcases eq_or_lt_of_le (show 52 + b.exponent ≤ total by omega) with heq | hlt
    · right
      rw [← heq] at hhigh
      refine ⟨by omega, hleast, ?_, hhigh⟩
      by_contra hne
      have hpower : (2 : ℚ) ^ ((52 : ℕ) + b.exponent) ≤ t := ht.power_le (by omega)
      exact absurd hhigh (not_lt.mpr hpower)
    · left
      omega

/-! ## Rounding -/

/-- In units of its last place, a result in the interval of `b` is nearest to the mantissa. -/
theorem Binary.Contains.isNearest {b : Binary} (ht : b.Contains t) :
    IsNearest b.mantissa (t / (2 : ℚ) ^ b.exponent) := by
  have hpos : (0 : ℚ) < 2 ^ b.exponent := by positivity
  have hquarter : (0 : ℚ) < 2 ^ (b.exponent - 2) := by positivity
  have hlow := b.sub_two_le_lowest
  have hhigh := b.cast_highest
  have hleft : (b.mantissa - 1 / 2 : ℚ) * 2 ^ b.exponent ≤ b.lowest * 2 ^ (b.exponent - 2) := by
    rw [b.four_mul_quarter, ← mul_assoc]
    exact mul_le_mul_of_nonneg_right (by linarith) hquarter.le
  have hright : b.highest * (2 : ℚ) ^ (b.exponent - 2) = (b.mantissa + 1 / 2) * 2 ^ b.exponent := by
    rw [b.four_mul_quarter, hhigh]
    ring
  unfold Contains at ht
  unfold IsNearest
  rw [le_div_iff₀ hpos, div_le_iff₀ hpos, lt_div_iff₀ hpos, div_lt_iff₀ hpos]
  split at ht
  · rename_i heven
    exact .inr ⟨heven, hleft.trans ht.1, ht.2.trans hright.le⟩
  · exact .inl ⟨hleft.trans_lt ht.1, ht.2.trans_le hright.le⟩

/-- Below a power of two, a result in its interval is rounded up to it with half the exponent. -/
theorem Binary.Contains.isNearest_half {b : Binary} (ht : b.Contains t)
    (hleast : -1074 < b.exponent) (hm : b.mantissa = 2 ^ 52)
    (hbelow : t < (2 : ℚ) ^ (52 + b.exponent)) :
    IsNearest (2 ^ 53) (t / (2 : ℚ) ^ (b.exponent - 1)) := by
  have hpos : (0 : ℚ) < 2 ^ (b.exponent - 1) := by positivity
  have hquarter : (0 : ℚ) < 2 ^ (b.exponent - 2) := by positivity
  have hhalf : (2 : ℚ) ^ (b.exponent - 1) = 2 * 2 ^ (b.exponent - 2) := by
    rw [zpow_sub₀ two_ne_zero, zpow_sub₀ two_ne_zero]
    norm_num
    ring
  have hpower : (2 : ℚ) ^ (52 + b.exponent) = 2 ^ 53 * 2 ^ (b.exponent - 1) := by
    rw [zpow_add₀ two_ne_zero, b.four_mul_quarter, hhalf]
    norm_num
    ring
  have hmantissa : (b.mantissa : ℚ) = 2 ^ 52 := by exact_mod_cast hm
  have hlow : (2 ^ 54 - 1 : ℚ) ≤ b.lowest := by
    have := Binary.sub_one_le_lowest hm hleast
    rw [hmantissa] at this
    linarith
  refine .inr ⟨by decide, ?_, ?_⟩
  · rw [le_div_iff₀ hpos, hhalf]
    refine le_trans ?_ ht.bounds.1
    rw [← mul_assoc]
    exact mul_le_mul_of_nonneg_right (by push_cast; linarith) hquarter.le
  · rw [div_le_iff₀ hpos]
    rw [hpower] at hbelow
    refine hbelow.le.trans (mul_le_mul_of_nonneg_right ?_ hpos.le)
    push_cast
    linarith

/-- The mantissa and the exponent of a number of the format stay as they are. -/
theorem shiftToTargetExponent_self {b : Binary} (hb : b.Canonical) :
    shiftToTargetExponent Format.binary64 b.mantissa b.exponent .exact =
      (⟨b.mantissa, false, false⟩, b.exponent) := by
  have hne : b.mantissa ≠ 0 := hb.mantissa_pos.ne'
  have hlog : b.mantissa.log2 < 53 := (Nat.log2_lt hne).mpr hb.mantissa_lt
  have htarget : Format.binary64.targetExponent (totalExponent b.mantissa b.exponent) =
      b.exponent := by
    rw [targetExponent_eq, totalExponent]
    rcases hb.full with hleast | ⟨hleast, hfull⟩
    · omega
    · have : 52 ≤ b.mantissa.log2 := (Nat.le_log2 hne).mpr hfull
      omega
  simp only [shiftToTargetExponent, shiftToExponent, htarget, sub_self, Int.toNat_zero,
    Nat.cast_zero, add_zero]
  rfl

/-- A carry into another place moves the bits once more. -/
theorem shiftToTargetExponent_carry {exponent : ℤ} (h : -1074 ≤ exponent) :
    shiftToTargetExponent Format.binary64 (2 ^ 53) exponent .exact =
      (⟨2 ^ 52, false, false⟩, exponent + 1) := by
  have htarget : Format.binary64.targetExponent (totalExponent (2 ^ 53) exponent) =
      exponent + 1 := by
    rw [targetExponent_eq, totalExponent, Nat.log2_two_pow]
    omega
  simp only [shiftToTargetExponent, shiftToExponent, htarget, add_sub_cancel_left, Int.toNat_one,
    Nat.cast_one]
  rfl

/-- The bits are moved to the exponent that the magnitude asks for. -/
theorem describes_shiftToTargetExponent {mantissa : ℕ} {exponent : ℤ} {accuracy : Accuracy}
    (hbits : Describes (.ofMantissaAndAccuracy mantissa accuracy) (t / (2 : ℚ) ^ exponent))
    (hexponent : exponent ≤ Format.binary64.targetExponent (totalExponent mantissa exponent)) :
    ∃ em, shiftToTargetExponent Format.binary64 mantissa exponent accuracy =
        (em, Format.binary64.targetExponent (totalExponent mantissa exponent)) ∧
      Describes em
        (t / (2 : ℚ) ^ Format.binary64.targetExponent (totalExponent mantissa exponent)) := by
  generalize htarget : Format.binary64.targetExponent (totalExponent mantissa exponent) = target
    at hexponent ⊢
  have hshift : exponent + ((target - exponent).toNat : ℤ) = target := by omega
  refine ⟨ExtendedMantissa.ofMantissaAndAccuracy mantissa accuracy >>>
    (target - exponent).toNat, ?_, ?_⟩
  · simp only [shiftToTargetExponent, shiftToExponent, htarget, hshift]
  · have hmoved := hbits.shiftRight (target - exponent).toNat
    rwa [div_div, ← zpow_natCast, ← zpow_add₀ two_ne_zero, hshift] at hmoved

/-- A result in the interval of `b` is rounded to `b`. -/
theorem roundWithAccuracy_eq {b : Binary} (hb : b.Canonical) (ht : b.Contains t) {mantissa : ℕ}
    {exponent : ℤ} {accuracy : Accuracy}
    (hbits : Describes (.ofMantissaAndAccuracy mantissa accuracy) (t / (2 : ℚ) ^ exponent))
    (hexponent : exponent ≤ Format.binary64.targetExponent (totalExponent mantissa exponent))
    (sign : Sign) :
    roundWithAccuracy Format.binary64 sign mantissa exponent accuracy =
      .finite sign b.mantissa b.exponent hb.mantissa_pos := by
  obtain ⟨em, hfirst, hem⟩ := describes_shiftToTargetExponent hbits hexponent
  obtain ⟨hhigh, hlow⟩ := hbits.magnitude
  have hlow' : (2 : ℚ) ^ (totalExponent mantissa exponent - 1) ≤ t ∨
      totalExponent mantissa exponent ≤ -1021 := by
    by_cases hzero : mantissa = 0
    · right
      subst hzero
      rw [targetExponent_eq, totalExponent, Nat.log2_zero] at hexponent
      rw [totalExponent, Nat.log2_zero]
      omega
    · exact .inl (hlow hzero)
  have hne : b.mantissa ≠ 0 := hb.mantissa_pos.ne'
  have hcases := targetExponent_of_contains hb ht hhigh hlow'
  rw [← targetExponent_eq] at hcases
  rcases hcases with htarget | ⟨htarget, hleast, hm, hbelow⟩
  · rw [htarget] at hfirst hem
    have hrounded := hem.roundedMantissa_eq ht.isNearest
    simp only [roundWithAccuracy, hfirst, hrounded, shiftToTargetExponent_self hb, hne, dite_false]
  · rw [htarget] at hfirst hem
    have hrounded := hem.roundedMantissa_eq (ht.isNearest_half hleast hm hbelow)
    have hcarry := shiftToTargetExponent_carry (show -1074 ≤ b.exponent - 1 by omega)
    rw [sub_add_cancel] at hcarry
    simp only [roundWithAccuracy, hfirst, hrounded, hcarry, ← hm, hne, dite_false]

end BraceLang.Decimal
