import BraceLang.Decimal.Literal
import BraceLang.Proofs.Decimal.Packing

/-!
# Reading decimals

A decimal is read by arithmetic on numbers of the format. With few digits and a small exponent its
digits are a number of the format, and so is the power of ten they are multiplied with or divided
by; only the result is rounded. Other decimals are a product or a quotient of whole numbers, which
is rounded as well. So both ways give the number whose interval the decimal is in.

* `Decimal.value`: the number that a decimal stands for.
* `mul_finite`, `div_finite`: a product and a quotient in the interval of a number.
* `hasValue_natCast`, `hasValue_powerOfTen`: whole numbers that are numbers of the format.
* `toFloat_of_contains`: a decimal in the interval of a number is read as that number.
-/

namespace BraceLang.Decimal

open Float.Model Float.Model.UnpackedFloat

/-- The value of a decimal. -/
def value (d : Decimal) : ℚ := d.digits * (10 : ℚ) ^ d.exponent

variable {b : Binary}

/-! ## Products and quotients -/

theorem mul_finite (hb : b.Canonical) {m₁ m₂ : ℕ} {e₁ e₂ : ℤ} (h₁ : 0 < m₁) (h₂ : 0 < m₂)
    (ht : b.Contains (m₁ * m₂ * (2 : ℚ) ^ (e₁ + e₂))) (hlarge : 2 ^ 52 ≤ m₁ * m₂) (s₁ s₂ : Sign) :
    mul Format.binary64 (.finite s₁ m₁ e₁ h₁) (.finite s₂ m₂ e₂ h₂) =
      .finite (s₁ * s₂) b.mantissa b.exponent hb.mantissa_pos := by
  have hlog : 52 ≤ (m₁ * m₂).log2 := (Nat.le_log2 (Nat.mul_pos h₁ h₂).ne').mpr hlarge
  refine roundWithAccuracy_eq hb ht ?_ ?_ _
  · change _ = _
    rw [mul_div_assoc, div_self (by positivity), mul_one]
    push_cast
    rfl
  · rw [targetExponent_eq, totalExponent]
    omega

theorem describes_accuracyOfFraction {quotient rest divisor : ℕ} (h : rest < divisor) :
    Describes (.ofMantissaAndAccuracy quotient (accuracyOfFraction rest divisor))
      (quotient + rest / divisor) := by
  have hpos : (0 : ℚ) < divisor := by exact_mod_cast Nat.zero_lt_of_lt h
  have hlt : (rest : ℚ) < divisor := by exact_mod_cast h
  unfold accuracyOfFraction
  split
  · rename_i hzero
    subst hzero
    simp [ExtendedMantissa.ofMantissaAndAccuracy, Describes]
  · rename_i hne
    have hrest : (0 : ℚ) < rest := by exact_mod_cast Nat.pos_of_ne_zero hne
    have hfraction : (0 : ℚ) < rest / divisor := div_pos hrest hpos
    have hone : (rest / divisor : ℚ) < 1 := (div_lt_one hpos).mpr hlt
    cases hcompare : compare (2 * rest) divisor with
    | lt =>
      have hhalf : (2 * rest : ℚ) < divisor := by
        exact_mod_cast Nat.compare_eq_lt.mp hcompare
      have : (rest / divisor : ℚ) < 1 / 2 := by
        rw [div_lt_iff₀ hpos]
        linarith
      exact ⟨by linarith, by linarith⟩
    | eq =>
      have hhalf : (2 * rest : ℚ) = divisor := by
        exact_mod_cast Nat.compare_eq_eq.mp hcompare
      have : (rest / divisor : ℚ) = 1 / 2 := by
        rw [div_eq_iff hpos.ne']
        linarith
      change _ = _
      rw [this]
    | gt =>
      have hhalf : (divisor : ℚ) < 2 * rest := by
        exact_mod_cast Nat.compare_eq_gt.mp hcompare
      have : (1 / 2 : ℚ) < rest / divisor := by
        rw [lt_div_iff₀ hpos]
        linarith
      exact ⟨by linarith, by linarith⟩

/-- The bits of a quotient whose dividend has been moved by a number of places. -/
theorem describes_quotient {m₁ m₂ shift : ℕ} (h₂ : 0 < m₂) :
    Describes (.ofMantissaAndAccuracy ((m₁ <<< shift) / m₂)
      (accuracyOfFraction ((m₁ <<< shift) % m₂) m₂)) (m₁ / m₂ * (2 : ℚ) ^ shift) := by
  have hpos : (m₂ : ℚ) ≠ 0 := by exact_mod_cast h₂.ne'
  have hbits := @describes_accuracyOfFraction (m₁ <<< shift / m₂) _ _ (Nat.mod_lt (m₁ <<< shift) h₂)
  have hsum : (m₂ * (m₁ <<< shift / m₂ : ℕ) + (m₁ <<< shift % m₂ : ℕ) : ℚ) = m₁ * 2 ^ shift := by
    have := Nat.div_add_mod (m₁ <<< shift) m₂
    rw [Nat.shiftLeft_eq] at this ⊢
    exact_mod_cast this
  have hvalue : (m₁ / m₂ * (2 : ℚ) ^ shift) =
      (m₁ <<< shift / m₂ : ℕ) + (m₁ <<< shift % m₂ : ℕ) / m₂ := by
    rw [div_mul_eq_mul_div, ← hsum]
    field_simp
  rw [hvalue]
  exact hbits

/-- A power of two between which and the next one a number is. -/
theorem power_le {mantissa : ℕ} (h : 0 < mantissa) (exponent : ℤ) :
    (2 : ℚ) ^ (totalExponent mantissa exponent - 1) ≤ mantissa * (2 : ℚ) ^ exponent ∧
      mantissa * (2 : ℚ) ^ exponent < (2 : ℚ) ^ totalExponent mantissa exponent := by
  have hpos : (0 : ℚ) < 2 ^ exponent := by positivity
  have hexact : Describes (.ofMantissaAndAccuracy mantissa .exact)
      (mantissa * (2 : ℚ) ^ exponent / (2 : ℚ) ^ exponent) := by
    change _ = _
    rw [mul_div_assoc, div_self hpos.ne', mul_one]
  exact ⟨hexact.magnitude.2 h.ne', hexact.magnitude.1⟩

theorem div_finite (hb : b.Canonical) {m₁ m₂ : ℕ} {e₁ e₂ : ℤ} (h₁ : 0 < m₁) (h₂ : 0 < m₂)
    (ht : b.Contains (m₁ / m₂ * (2 : ℚ) ^ (e₁ - e₂))) (s₁ s₂ : Sign) :
    div Format.binary64 (.finite s₁ m₁ e₁ h₁) (.finite s₂ m₂ e₂ h₂) =
      .finite (s₁ / s₂) b.mantissa b.exponent hb.mantissa_pos := by
  obtain ⟨exponent, hexponent⟩ : ∃ exponent, exponent = min (e₁ - e₂)
    (Format.binary64.targetExponent (totalExponent m₁ e₁ - totalExponent m₂ e₂)) := ⟨_, rfl⟩
  have hdiv : div Format.binary64 (.finite s₁ m₁ e₁ h₁) (.finite s₂ m₂ e₂ h₂) =
      roundWithAccuracy Format.binary64 (s₁ / s₂) ((m₁ <<< (e₁ - e₂ - exponent).toNat) / m₂)
        exponent (accuracyOfFraction ((m₁ <<< (e₁ - e₂ - exponent).toNat) % m₂) m₂) := by
    rw [hexponent]
    rfl
  have hshift : (2 : ℚ) ^ (e₁ - e₂) / (2 : ℚ) ^ exponent = 2 ^ (e₁ - e₂ - exponent).toNat := by
    rw [← zpow_sub₀ two_ne_zero, ← zpow_natCast, Int.toNat_of_nonneg (by omega)]
  have hbits : Describes (.ofMantissaAndAccuracy ((m₁ <<< (e₁ - e₂ - exponent).toNat) / m₂)
      (accuracyOfFraction ((m₁ <<< (e₁ - e₂ - exponent).toNat) % m₂) m₂))
      (m₁ / m₂ * (2 : ℚ) ^ (e₁ - e₂) / (2 : ℚ) ^ exponent) := by
    rw [mul_div_assoc, hshift]
    exact describes_quotient h₂
  rw [hdiv]
  refine roundWithAccuracy_eq hb ht hbits ?_ _
  -- The quotient of the magnitudes is at most one place more than the magnitude of the quotient.
  have hlarge : (2 : ℚ) ^ (totalExponent m₁ e₁ - totalExponent m₂ e₂ - 1) <
      m₁ / m₂ * (2 : ℚ) ^ (e₁ - e₂) := by
    have hm₂ : (0 : ℚ) < m₂ * 2 ^ e₂ := by
      have : (0 : ℚ) < m₂ := by exact_mod_cast h₂
      positivity
    have hquotient : (m₁ / m₂ * (2 : ℚ) ^ (e₁ - e₂)) = m₁ * 2 ^ e₁ / (m₂ * 2 ^ e₂) := by
      rw [zpow_sub₀ two_ne_zero, div_mul_div_comm]
    rw [hquotient, lt_div_iff₀ hm₂]
    calc (2 : ℚ) ^ (totalExponent m₁ e₁ - totalExponent m₂ e₂ - 1) * (m₂ * 2 ^ e₂)
        < 2 ^ (totalExponent m₁ e₁ - totalExponent m₂ e₂ - 1) * 2 ^ totalExponent m₂ e₂ :=
          mul_lt_mul_of_pos_left (power_le h₂ e₂).2 (by positivity)
      _ = 2 ^ (totalExponent m₁ e₁ - 1) := by
          rw [← zpow_add₀ two_ne_zero]
          congr 1
          ring
      _ ≤ m₁ * 2 ^ e₁ := (power_le h₁ e₁).1
  have htotal := (zpow_lt_zpow_iff_right₀ one_lt_two).mp (hlarge.trans hbits.magnitude.1)
  rw [targetExponent_eq] at hexponent ⊢
  omega

/-- The number is positive and has a mantissa of full length, and this is its value. -/
def HasValue (x : Float) (t : ℚ) : Prop :=
  ∃ (b : Binary) (hb : b.Canonical), 2 ^ 52 ≤ b.mantissa ∧
    b.mantissa * (2 : ℚ) ^ b.exponent = t ∧
      x = ofParts (.finite .positive b.mantissa b.exponent hb.mantissa_pos)

theorem ofParts_mul (u v : UnpackedFloat) : ofParts u * ofParts v =
    ofParts (mul Format.binary64
      (UnpackedFloat.unpack Format.binary64 (UnpackedFloat.pack Format.binary64 u))
      (UnpackedFloat.unpack Format.binary64 (UnpackedFloat.pack Format.binary64 v))) := rfl

theorem ofParts_div (u v : UnpackedFloat) : ofParts u / ofParts v =
    ofParts (div Format.binary64
      (UnpackedFloat.unpack Format.binary64 (UnpackedFloat.pack Format.binary64 u))
      (UnpackedFloat.unpack Format.binary64 (UnpackedFloat.pack Format.binary64 v))) := rfl

theorem HasValue.mul {x y : Float} {s t : ℚ} (hx : HasValue x s) (hy : HasValue y t)
    (hb : b.Canonical) (h : b.Contains (s * t)) :
    x * y = ofParts (.finite .positive b.mantissa b.exponent hb.mantissa_pos) := by
  obtain ⟨b₁, hb₁, hfull, rfl, rfl⟩ := hx
  obtain ⟨b₂, hb₂, -, rfl, rfl⟩ := hy
  rw [mul_mul_mul_comm, ← zpow_add₀ two_ne_zero] at h
  have hlarge : 2 ^ 52 ≤ b₁.mantissa * b₂.mantissa :=
    hfull.trans (Nat.le_mul_of_pos_right _ hb₂.mantissa_pos)
  rw [ofParts_mul, unpack_pack_finite hb₁, unpack_pack_finite hb₂,
    mul_finite hb hb₁.mantissa_pos hb₂.mantissa_pos h hlarge]
  rfl

theorem HasValue.div {x y : Float} {s t : ℚ} (hx : HasValue x s) (hy : HasValue y t)
    (hb : b.Canonical) (h : b.Contains (s / t)) :
    x / y = ofParts (.finite .positive b.mantissa b.exponent hb.mantissa_pos) := by
  obtain ⟨b₁, hb₁, -, rfl, rfl⟩ := hx
  obtain ⟨b₂, hb₂, -, rfl, rfl⟩ := hy
  rw [mul_div_mul_comm, ← zpow_sub₀ two_ne_zero] at h
  rw [ofParts_div, unpack_pack_finite hb₁, unpack_pack_finite hb₂,
    div_finite hb hb₁.mantissa_pos hb₂.mantissa_pos h]
  rfl

/-! ## Whole numbers -/

/-- A natural number with a mantissa of full length. Bits that do not fit are left out. -/
def Binary.ofNat (n : ℕ) : Binary :=
  ⟨n * 2 ^ (52 - n.log2) / 2 ^ (n.log2 - 52), n.log2 - 52⟩

theorem ofNat_bounds {n : ℕ} (h : 0 < n) :
    2 ^ 52 ≤ (Binary.ofNat n).mantissa ∧ (Binary.ofNat n).mantissa < 2 ^ 53 := by
  have hlow := Nat.log2_self_le h.ne'
  have hhigh := Nat.lt_log2_self (n := n)
  have hpos : 0 < 2 ^ (n.log2 - 52) := by positivity
  dsimp only [Binary.ofNat]
  rw [Nat.le_div_iff_mul_le hpos, Nat.div_lt_iff_lt_mul hpos]
  have hplaces : 52 + (n.log2 - 52) = n.log2 + (52 - n.log2) := by omega
  constructor
  · rw [← pow_add, hplaces, pow_add]
    exact Nat.mul_le_mul_right _ hlow
  · rw [← pow_add, show 53 + (n.log2 - 52) = n.log2 + 1 + (52 - n.log2) by omega, pow_add]
    exact Nat.mul_lt_mul_of_pos_right hhigh (by positivity)

theorem canonical_ofNat {n : ℕ} (h : 0 < n) (hlog : n.log2 < 1024) :
    (Binary.ofNat n).Canonical := by
  obtain ⟨hlow, hhigh⟩ := ofNat_bounds h
  exact ⟨by omega, hhigh, by dsimp only [Binary.ofNat]; omega,
    .inr ⟨by dsimp only [Binary.ofNat]; omega, hlow⟩⟩

/-- Where all bits fit, the number is the natural number. -/
theorem ofNat_value {n : ℕ} (h : 2 ^ (n.log2 - 52) ∣ n) :
    (Binary.ofNat n).mantissa * (2 : ℚ) ^ (Binary.ofNat n).exponent = n := by
  obtain ⟨k, hk⟩ := h
  have hpos : 0 < 2 ^ (n.log2 - 52) := by positivity
  have hmantissa : (Binary.ofNat n).mantissa = k * 2 ^ (52 - n.log2) := by
    dsimp only [Binary.ofNat]
    generalize n.log2 = places at hk hpos
    rw [hk, mul_assoc, Nat.mul_div_cancel_left _ hpos]
  have hexponent : (2 : ℚ) ^ (52 - n.log2) * 2 ^ (Binary.ofNat n).exponent =
      2 ^ (n.log2 - 52) := by
    rw [← zpow_natCast, ← zpow_natCast, ← zpow_add₀ two_ne_zero]
    congr 1
    dsimp only [Binary.ofNat]
    omega
  rw [hmantissa]
  push_cast
  rw [mul_assoc, hexponent]
  conv_rhs => rw [hk]
  push_cast
  ring

/-- A number of the format is not changed by rounding. -/
theorem roundWithAccuracy_self (hb : b.Canonical) (sign : Sign) :
    roundWithAccuracy Format.binary64 sign b.mantissa b.exponent .exact =
      .finite sign b.mantissa b.exponent hb.mantissa_pos := by
  have hrounded : ExtendedMantissa.roundedMantissa ⟨b.mantissa, false, false⟩ = b.mantissa := rfl
  simp only [roundWithAccuracy, shiftToTargetExponent_self hb, hrounded, hb.mantissa_pos.ne',
    dite_false]

/-- A natural number with at most 53 bits is a number of the format. -/
theorem hasValue_natCast {n : ℕ} (hpos : 0 < n) (hn : n < 2 ^ 53) :
    HasValue n.toUInt64.toFloat n := by
  have hlog : n.log2 < 53 := (Nat.log2_lt hpos.ne').mpr hn
  have hnone : n.log2 - 52 = 0 := by omega
  have hb := canonical_ofNat hpos (by omega)
  refine ⟨_, hb, (ofNat_bounds hpos).1, ofNat_value (by rw [hnone]; exact one_dvd n), ?_⟩
  have hnat : n.toUInt64.toNat = n := Nat.mod_eq_of_lt (by omega)
  have hfloat : n.toUInt64.toFloat =
      ofParts (UnpackedFloat.normalize Format.binary64 n.toUInt64.toNat 0 .positive) := rfl
  have hcompare : compare (n : ℤ) 0 = .gt := by
    rw [Int.compare_eq_gt]
    omega
  have htarget : Format.binary64.targetExponent (totalExponent n 0) = n.log2 - 52 := by
    rw [targetExponent_eq, totalExponent]
    omega
  have hdecrease : decreaseExponent n 0 (n.log2 - 52) =
      ((Binary.ofNat n).mantissa, (Binary.ofNat n).exponent) := by
    have hshift : (0 - ((n.log2 : ℤ) - 52)).toNat = 52 - n.log2 := by omega
    simp only [decreaseExponent, Binary.ofNat, hshift, hnone, Nat.shiftLeft_eq, pow_zero,
      Nat.div_one]
    congr 1
    omega
  rw [hfloat, hnat]
  simp only [UnpackedFloat.normalize, hcompare, UnpackedFloat.round, Int.toNat_natCast, htarget,
    hdecrease, roundWithAccuracy_self hb]

/-- The powers of ten that decimals with few digits are multiplied with or divided by. -/
def powerOfTen (i : Fin 23) : Float :=
  have h : i.val < Float.exactlyRepresentablePowersOfTen.size := i.isLt
  Float.exactlyRepresentablePowersOfTen[i.val]

theorem ofFloat_powerOfTen (i : Fin 23) :
    Parts.ofFloat (powerOfTen i) = .finite false (Binary.ofNat (10 ^ i.val)) ∧
      2 ^ ((10 ^ i.val).log2 - 52) ∣ 10 ^ i.val := by
  revert i
  decide +kernel

theorem hasValue_powerOfTen (i : Fin 23) : HasValue (powerOfTen i) (10 ^ i.val) := by
  obtain ⟨hparts, hdvd⟩ := ofFloat_powerOfTen i
  obtain ⟨hb, hpower⟩ := @Parts.ofFloat_finite _ _ false hparts
  have hvalue := ofNat_value hdvd
  push_cast at hvalue
  exact ⟨_, hb, (ofNat_bounds (by positivity)).1, hvalue, hpower⟩

/-! ## Reading -/

section Reading

variable {n : ℕ}

/-- The arithmetic on whole numbers that is used where a decimal has many digits. -/
theorem ofScientific_finite (hb : b.Canonical) (hpos : 0 < n) {exponent : ℤ}
    (h : b.Contains (n * (10 : ℚ) ^ exponent)) (hhigh : exponent ≤ 2048)
    (hlow : -(2048 + n.log2) ≤ exponent) :
    UnpackedFloat.ofScientific Format.binary64 n exponent =
      .finite .positive b.mantissa b.exponent hb.mantissa_pos := by
  have hbits : Format.binary64.mantissaBits = 53 := rfl
  have hrange₁ : ¬ exponent > 2 ^ Format.binary64.exponentBits := by
    dsimp only
    omega
  have hrange₂ : ¬ exponent < -(2 ^ Format.binary64.exponentBits + n.log2) := by
    dsimp only
    omega
  simp only [UnpackedFloat.ofScientific, hpos.ne', hrange₁, hrange₂, hbits, dite_false, if_false]
  rcases le_or_gt 0 exponent with hnonneg | hneg
  · obtain ⟨k, rfl⟩ := Int.eq_ofNat_of_zero_le hnonneg
    have hvalue : b.Contains ((n <<< 53 : ℕ) * (10 ^ k : ℕ) * (2 : ℚ) ^ (-(53 : ℕ) + 0 : ℤ)) := by
      convert h using 1
      rw [Nat.shiftLeft_eq]
      push_cast
      norm_num
      ring
    have hlarge : 2 ^ 52 ≤ n <<< 53 * 10 ^ k := by
      rw [Nat.shiftLeft_eq]
      calc 2 ^ 52 ≤ n * 2 ^ 53 := by omega
        _ ≤ n * 2 ^ 53 * 10 ^ k := Nat.le_mul_of_pos_right _ (by positivity)
    rw [if_pos hnonneg]
    exact mul_finite hb _ _ hvalue hlarge _ _
  · obtain ⟨k, rfl⟩ : ∃ k : ℕ, exponent = -k := ⟨exponent.natAbs, by omega⟩
    have hvalue : b.Contains (n / (10 ^ k : ℕ) * (2 : ℚ) ^ (0 - 0 : ℤ)) := by
      convert h using 1
      rw [zpow_neg, zpow_natCast]
      push_cast
      norm_num
      ring
    have hplaces : (- -(k : ℤ)).toNat = k := by omega
    simp only [if_neg (not_le.mpr hneg), hplaces]
    exact div_finite hb hpos _ hvalue _ _

/-- Reading a decimal in the interval of a number of the format gives that number. -/
theorem float_ofScientific (hb : b.Canonical) (hpos : 0 < n) {exponent : ℤ}
    (h : b.Contains (n * (10 : ℚ) ^ exponent)) (hhigh : exponent ≤ 2048)
    (hlow : -(2048 + n.log2) ≤ exponent) :
    Float.ofScientific n (exponent < 0) exponent.natAbs =
      ofParts (.finite .positive b.mantissa b.exponent hb.mantissa_pos) := by
  unfold Float.ofScientific
  split
  · rename_i hshort
    obtain ⟨hn, hplaces⟩ := hshort
    split
    · rename_i hneg
      have hvalue : (n * (10 : ℚ) ^ exponent) = n / (10 : ℚ) ^ exponent.natAbs := by
        have : exponent = -(exponent.natAbs : ℤ) := by
          have := of_decide_eq_true hneg
          omega
        conv_lhs => rw [this, zpow_neg, zpow_natCast]
        rw [div_eq_mul_inv]
      exact (hasValue_natCast hpos hn).div (hasValue_powerOfTen ⟨exponent.natAbs, by omega⟩) hb
        (hvalue ▸ h)
    · rename_i hnonneg
      have hvalue : (n * (10 : ℚ) ^ exponent) = n * (10 : ℚ) ^ exponent.natAbs := by
        have : exponent = (exponent.natAbs : ℤ) := by
          have := of_decide_eq_false (eq_false_of_ne_true hnonneg)
          omega
        conv_lhs => rw [this, zpow_natCast]
      exact (hasValue_natCast hpos hn).mul (hasValue_powerOfTen ⟨exponent.natAbs, by omega⟩) hb
        (hvalue ▸ h)
  · have hexponent : (if decide (exponent < 0) = true then Int.negOfNat exponent.natAbs
        else Int.ofNat exponent.natAbs) = exponent := by
      split
      · rename_i hneg
        have := of_decide_eq_true hneg
        rw [Int.negOfNat_eq, Int.ofNat_eq_natCast]
        omega
      · rename_i hnonneg
        have := of_decide_eq_false (eq_false_of_ne_true hnonneg)
        rw [Int.ofNat_eq_natCast]
        omega
    dsimp only
    rw [hexponent, Float.Model.ofScientific, ofScientific_finite hb hpos h hhigh hlow]
    rfl

/-- The digits of a number and its last place say between which powers of ten it is. -/
theorem value_bounds {d : Decimal} (h : 0 < d.digits) :
    (10 : ℚ) ^ ((Nat.toDigits 10 d.digits).length + d.exponent - 1) ≤ d.value ∧
      d.value < (10 : ℚ) ^ ((Nat.toDigits 10 d.digits).length + d.exponent) := by
  have hten : (10 : ℚ) ≠ 0 := by norm_num
  have hpos : (0 : ℚ) < 10 ^ d.exponent := by positivity
  obtain ⟨k, hk⟩ : ∃ k, (Nat.toDigits 10 d.digits).length = k + 1 :=
    Nat.exists_eq_add_one.mpr Nat.length_toDigits_pos
  have hhigh : d.digits < 10 ^ (k + 1) :=
    (Nat.length_toDigits_le_iff (by decide) (by omega)).mp hk.le
  have hlow : 10 ^ k ≤ d.digits := by
    rcases Nat.eq_zero_or_pos k with rfl | hk'
    · exact h
    · by_contra hlt
      have := (Nat.length_toDigits_le_iff (by decide) hk').mpr (not_le.mp hlt)
      omega
  have hhigh' : (d.digits : ℚ) < 10 ^ (k + 1) := by exact_mod_cast hhigh
  have hlow' : (10 ^ k : ℚ) ≤ d.digits := by exact_mod_cast hlow
  rw [hk, show ((k + 1 : ℕ) + d.exponent - 1 : ℤ) = (k : ℕ) + d.exponent by push_cast; ring,
    zpow_add₀ hten, zpow_add₀ hten, zpow_natCast, zpow_natCast]
  exact ⟨mul_le_mul_of_nonneg_right hlow' hpos.le, mul_lt_mul_of_pos_right hhigh' hpos⟩

/-- What is rounded to a number of the format is in the range of the decimals that are read with
arithmetic. -/
theorem Binary.Contains.range (hb : b.Canonical) {t : ℚ} (h : b.Contains t) :
    (10 : ℚ) ^ (-324 : ℤ) < t ∧ t < (10 : ℚ) ^ (309 : ℤ) := by
  have hcast {m n : ℕ} (h : 2 ^ m < 10 ^ n) : (2 : ℚ) ^ m < 10 ^ n := by exact_mod_cast h
  constructor
  · have hleast : -1074 ≤ b.exponent := by
      rcases hb.full with hleast | ⟨hleast, _⟩ <;> omega
    have hmantissa : (1 : ℚ) ≤ b.mantissa := by exact_mod_cast hb.mantissa_pos
    calc (10 : ℚ) ^ (-324 : ℤ) = (10 ^ 324)⁻¹ := by rw [zpow_neg, zpow_ofNat]
      _ < (2 ^ 1075)⁻¹ := inv_strictAnti₀ (by positivity) (hcast (by decide +kernel))
      _ = (2 : ℚ) ^ (-1075 : ℤ) := by rw [zpow_neg, zpow_ofNat]
      _ ≤ (2 : ℚ) ^ (1 + (b.exponent - 2)) := zpow_le_zpow_right₀ one_le_two (by omega)
      _ = 2 * (2 : ℚ) ^ (b.exponent - 2) := by rw [zpow_add₀ two_ne_zero, zpow_one]
      _ ≤ b.lowest * (2 : ℚ) ^ (b.exponent - 2) :=
        mul_le_mul_of_nonneg_right (by linarith [b.sub_two_le_lowest]) (by positivity)
      _ ≤ t := h.bounds.1
  · have hpowers : 2 ^ 1024 < 10 ^ 309 := by decide +kernel
    have hle := hb.exponent_le
    calc t < (2 : ℚ) ^ (53 + b.exponent) := h.lt_power hb
      _ ≤ (2 : ℚ) ^ (1024 : ℤ) := zpow_le_zpow_right₀ one_le_two (by omega)
      _ = 2 ^ 1024 := zpow_ofNat _ _
      _ < 10 ^ 309 := hcast (by decide +kernel)
      _ = (10 : ℚ) ^ (309 : ℤ) := (zpow_ofNat _ _).symm

theorem toFloat_of_contains (hb : b.Canonical) {d : Decimal} (h : b.Contains d.value) :
    d.toFloat = ofParts (.finite .positive b.mantissa b.exponent hb.mantissa_pos) := by
  obtain ⟨hlow, hhigh⟩ := h.range hb
  have hdigits : 0 < d.digits := by
    by_contra hzero
    have hvalue : d.value = 0 := by
      simp [value, Nat.eq_zero_of_not_pos hzero]
    rw [hvalue] at hlow
    exact absurd hlow (not_lt.mpr (by positivity))
  obtain ⟨hbelow, habove⟩ := value_bounds hdigits
  have hlarge : ¬ 309 < (Nat.toDigits 10 d.digits).length + d.exponent := by
    have : (10 : ℚ) ^ ((Nat.toDigits 10 d.digits).length + d.exponent - 1) < 10 ^ (309 : ℤ) :=
      hbelow.trans_lt hhigh
    have := (zpow_lt_zpow_iff_right₀ (by norm_num)).mp this
    omega
  have hsmall : ¬ (Nat.toDigits 10 d.digits).length + d.exponent < -323 := by
    have : (10 : ℚ) ^ (-324 : ℤ) < 10 ^ ((Nat.toDigits 10 d.digits).length + d.exponent) :=
      hlow.trans habove
    have := (zpow_lt_zpow_iff_right₀ (by norm_num)).mp this
    omega
  have hlength := Nat.length_toDigits_pos (b := 10) (n := d.digits)
  have hlog : (Nat.toDigits 10 d.digits).length ≤ d.digits.log2 + 1 := by
    rw [Nat.length_toDigits_le_iff (by decide) (by omega)]
    exact Nat.lt_log2_self.trans_le (Nat.pow_le_pow_left (by decide) _)
  rw [toFloat, if_neg hdigits.ne']
  dsimp only
  rw [if_neg hlarge, if_neg hsmall]
  exact float_ofScientific hb hdigits h (by omega) (by omega)

end Reading

end BraceLang.Decimal
