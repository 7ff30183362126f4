import BraceLang.Proofs.Decimal.Rounding

/-!
# The bits of a number

A number is its bits: one for the sign, eleven for the exponent and 52 for the fraction. Packing the
parts of a number of the format gives bits that unpack to the same parts, and the parts that are
read off the bits of a number are packed to these bits.

* `unpack_pack_finite`: the parts of a packed number.
* `Parts.Encodes`: the parts that bits stand for.
* `Parts.ofFloat_finite`, `Parts.ofFloat_infinite`, `Parts.ofFloat_zero`, `Parts.ofFloat_nan`: a
  number from its parts.
* `neg_ofParts`: negation changes the sign.
-/

namespace BraceLang.Decimal

open Float.Model Float.Model.UnpackedFloat

/-! ## Packing and unpacking -/

theorem toNat_packComponents (sign : Sign) (exponent : BitVec 11) (mantissa : BitVec 52) :
    (packComponents Format.binary64 sign exponent mantissa).toNat =
      sign.toBitVec.toNat * 2 ^ 63 + exponent.toNat * 2 ^ 52 + mantissa.toNat := by
  unfold packComponents
  rw [BitVec.toNat_append, BitVec.toNat_append, ← Nat.shiftLeft_add_eq_or_of_lt mantissa.isLt,
    ← Nat.shiftLeft_add_eq_or_of_lt exponent.isLt, Nat.shiftLeft_eq, Nat.shiftLeft_eq]
  ring

theorem toNat_unpackExponent (bits : BitVec 64) :
    (@unpackExponent Format.binary64 bits).toNat = bits.toNat / 2 ^ 52 % 2 ^ 11 := by
  unfold unpackExponent
  rw [BitVec.toNat_cast, BitVec.extractLsb_toNat, Nat.shiftRight_eq_div_pow]
  rfl

theorem toNat_unpackMantissa (bits : BitVec 64) :
    (@unpackMantissa Format.binary64 bits).toNat = bits.toNat % 2 ^ 52 := by
  unfold unpackMantissa
  rw [BitVec.toNat_cast, BitVec.extractLsb_toNat, Nat.shiftRight_zero]
  rfl

theorem unpackSign_packComponents (sign : Sign) (exponent : BitVec 11) (mantissa : BitVec 52) :
    unpackSign (packComponents Format.binary64 sign exponent mantissa) = sign.toBitVec := by
  apply BitVec.eq_of_toNat_eq
  have hsign := sign.toBitVec.isLt
  have hexponent := exponent.isLt
  have hmantissa := mantissa.isLt
  unfold unpackSign
  rw [BitVec.toNat_cast, BitVec.extractLsb_toNat, toNat_packComponents, Nat.shiftRight_eq_div_pow]
  change _ / 2 ^ 63 % 2 ^ 1 = _
  omega

theorem ofBitVec_toBitVec (sign : Sign) : Sign.ofBitVec sign.toBitVec = sign := by
  cases sign <;> rfl

variable {b : Binary}

theorem pack_finite (hb : b.Canonical) (sign : Sign) :
    UnpackedFloat.pack Format.binary64 (.finite sign b.mantissa b.exponent hb.mantissa_pos) =
      packComponents Format.binary64 sign
        (if b.mantissa < 2 ^ 52 then 0 else BitVec.ofNat _ (b.exponent + 1075).toNat)
        (BitVec.ofNat _ b.mantissa) := by
  have hne : b.mantissa ≠ 0 := hb.mantissa_pos.ne'
  have hlog : b.mantissa.log2 + 1 = Format.binary64.mantissaBits ↔ ¬ b.mantissa < 2 ^ 52 := by
    have hlt := Nat.log2_lt (k := 52) hne
    have hlt' := (Nat.log2_lt (k := 53) hne).mpr hb.mantissa_lt
    rw [← hlt, Format.mantissaBits]
    dsimp only
    omega
  have hbiased : b.exponent + Format.binary64.exponentBias +
      Format.binary64.mantissaBitsWithoutImplicit = b.exponent + 1075 := by
    rw [add_assoc]
    rfl
  have hrange : ¬ 2 ^ Format.binary64.exponentBits ≤ (b.exponent + 1075).toNat + 1 := by
    have := hb.exponent_le
    dsimp only
    omega
  simp only [UnpackedFloat.pack, hbiased, hrange, if_false, hlog]
  by_cases hm : b.mantissa < 2 ^ 52
  · rw [if_neg (not_not.mpr hm), if_pos hm]
    rfl
  · rw [if_pos hm, if_neg hm]

/-- A number without leading bit has the exponent field of zero. -/
theorem unpack_packComponents_subnormal (sign : Sign) {m : ℕ} (hpos : 0 < m) (hm : m < 2 ^ 52) :
    UnpackedFloat.unpack Format.binary64
      (packComponents Format.binary64 sign 0 (BitVec.ofNat _ m)) =
        .finite sign m (-1074) hpos := by
  have hmantissa : (BitVec.ofNat 52 m).toNat = m := by
    rw [BitVec.toNat_ofNat]
    exact Nat.mod_eq_of_lt hm
  have hnonzero : BitVec.ofNat 52 m ≠ 0#52 := by
    intro h
    rw [h] at hmantissa
    simp at hmantissa
    omega
  have hexponent : ¬ (0 : BitVec 11) = -1#11 := by decide
  simp only [UnpackedFloat.unpack, unpackExponent_packComponents, unpackMantissa_packComponents,
    unpackSign_packComponents, ofBitVec_toBitVec, hmantissa]
  rw [if_neg hexponent, if_pos (show (0 : BitVec 11) = 0#11 from rfl), dif_neg hnonzero]
  rfl

/-- The leading bit of the other numbers is not stored. -/
theorem unpack_packComponents_normal (sign : Sign) {m : ℕ} {e : ℤ} (hpos : 0 < m)
    (hm : 2 ^ 52 ≤ m) (hlt : m < 2 ^ 53) (hleast : -1074 ≤ e) (hle : e ≤ 971) :
    UnpackedFloat.unpack Format.binary64
      (packComponents Format.binary64 sign (BitVec.ofNat _ (e + 1075).toNat) (BitVec.ofNat _ m)) =
        .finite sign m e hpos := by
  have hmantissa : (1#1 ++ BitVec.ofNat 52 m).toNat = m := by
    rw [BitVec.toNat_append, ← Nat.shiftLeft_add_eq_or_of_lt (BitVec.isLt _), BitVec.toNat_ofNat,
      BitVec.toNat_ofNat, Nat.shiftLeft_eq]
    omega
  have hbiased : (BitVec.ofNat 11 (e + 1075).toNat).toNat = (e + 1075).toNat := by
    rw [BitVec.toNat_ofNat]
    exact Nat.mod_eq_of_lt (by omega)
  have hexponent : ¬ BitVec.ofNat 11 (e + 1075).toNat = -1#11 := by
    intro h
    have hall : (-1#11 : BitVec 11).toNat = 2047 := rfl
    rw [h, hall] at hbiased
    omega
  have hnormal : ¬ BitVec.ofNat 11 (e + 1075).toNat = 0#11 := by
    intro h
    rw [h] at hbiased
    change 0 = _ at hbiased
    omega
  have hvalue : ((e + 1075).toNat : ℤ) - (Format.binary64.exponentBias + (52 : ℕ)) = e := by
    change ((e + 1075).toNat : ℤ) - (1023 + 52) = _
    omega
  simp only [UnpackedFloat.unpack, unpackExponent_packComponents, unpackMantissa_packComponents,
    unpackSign_packComponents, ofBitVec_toBitVec, if_false, hmantissa, hexponent, hnormal,
    hbiased, hvalue]

theorem unpack_pack_finite (hb : b.Canonical) (sign : Sign) :
    UnpackedFloat.unpack Format.binary64
      (UnpackedFloat.pack Format.binary64 (.finite sign b.mantissa b.exponent hb.mantissa_pos)) =
        .finite sign b.mantissa b.exponent hb.mantissa_pos := by
  have hlt := hb.mantissa_lt
  have hle := hb.exponent_le
  rw [pack_finite hb]
  by_cases hm : b.mantissa < 2 ^ 52
  · have hleast : b.exponent = -1074 := by
      rcases hb.full with hleast | ⟨_, hfull⟩
      · exact hleast
      · omega
    simp only [hm, if_true, hleast]
    exact unpack_packComponents_subnormal sign hb.mantissa_pos hm
  · have hleast : -1074 ≤ b.exponent := by
      rcases hb.full with hleast | ⟨hleast, _⟩ <;> omega
    simp only [hm, if_false]
    exact unpack_packComponents_normal sign hb.mantissa_pos (by omega) (by omega) hleast hle

/-! ## Taking a number apart -/

/-- A number is what its bits are. -/
theorem float_ext {x y : Float} (h : x.toBits.toNat = y.toBits.toNat) : x = y := by
  obtain ⟨⟨bits, _⟩⟩ := x
  obtain ⟨⟨bits', _⟩⟩ := y
  obtain rfl : bits = bits' := UInt64.toNat_inj.mp h
  rfl

/-- The sign of a number. -/
def signOf (negative : Bool) : Sign := if negative then .negative else .positive

/-- The number with these parts. -/
def ofParts (u : UnpackedFloat) : Float := .ofModel (Float.Model.pack u)

theorem toNat_toBits_ofParts (u : UnpackedFloat) :
    (ofParts u).toBits.toNat = (UnpackedFloat.pack Format.binary64 u).toNat := rfl

/-- The bits with this sign, this exponent and this fraction. -/
def bitsOf (negative : Bool) (biased fraction : ℕ) : ℕ :=
  (if negative then 1 else 0) * 2 ^ 63 + biased * 2 ^ 52 + fraction

theorem toNat_finite (hb : b.Canonical) (negative : Bool) :
    (ofParts (.finite (signOf negative) b.mantissa b.exponent hb.mantissa_pos)).toBits.toNat =
      bitsOf negative (if b.mantissa < 2 ^ 52 then 0 else (b.exponent + 1075).toNat)
        (b.mantissa % 2 ^ 52) := by
  have hle := hb.exponent_le
  have hsign : (signOf negative).toBitVec.toNat = if negative then 1 else 0 := by
    cases negative <;> rfl
  have hexponent : (if b.mantissa < 2 ^ 52 then (0 : BitVec 11)
      else BitVec.ofNat _ (b.exponent + 1075).toNat).toNat =
        if b.mantissa < 2 ^ 52 then 0 else (b.exponent + 1075).toNat := by
    split
    · rfl
    · rw [BitVec.toNat_ofNat]
      exact Nat.mod_eq_of_lt (by omega)
  rw [toNat_toBits_ofParts, pack_finite hb, toNat_packComponents, BitVec.toNat_ofNat, hsign]
  rw [hexponent]
  rfl

/-- The parts that bits stand for. -/
inductive Parts.Encodes : ℕ → Parts → Prop
  | nan {negative : Bool} {fraction : ℕ} : fraction ≠ 0 → fraction < 2 ^ 52 →
    Encodes (bitsOf negative 2047 fraction) .nan
  | infinite {negative : Bool} : Encodes (bitsOf negative 2047 0) (.infinite negative)
  | zero {negative : Bool} : Encodes (bitsOf negative 0 0) (.zero negative)
  | subnormal {negative : Bool} {fraction : ℕ} : fraction ≠ 0 → fraction < 2 ^ 52 →
    Encodes (bitsOf negative 0 fraction) (.finite negative ⟨fraction, minExponent⟩)
  | normal {negative : Bool} {biased fraction : ℕ} : biased ≠ 0 → biased < 2047 →
    fraction < 2 ^ 52 →
    Encodes (bitsOf negative biased fraction)
      (.finite negative ⟨fraction + leadingBit, biased + (minExponent - 1)⟩)

/-- The bits of a number are its sign, its exponent and its fraction. -/
theorem toNat_toBits_eq (x : Float) :
    x.toBits.toNat = bitsOf (x.toBits.toNat / (leadingBit * 2048) % 2 == 1)
      (x.toBits.toNat / leadingBit % 2048) (x.toBits.toNat % leadingBit) := by
  have hbits : x.toBits.toNat < 2 ^ 64 := x.toBits.toNat_lt
  generalize x.toBits.toNat = n at hbits
  have hleading : leadingBit = 2 ^ 52 := rfl
  rw [hleading]
  unfold bitsOf
  rcases Nat.mod_two_eq_zero_or_one (n / (2 ^ 52 * 2048)) with hsign | hsign
  · simp only [hsign]
    norm_num
    omega
  · simp only [hsign]
    norm_num
    omega

theorem Parts.encodes_ofFloat (x : Float) : Parts.Encodes x.toBits.toNat (Parts.ofFloat x) := by
  have hbits := toNat_toBits_eq x
  have hbiased : x.toBits.toNat / leadingBit % 2048 < 2048 := Nat.mod_lt _ (by decide)
  have hfraction : x.toBits.toNat % leadingBit < 2 ^ 52 := Nat.mod_lt _ (by decide)
  unfold Parts.ofFloat
  dsimp only
  generalize (x.toBits.toNat / (leadingBit * 2048) % 2 == 1) = negative at *
  generalize x.toBits.toNat / leadingBit % 2048 = biased at *
  generalize x.toBits.toNat % leadingBit = fraction at *
  rw [hbits]
  by_cases hlast : biased = 2047
  · subst hlast
    rw [if_pos rfl]
    by_cases hzero : fraction = 0
    · subst hzero
      exact .infinite
    · rw [if_neg hzero]
      exact .nan hzero hfraction
  · rw [if_neg hlast]
    by_cases hleast : biased = 0
    · subst hleast
      rw [if_pos rfl]
      by_cases hzero : fraction = 0
      · subst hzero
        exact .zero
      · rw [if_neg hzero]
        exact .subnormal hzero hfraction
    · rw [if_neg hleast]
      exact .normal hleast (by omega) hfraction

theorem Parts.ofFloat_finite {x : Float} {negative : Bool}
    (h : Parts.ofFloat x = .finite negative b) :
    ∃ hb : b.Canonical,
      x = ofParts (.finite (signOf negative) b.mantissa b.exponent hb.mantissa_pos) := by
  have hencodes := Parts.encodes_ofFloat x
  rw [h] at hencodes
  generalize hbits : x.toBits.toNat = bits at hencodes
  have hleading : leadingBit = 2 ^ 52 := rfl
  cases hencodes with
  | @subnormal _ fraction hzero hfraction =>
    have hb : Binary.Canonical ⟨fraction, minExponent⟩ :=
      ⟨Nat.pos_of_ne_zero hzero, by dsimp only; omega, by dsimp only [minExponent]; omega,
        .inl rfl⟩
    refine ⟨hb, float_ext ?_⟩
    rw [toNat_finite hb, hbits]
    dsimp only
    rw [if_pos hfraction, Nat.mod_eq_of_lt hfraction]
  | @normal _ biased fraction hleast hlast hfraction =>
    have hb : Binary.Canonical ⟨fraction + leadingBit, biased + (minExponent - 1)⟩ := by
      refine ⟨?_, ?_, ?_, ?_⟩ <;> dsimp only [minExponent] <;> omega
    refine ⟨hb, float_ext ?_⟩
    rw [toNat_finite hb, hbits]
    dsimp only [minExponent]
    have hexponent : ((biased : ℤ) + (-1074 - 1) + 1075).toNat = biased := by omega
    have hrest : (fraction + leadingBit) % 2 ^ 52 = fraction := by omega
    have hlarge : ¬ fraction + leadingBit < 2 ^ 52 := by omega
    rw [if_neg hlarge, hexponent, hrest]

theorem Parts.ofFloat_nan {x : Float} (h : Parts.ofFloat x = .nan) : x = 0 / 0 := by
  have hencodes := Parts.encodes_ofFloat x
  rw [h] at hencodes
  generalize hbits : x.toBits.toNat = bits at hencodes
  cases hencodes with
  | nan hzero hfraction =>
    unfold bitsOf at hbits
    have hexponent : @unpackExponent Format.binary64 x.toModel.toBits.toBitVec = -1#11 := by
      apply BitVec.eq_of_toNat_eq
      rw [toNat_unpackExponent]
      change x.toBits.toNat / 2 ^ 52 % 2 ^ 11 = 2047
      omega
    have hmantissa : @unpackMantissa Format.binary64 x.toModel.toBits.toBitVec ≠ 0#52 := by
      intro h
      have hnone := congrArg BitVec.toNat h
      rw [toNat_unpackMantissa] at hnone
      change x.toBits.toNat % 2 ^ 52 = 0 at hnone
      omega
    have hpacked := x.toModel.valid.eq_packedNaN hexponent hmantissa
    have hquotient : (0 / 0 : Float).toBits.toNat = (packedNaN Format.binary64).toNat := by
      decide +kernel
    exact float_ext ((congrArg BitVec.toNat hpacked).trans hquotient.symm)

theorem Parts.ofFloat_infinite {x : Float} {negative : Bool}
    (h : Parts.ofFloat x = .infinite negative) : x = if negative then -(1 / 0) else 1 / 0 := by
  have hencodes := Parts.encodes_ofFloat x
  rw [h] at hencodes
  apply float_ext
  generalize x.toBits.toNat = bits at hencodes
  cases hencodes
  cases negative <;> decide +kernel

theorem Parts.ofFloat_zero {x : Float} {negative : Bool}
    (h : Parts.ofFloat x = .zero negative) : x = if negative then -0 else 0 := by
  have hencodes := Parts.encodes_ofFloat x
  rw [h] at hencodes
  apply float_ext
  generalize x.toBits.toNat = bits at hencodes
  cases hencodes
  cases negative <;> decide +kernel

theorem neg_ofParts (hb : b.Canonical) :
    -ofParts (.finite .positive b.mantissa b.exponent hb.mantissa_pos) =
      ofParts (.finite .negative b.mantissa b.exponent hb.mantissa_pos) := by
  have hneg : -ofParts (.finite .positive b.mantissa b.exponent hb.mantissa_pos) =
      ofParts (UnpackedFloat.neg (UnpackedFloat.unpack Format.binary64
        (UnpackedFloat.pack Format.binary64
          (.finite .positive b.mantissa b.exponent hb.mantissa_pos)))) := rfl
  rw [hneg, unpack_pack_finite hb]
  rfl

end BraceLang.Decimal
