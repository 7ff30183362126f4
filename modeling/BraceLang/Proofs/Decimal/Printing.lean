import BraceLang.Decimal.Display
import BraceLang.Proofs.Decimal.Arithmetic

/-!
# Reading a printed number

The decimal that is printed for a number is found by a search, which ends at the first decimal in
the interval of the number; if it ends without one, all digits of the number are printed. Either
way the decimal is in the interval. The text is read as a decimal of the same value, and this one
as the number.

* `Decimal.Binary.readsBack_iff`: the test of the search, which compares whole numbers, is the one
  for the interval.
* `Decimal.Binary.Canonical.contains_shortest`: the printed decimal is in the interval.
* `Decimal.positional_spells`: the text of a decimal.
* `displayNumber_chars`: the characters of the text of a number.
* `readNumber?_displayNumber`: the text of a number is read as that number.
-/

namespace BraceLang

namespace Decimal

variable {b : Binary} {d : Decimal}

/-! ## The interval in whole numbers -/

theorem zpow_toNat {a : ℚ} (ha : a ≠ 0) (exponent : ℤ) :
    a ^ exponent.toNat = a ^ exponent * a ^ (-exponent).toNat := by
  rw [← zpow_natCast, ← zpow_natCast, ← zpow_add₀ ha]
  congr 1
  omega

/-- The quarter of the last place and the step of the grid in one unit. -/
theorem Binary.units_eq (b : Binary) (k : ℤ) : ∃ u : ℚ, 0 < u ∧
    ((b.units k).1 : ℚ) = (2 : ℚ) ^ (b.exponent - 2) * u ∧
    ((b.units k).2 : ℚ) = (10 : ℚ) ^ k * u := by
  have htwo : ((2 : ℚ) ^ (b.exponent - 2).toNat) =
      2 ^ (b.exponent - 2) * 2 ^ (2 - b.exponent).toNat := by
    rw [zpow_toNat two_ne_zero, neg_sub]
  have hten : ((10 : ℚ) ^ k.toNat) = 10 ^ k * 10 ^ (-k).toNat := zpow_toNat (by norm_num) k
  refine ⟨2 ^ (2 - b.exponent).toNat * 10 ^ (-k).toNat, by positivity, ?_, ?_⟩
  · simp only [units, Nat.pow_eq]
    push_cast
    rw [htwo]
    ring
  · simp only [units, Nat.pow_eq]
    push_cast
    rw [hten]
    ring

theorem Binary.readsBack_iff (b : Binary) (d : Decimal) :
    b.readsBack d = true ↔ b.Contains d.value := by
  obtain ⟨u, hu, hquarter, hstep⟩ := b.units_eq d.exponent
  have hpoint : ((d.digits * (b.units d.exponent).2 : ℕ) : ℚ) = d.value * u := by
    push_cast
    rw [hstep, value]
    ring
  have hend (n : ℕ) : ((n * (b.units d.exponent).1 : ℕ) : ℚ) =
      n * (2 : ℚ) ^ (b.exponent - 2) * u := by
    push_cast
    rw [hquarter]
    ring
  unfold readsBack Contains
  dsimp only
  split
  · rw [Bool.and_eq_true, decide_eq_true_eq, decide_eq_true_eq, ← Nat.cast_le (α := ℚ),
      ← Nat.cast_le (α := ℚ), hpoint, hend, hend, mul_le_mul_iff_left₀ hu, mul_le_mul_iff_left₀ hu]
  · rw [Bool.and_eq_true, decide_eq_true_eq, decide_eq_true_eq, ← Nat.cast_lt (α := ℚ),
      ← Nat.cast_lt (α := ℚ), hpoint, hend, hend, mul_lt_mul_iff_left₀ hu, mul_lt_mul_iff_left₀ hu]

/-! ## The search -/

/-- A number is in its own interval. -/
theorem Binary.Canonical.contains_self (hb : b.Canonical) :
    b.Contains (b.mantissa * (2 : ℚ) ^ b.exponent) := by
  have hpos := hb.mantissa_pos
  have hquarter : (0 : ℚ) < 2 ^ (b.exponent - 2) := by positivity
  have hlowest : b.lowest < 4 * b.mantissa := by
    unfold lowest
    split <;> omega
  have hlow : (b.lowest : ℚ) < b.mantissa * 4 := by exact_mod_cast (by omega)
  have hhigh : (b.mantissa * 4 : ℚ) < b.highest := by
    rw [b.cast_highest]
    linarith
  rw [b.four_mul_quarter, ← mul_assoc]
  have hleft := mul_lt_mul_of_pos_right hlow hquarter
  have hright := mul_lt_mul_of_pos_right hhigh hquarter
  unfold Contains
  split
  · exact ⟨hleft.le, hright.le⟩
  · exact ⟨hleft, hright⟩

theorem Binary.value_exact (b : Binary) : b.exact.value = b.mantissa * (2 : ℚ) ^ b.exponent := by
  unfold exact
  split
  · rename_i hnonneg
    obtain ⟨k, hk⟩ := Int.eq_ofNat_of_zero_le hnonneg
    simp [value, hk]
  · rename_i hneg
    obtain ⟨k, hk⟩ : ∃ k : ℕ, b.exponent = -k := ⟨b.exponent.natAbs, by omega⟩
    have hten : (10 : ℚ) ^ k = 5 ^ k * 2 ^ k := by
      rw [← mul_pow]
      norm_num
    simp only [value, hk, neg_neg, Int.toNat_natCast, Nat.pow_eq, zpow_neg, zpow_natCast, hten]
    push_cast
    field_simp

theorem Binary.readsBack_of_nearest?_eq_some {k : ℤ} (h : b.nearest? k = some d) :
    b.readsBack d = true := by
  unfold nearest? at h
  dsimp only at h
  split at h
  · rename_i hbelow habove
    split at h <;> cases h
    · exact hbelow
    · exact habove
  · rename_i hbelow _
    cases h
    exact hbelow
  · rename_i _ habove
    cases h
    exact habove
  · cases h

theorem Binary.Canonical.contains_coarsest (hb : b.Canonical) (grids : ℕ) (k : ℤ) :
    b.Contains (b.coarsest grids k).value := by
  induction grids generalizing k with
  | zero =>
    rw [coarsest, b.value_exact]
    exact hb.contains_self
  | succ grids ih =>
    rw [coarsest]
    split
    · rename_i d hnearest
      exact (b.readsBack_iff d).mp (readsBack_of_nearest?_eq_some hnearest)
    · exact ih (k - 1)

/-- The decimal that is printed for a number is rounded to that number. -/
theorem Binary.Canonical.contains_shortest (hb : b.Canonical) : b.Contains b.shortest.value :=
  hb.contains_coarsest 24 b.tooCoarse

/-! ## Digits and the point -/

theorem isDigit_eq (c : Char) : isDigit c = c.isDigit := by
  rw [isDigit, Char.isDigit]
  rfl

/-- What holds of the ten digits. -/
theorem of_isDigit {p : Char → Prop} (h : ∀ i < 58, 48 ≤ i → p (Char.ofNat i)) {c : Char}
    (hc : isDigit c = true) : p c := by
  simp only [isDigit, Bool.and_eq_true, decide_eq_true_eq] at hc
  have hbound : 48 ≤ c.toNat ∧ c.toNat < 58 := ⟨hc.1, Nat.lt_succ_of_le hc.2⟩
  simpa using h c.toNat hbound.2 hbound.1

theorem isDigit_of_mem_digitsOf {n : ℕ} {c : Char} (h : c ∈ digitsOf n) : isDigit c = true :=
  (isDigit_eq c).trans (Nat.isDigit_of_mem_toDigits (by decide) (by decide) h)

theorem valueOf_eq (digits : List Char) : valueOf digits = Nat.ofDigitChars 10 digits 0 := rfl

theorem valueOf_digitsOf (n : ℕ) : valueOf (digitsOf n) = n := Nat.ofDigitChars_ten_toDigits

theorem valueOf_append_zeros (digits : List Char) (k : ℕ) :
    valueOf (digits ++ List.replicate k '0') = 10 ^ k * valueOf digits := by
  rw [valueOf_eq, valueOf_eq, Nat.ofDigitChars_append, Nat.ofDigitChars_replicate_zero]

theorem valueOf_zeros_append (k : ℕ) (digits : List Char) :
    valueOf (List.replicate k '0' ++ digits) = valueOf digits := by
  rw [valueOf_eq, valueOf_eq, Nat.ofDigitChars_append, Nat.ofDigitChars_replicate_zero, mul_zero]

/-- Digits with at most one point between them. -/
def Spells (text whole fraction : List Char) : Prop :=
  text = whole ∧ fraction = [] ∨ text = whole ++ '.' :: fraction

/-- A decimal is written with digits, at least one of them in front of the point. -/
theorem positional_spells (d : Decimal) : ∃ whole fraction,
    Spells d.positional whole fraction ∧ whole ≠ [] ∧
      (∀ c ∈ whole ++ fraction, isDigit c = true) ∧
      value ⟨valueOf (whole ++ fraction), -fraction.length⟩ = d.value := by
  have hdigits : ∀ c ∈ digitsOf d.digits, isDigit c = true := fun c => isDigit_of_mem_digitsOf
  have hzeros (k : ℕ) : ∀ c ∈ List.replicate k '0', isDigit c = true := by
    intro c hc
    rw [List.eq_of_mem_replicate hc]
    decide
  have hne : digitsOf d.digits ≠ [] := Nat.toDigits_ne_nil
  unfold positional
  dsimp only
  split
  · -- Zeros fill the places behind the digits.
    rename_i hnonneg
    obtain ⟨k, hk⟩ := Int.eq_ofNat_of_zero_le hnonneg
    refine ⟨digitsOf d.digits ++ List.replicate d.exponent.toNat '0', [], .inl ⟨rfl, rfl⟩,
      by simp [hne], ?_, ?_⟩
    · rw [List.append_nil]
      exact fun c hc => (List.mem_append.mp hc).elim (hdigits c) (hzeros _ c)
    · rw [List.append_nil, valueOf_append_zeros, valueOf_digitsOf]
      simp [value, hk, mul_comm]
  · rename_i hneg
    obtain ⟨places, hplaces⟩ : ∃ places : ℕ, d.exponent = -places :=
      ⟨d.exponent.natAbs, by omega⟩
    have htoNat : (-d.exponent).toNat = places := by omega
    rw [htoNat]
    split
    · -- The point stands between the digits.
      rename_i hshort
      refine ⟨_, _, .inr rfl, ?_, ?_, ?_⟩
      · have hfront : (digitsOf d.digits).length - places ≠ 0 := by omega
        simp [List.take_eq_nil_iff, hne, hfront]
      · rw [List.take_append_drop]
        exact hdigits
      · rw [List.take_append_drop, valueOf_digitsOf, List.length_drop]
        simp only [value, hplaces]
        congr 2
        omega
    · -- Zeros fill the places between the point and the digits, and one stands in front of it.
      rename_i hlong
      refine ⟨['0'], List.replicate (places - (digitsOf d.digits).length) '0' ++
        digitsOf d.digits, .inr rfl, by simp, ?_, ?_⟩
      · intro c hc
        rcases List.mem_append.mp hc with hc | hc
        · exact hzeros 1 c hc
        · exact (List.mem_append.mp hc).elim (hzeros _ c) (hdigits c)
      · have hvalue : valueOf (['0'] ++ (List.replicate (places - (digitsOf d.digits).length) '0' ++
            digitsOf d.digits)) = d.digits := by
          rw [← List.append_assoc, show ['0'] = List.replicate 1 '0' from rfl,
            List.replicate_append_replicate, valueOf_zeros_append, valueOf_digitsOf]
        rw [hvalue, List.length_append, List.length_replicate]
        simp only [value, hplaces]
        congr 2
        omega

theorem span_isDigit {digits rest : List Char} (h : ∀ c ∈ digits, isDigit c = true)
    (hrest : ∀ c ∈ rest.head?, isDigit c = false) :
    (digits ++ rest).span isDigit = (digits, rest) := by
  rw [List.span_eq_takeWhile_dropWhile, List.takeWhile_append_of_pos h,
    List.dropWhile_append_of_pos h]
  cases rest with
  | nil => rw [List.takeWhile_nil, List.dropWhile_nil, List.append_nil]
  | cons c rest =>
    have hc : ¬ isDigit c = true := by simpa using hrest c
    rw [List.takeWhile_cons_of_neg hc, List.dropWhile_cons_of_neg hc, List.append_nil]

/-- A text of digits with at most one point is read. -/
theorem read?_of_spells {text whole fraction : List Char} (h : Spells text whole fraction)
    (hne : whole ≠ []) (hdigits : ∀ c ∈ whole ++ fraction, isDigit c = true) :
    read? text = some ⟨valueOf (whole ++ fraction), -fraction.length⟩ := by
  have hwhole : ∀ c ∈ whole, isDigit c = true := fun c hc => hdigits c (by simp [hc])
  have hfraction : ∀ c ∈ fraction, isDigit c = true := fun c hc => hdigits c (by simp [hc])
  rcases h with ⟨rfl, rfl⟩ | rfl
  · have hspan := @span_isDigit text [] hwhole (by simp)
    rw [List.append_nil] at hspan ⊢
    rw [read?, hspan]
    simp [readFraction, hne, readExponent?]
  · have hspan := @span_isDigit whole ('.' :: fraction) hwhole (by simp; decide)
    have hspan' := @span_isDigit fraction [] hfraction (by simp)
    rw [List.append_nil] at hspan'
    have hpoint : readFraction ('.' :: fraction) = (fraction, []) := hspan'
    rw [read?, hspan]
    dsimp only
    rw [hpoint]
    simp [hne, readExponent?]

end Decimal

/-! ## Numbers -/

/-- The characters that the text of a number is made of. -/
def Decimal.numberChars : List Char :=
  ['0', '1', '2', '3', '4', '5', '6', '7', '8', '9', '.', '-', 'i', 'n', 'f', 'N', 'a']

/-- The text of a number is not empty and has no other characters. -/
theorem displayNumber_chars (x : Float) : (displayNumber x).toList ≠ [] ∧
    ∀ c ∈ (displayNumber x).toList, c ∈ Decimal.numberChars := by
  have hsigned : ∀ (negative : Bool) (text : List Char),
      text ≠ [] ∧ (∀ c ∈ text, c ∈ Decimal.numberChars) →
      Decimal.signed negative text ≠ [] ∧
        ∀ c ∈ Decimal.signed negative text, c ∈ Decimal.numberChars := by
    intro negative text h
    cases negative with
    | false => exact h
    | true =>
      exact ⟨List.cons_ne_nil _ _, List.forall_mem_cons.mpr ⟨by decide, h.2⟩⟩
  rw [displayNumber, String.toList_ofList]
  cases Decimal.Parts.ofFloat x with
  | nan => simp [Decimal.Parts.display, Decimal.numberChars]
  | infinite negative => exact hsigned negative _ (by simp [Decimal.numberChars])
  | zero negative => exact hsigned negative _ (by simp [Decimal.numberChars])
  | finite negative magnitude =>
    refine hsigned negative _ ?_
    obtain ⟨whole, fraction, hspells, hne, hdigits, -⟩ := magnitude.shortest.positional_spells
    have hdigit : ∀ c ∈ whole ++ fraction, c ∈ Decimal.numberChars := fun c hc =>
      @Decimal.of_isDigit (· ∈ Decimal.numberChars) (by decide) c (hdigits c hc)
    rcases hspells with ⟨htext, rfl⟩ | htext
    · rw [htext]
      exact ⟨hne, fun c hc => hdigit c (List.mem_append_left _ hc)⟩
    · rw [htext]
      refine ⟨by simp, fun c hc => ?_⟩
      rcases List.mem_append.mp hc with hc | hc
      · exact hdigit c (List.mem_append_left _ hc)
      · rcases List.mem_cons.mp hc with rfl | hc
        · decide
        · exact hdigit c (List.mem_append_right _ hc)

/-- A text that starts with a digit is no name of a number. -/
theorem namedNumber?_of_isDigit {c : Char} (h : Decimal.isDigit c = true) (rest : List Char) :
    namedNumber? (c :: rest) = none := by
  have hlower : c.toLower ≠ 'i' ∧ c.toLower ≠ 'n' :=
    @Decimal.of_isDigit (fun c => c.toLower ≠ 'i' ∧ c.toLower ≠ 'n') (by decide) c h
  simp [namedNumber?, hlower]

theorem readSign_signed {c : Char} (h : Decimal.isDigit c = true) (negative : Bool)
    (rest : List Char) :
    Decimal.readSign (Decimal.signed negative (c :: rest)) = (negative, c :: rest) := by
  cases negative with
  | true => rfl
  | false =>
    change Decimal.readSign (c :: rest) = (false, c :: rest)
    unfold Decimal.readSign
    split
    · rename_i hminus
      cases hminus
      exact absurd h (by decide)
    · rename_i hplus
      cases hplus
      exact absurd h (by decide)
    · rfl

theorem readNumber?_signed_positional (negative : Bool) (d : Decimal) :
    ∃ d' : Decimal, d'.value = d.value ∧
      readNumber? (Decimal.signed negative d.positional) =
        some (if negative then -d'.toFloat else d'.toFloat) := by
  obtain ⟨whole, fraction, hspells, hne, hdigits, hvalue⟩ := d.positional_spells
  refine ⟨_, hvalue, ?_⟩
  have hread := Decimal.read?_of_spells hspells hne hdigits
  obtain ⟨c, rest, htext, hc⟩ : ∃ c rest, d.positional = c :: rest ∧
      Decimal.isDigit c = true := by
    obtain ⟨c, rest, rfl⟩ := List.exists_cons_of_ne_nil hne
    have hc := hdigits c (by simp)
    rcases hspells with ⟨h, _⟩ | h
    · exact ⟨c, rest, h, hc⟩
    · exact ⟨c, _, h, hc⟩
  rw [htext] at hread ⊢
  simp only [readNumber?, readSign_signed hc, namedNumber?_of_isDigit hc, hread]
  rfl

/-- The text of a number is read as that number. -/
theorem readNumber?_displayNumber (x : Float) :
    readNumber? (displayNumber x).toList = some x := by
  rw [displayNumber, String.toList_ofList]
  cases hparts : Decimal.Parts.ofFloat x with
  | nan =>
    rw [Decimal.Parts.ofFloat_nan hparts]
    rfl
  | infinite negative =>
    rw [Decimal.Parts.ofFloat_infinite hparts]
    cases negative <;> rfl
  | zero negative =>
    rw [Decimal.Parts.ofFloat_zero hparts]
    cases negative <;> rfl
  | finite negative b =>
    obtain ⟨hb, hx⟩ := Decimal.Parts.ofFloat_finite hparts
    obtain ⟨d, hd, hread⟩ := readNumber?_signed_positional negative b.shortest
    rw [Decimal.Parts.display, hread,
      Decimal.toFloat_of_contains hb (hd ▸ hb.contains_shortest), hx]
    cases negative with
    | false => rfl
    | true => exact congrArg some (Decimal.neg_ofParts hb)

end BraceLang
