import CoilHub.Proofs.Json.Range

namespace CoilHub

namespace Numeral

open Binary64

variable {n : Numeral} {y : Binary64}

-- A numeral is out of range if its leading digits are, in the arithmetic of doubles.
def Overflows (n : Numeral) : Prop := JsonNumber.Overflows n.leading.value n.power

-- The double that a numeral is read as: in range, with the sign that is written, and so near to the value
-- that few other doubles are nearer. It is the nearest one if the digits and the power of ten are doubles.
structure Reads (n : Numeral) (x : Binary64) : Prop where
  negative : x.negative = n.negative
  finite : x.isFinite
  zero : n.significand = 0 → x.rank = 0
  above : x.rank ≤ nearest n.value + 4
  below : nearest n.value ≤ x.rank + 4
  exact : n.significand < 2 ^ 53 → n.scale.natAbs ≤ 22 → x.rank = nearest n.value

theorem leading_eq_zero (hn : n.Canonical) (h : n.value = 0) : n.leading.value = 0 := by
  have hleft := (value_within hn).left
  rw [h, zero_mul] at hleft
  have hpow : (0 : ℚ) < 10 ^ n.power := by positivity
  have hle : (n.leading.value : ℚ) ≤ 0 := nonpos_of_mul_nonpos_left hleft hpow
  exact_mod_cast hle.antisymm (Nat.cast_nonneg _)

theorem value_eq_zero (hn : n.Canonical) (h : n.leading.value = 0) : n.value = 0 := by
  have hwithin := value_within hn
  rw [h, Nat.cast_zero, zero_mul] at hwithin
  exact hwithin.eq_zero n.value_nonneg

-- What the leading digits are worth in the arithmetic of doubles, before the last rounding.
theorem multiplied_within (hn : n.Canonical) (hpos : 0 < n.leading.value) (he : 0 ≤ n.power) :
    Within (1 + 3 / 2 ^ 53) (JsonNumber.multiplied n.leading.value n.power.toNat) n.value := by
  have hcut := value_within hn
  rw [JsonNumber.mul_zpow_toNat _ he] at hcut
  exact JsonNumber.within_cut (JsonNumber.within_multiplied hpos _) hcut
    (JsonNumber.multiplied_nonneg ..) n.value_nonneg

theorem range_eq : (2 : ℚ) ^ 1024 = 2 ^ 54 * 2 ^ 970 ∧ (2 : ℚ) ^ 973 = 8 * 2 ^ 970 := by
  constructor
  · rw [← pow_add]
  · rw [show (8 : ℚ) = 2 ^ 3 by norm_num, ← pow_add]

-- The range ends where that of the doubles does, give or take four of their steps.
theorem not_overflows_of_le (hn : n.Canonical) (h : n.value ≤ 2 ^ 1024 - 2 ^ 973) : ¬n.Overflows := by
  rintro ⟨he, hover⟩
  have hunit : (0 : ℚ) < 2 ^ 970 := by positivity
  rw [range_eq.1] at hover h
  rw [range_eq.2] at h
  generalize (2 : ℚ) ^ 970 = unit at *
  rcases Nat.eq_zero_or_pos n.leading.value with hzero | hpos
  · rw [hzero, JsonNumber.multiplied_zero] at hover
    linarith
  · have hleft := (multiplied_within hn hpos he).left
    linarith

theorem overflows_of_le (hn : n.Canonical) (h : 2 ^ 1024 + 2 ^ 973 ≤ n.value) : n.Overflows := by
  have hunit : (0 : ℚ) < 2 ^ 970 := by positivity
  have hlarge : (2 : ℚ) ^ 66 ≤ 2 ^ 970 := pow_le_pow_right₀ (by norm_num) (by norm_num)
  rw [range_eq.1, range_eq.2] at h
  rw [Overflows, JsonNumber.Overflows, range_eq.1]
  generalize (2 : ℚ) ^ 970 = unit at *
  have hpos : 0 < n.leading.value := by
    by_contra hzero
    rw [value_eq_zero hn (by omega)] at h
    linarith
  have he : 0 ≤ n.power := by
    by_contra hlt
    have hsmall : (n.leading.value : ℚ) * 10 ^ n.power ≤ 2 ^ 64 :=
      (mul_le_of_le_one_right (by positivity) (zpow_le_one_of_nonpos₀ (by norm_num) (by omega))).trans
        (JsonNumber.natural_le_of_le n.leading_le)
    have hright := (value_within hn).right
    linarith
  have hright := (multiplied_within hn hpos he).right
  exact ⟨he, by linarith⟩

theorem reads_of_scaled (hn : n.Canonical) (h : JsonNumber.Scaled n.leading.value n.power y) :
    n.Reads (if n.negative then y.neg else y) := by
  have hnegative : (if n.negative then y.neg else y).negative = n.negative := by
    cases hsign : n.negative <;> simp [neg, h.negative]
  have hrank : (if n.negative then y.neg else y).rank = y.rank := by
    cases n.negative <;> rfl
  have hboth : y.rank ≤ nearest n.value + 4 ∧ nearest n.value ≤ y.rank + 4 := by
    rcases Nat.eq_zero_or_pos n.leading.value with hzero | hpos
    · rw [h.zero hzero, value_eq_zero hn hzero, nearest_zero]
      exact ⟨Nat.zero_le _, Nat.zero_le _⟩
    · exact h.near hpos _ n.value_nonneg (value_within hn)
  refine ⟨hnegative, ?_, fun hzero => ?_, hrank ▸ hboth.1, hrank ▸ hboth.2, fun hshort hsmall => ?_⟩
  · rw [isFinite_iff, hrank]
    exact h.finite
  · rw [hrank]
    exact h.zero (leading_eq_zero hn (by rw [value, hzero, Nat.cast_zero, zero_mul]))
  · obtain ⟨hdigits, hpower⟩ := leading_of_le (hshort.le.trans (by decide : 2 ^ 53 ≤ Significand.highest))
    have hexact := h.exact
    rw [hdigits, hpower] at hexact
    rw [hrank, value]
    exact hexact hshort hsmall

section Reading

-- A numeral whose digits all stand in front of the point and fit, without a power of ten.
structure Whole (n : Numeral) : Prop where
  fraction : n.fraction = none
  exponent : n.exponent = none
  fits : n.significand ≤ Significand.highest

theorem significand_of_fraction (h : n.fraction = none) : n.significand = digitsValue n.whole := by
  rw [significand, significandDigits, h, Option.getD_none, List.append_nil]

theorem whole_iff : n.Whole ↔ n.fraction = none ∧ n.exponent = none ∧
    (Significand.addWhole ⟨0, 0⟩ n.whole).exponent = 0 := by
  rw [Significand.addWhole_exponent_iff (Nat.zero_le _), Nat.zero_mul, Nat.zero_add]
  constructor
  · rintro ⟨hfraction, hexponent, hfits⟩
    exact ⟨hfraction, hexponent, significand_of_fraction hfraction ▸ hfits⟩
  · rintro ⟨hfraction, hexponent, hfits⟩
    exact ⟨hfraction, hexponent, (significand_of_fraction hfraction).symm ▸ hfits⟩

-- All other numerals are scaled.
theorem jsonNumber?_scaled (h : ¬n.Whole) :
    n.jsonNumber? = (JsonNumber.scale? n.leading.value n.power).map fun x =>
      .float (if n.negative then x.neg else x) :=
  jsonNumber?_leading (whole_iff.not.mp h)

theorem Whole.jsonNumber? (h : n.Whole) :
    n.jsonNumber? =
      if n.negative = false then some (.natural n.significand)
      else if 0 < n.significand ∧ n.significand ≤ 2 ^ 63 then some (.negative (-(n.significand : ℤ)))
      else some (.float (ofInt n.significand).neg) := by
  have hdigits := significand_of_fraction h.fraction
  have hvalue : 0 * 10 ^ n.whole.length + digitsValue n.whole = digitsValue n.whole := by simp
  have hadded : Significand.addWhole ⟨0, 0⟩ n.whole = ⟨n.significand, 0⟩ := by
    rw [addWhole_of_le 0 (by rw [hvalue, ← hdigits]; exact h.fits), hvalue, hdigits]
  rw [Numeral.jsonNumber?, hadded, if_pos ⟨h.fraction, h.exponent, rfl⟩]
  cases n.negative <;> rfl

theorem Whole.scale_eq (h : n.Whole) : n.scale = 0 := by
  rw [scale, statedExponent, h.fraction, h.exponent]
  rfl

theorem Whole.value_eq (h : n.Whole) : n.value = n.significand := by
  rw [value, h.scale_eq, zpow_zero, mul_one]

theorem not_overflows_unscaled {m : ℕ} (hm : m ≤ Significand.highest) : ¬JsonNumber.Overflows m 0 := by
  rintro ⟨-, hover⟩
  have hone : size 1 ≤ 1 := (size_strictMono.monotone (by decide)).trans size_full_le_one
  have hsize := JsonNumber.size_nearest_le_two (q := m) (by positivity)
  have hm' := JsonNumber.natural_le_of_le hm
  have hunit : (2 : ℚ) ^ 66 ≤ 2 ^ 970 := pow_le_pow_right₀ (by norm_num) (by norm_num)
  rw [JsonNumber.multiplied, Int.toNat_zero, size_nearest_pow (by decide), pow_zero, mul_one,
    range_eq.1] at hover
  generalize (2 : ℚ) ^ 970 = unit at *
  linarith

theorem Whole.not_overflows (h : n.Whole) : ¬n.Overflows := by
  have hpower := (leading_of_le h.fits).2
  rw [h.scale_eq] at hpower
  rw [Overflows, hpower]
  exact not_overflows_unscaled n.leading_le

theorem isSome_jsonNumber? : n.jsonNumber?.isSome ↔ ¬n.Overflows := by
  by_cases hwhole : n.Whole
  · rw [hwhole.jsonNumber?]
    have hnot := hwhole.not_overflows
    split
    · simpa using hnot
    · split <;> simpa using hnot
  · rw [jsonNumber?_scaled hwhole, Option.isSome_map]
    constructor
    · intro hsome hover
      rw [JsonNumber.scale?_of_overflows n.leading_le hover] at hsome
      cases hsome
    · intro hover
      obtain ⟨y, hy, -⟩ := JsonNumber.scale?_scaled n.leading_le hover
      rw [hy]
      rfl

-- A double that is made of the digits as they are.
theorem Whole.reads (h : n.Whole) : n.Reads (if n.negative then (ofInt n.significand).neg
    else ofInt n.significand) := by
  have hrank := rank_ofInt (JsonNumber.le_highest_power_of_le h.fits)
  have hsame : (if n.negative then (ofInt n.significand).neg else ofInt n.significand).rank =
      nearest n.value := by
    rw [h.value_eq, ← hrank]
    cases n.negative <;> rfl
  refine ⟨?_, ?_, fun hzero => ?_, hsame.le.trans (Nat.le_add_right ..), hsame.ge.trans (Nat.le_add_right ..),
    fun _ _ => hsame⟩
  · cases hsign : n.negative <;> simp [neg, JsonNumber.negative_ofInt]
  · rw [isFinite_iff, hsame, h.value_eq, ← hrank]
    exact JsonNumber.finite_ofInt (JsonNumber.le_highest_power_of_le h.fits)
  · rw [hsame, h.value_eq, hzero, Nat.cast_zero, nearest_zero]

-- A numeral that stands for an integer as it is written, and which one. Negative zero does not.
structure IsInteger (n : Numeral) (i : ℤ) : Prop where
  fraction : n.fraction = none
  exponent : n.exponent = none
  sign : n.negative = true → n.significand ≠ 0
  value : signedInt n.negative n.significand = i

end Reading

end Numeral

end CoilHub
