import CoilHub.Proofs.Numbers.Reading

namespace CoilHub.Binary64

theorem size_parts {e s : Nat} (hs : s ≤ 2 ^ 53) (hnormal : 2 ^ 52 ≤ s) :
    size (e * 2 ^ 52 + s) = s * 2 ^ ((e : ℤ) - 1074) := by
  rw [size, magnitude_eq hs (.inr hnormal), unitsPerOne_eq, zpow_sub₀ two_ne_zero, zpow_natCast,
    zpow_ofNat, Nat.cast_mul, Nat.cast_pow, Nat.cast_ofNat, mul_div_assoc]

-- The rank of a power of two that is at least one.
def powerRank (n : Nat) : Nat := (1022 + n) * 2 ^ 52 + 2 ^ 52

theorem size_powerRank (n : Nat) : size (powerRank n) = 2 ^ n := by
  rw [powerRank, size_parts (by norm_num) le_rfl, Nat.cast_pow, Nat.cast_ofNat, ← zpow_natCast,
    ← zpow_natCast, ← zpow_add₀ two_ne_zero]
  congr 1
  push_cast
  ring

theorem exists_size_of_lt {k : ℕ} (hk : k < 2 ^ 53) (i : ℕ) : ∃ r, size r = k * 2 ^ i := by
  rcases Nat.eq_zero_or_pos k with rfl | hpos
  · exact ⟨0, by simp⟩
  have hlog : k.log2 ≤ 52 := by
    have := (Nat.log2_lt hpos.ne').mpr hk
    omega
  -- The bits of the number, moved up until the significand is full.
  have hlow : 2 ^ 52 ≤ k * 2 ^ (52 - k.log2) := by
    calc 2 ^ 52 = 2 ^ k.log2 * 2 ^ (52 - k.log2) := by rw [← pow_add]; congr 1; omega
      _ ≤ k * 2 ^ (52 - k.log2) := Nat.mul_le_mul_right _ (Nat.log2_self_le hpos.ne')
  have hhigh : k * 2 ^ (52 - k.log2) ≤ 2 ^ 53 := by
    calc k * 2 ^ (52 - k.log2) ≤ 2 ^ (k.log2 + 1) * 2 ^ (52 - k.log2) :=
          Nat.mul_le_mul_right _ Nat.lt_log2_self.le
      _ = 2 ^ 53 := by rw [← pow_add]; congr 1; omega
  refine ⟨(1022 + k.log2 + i) * 2 ^ 52 + k * 2 ^ (52 - k.log2), ?_⟩
  rw [size_parts hhigh hlow, Nat.cast_mul, Nat.cast_pow, Nat.cast_ofNat, mul_assoc, ← zpow_natCast,
    ← zpow_natCast, ← zpow_add₀ two_ne_zero]
  congr 2
  omega

theorem whole_of_le {r : Nat} (h : powerRank 53 ≤ r) : ∃ k : ℕ, size r = k := by
  obtain ⟨e, s, rfl, hs, hnormal⟩ := exists_parts r
  rw [powerRank] at h
  have he : 1074 ≤ e := by omega
  refine ⟨s * 2 ^ (e - 1074), ?_⟩
  rw [size_parts hs.le (hnormal.resolve_left (by omega)), Nat.cast_mul, Nat.cast_pow, Nat.cast_ofNat,
    ← zpow_natCast, Nat.cast_sub he]
  rfl

theorem whole_nearest (k : ℕ) : ∃ n : ℕ, size (nearest k) = n := by
  rcases Nat.lt_or_ge k (2 ^ 53) with hlt | hge
  · obtain ⟨r, hr⟩ := exists_size_of_lt hlt 0
    rw [pow_zero, mul_one] at hr
    exact ⟨k, by rw [← hr, nearest_size]⟩
  · refine whole_of_le (le_nearest_of_size ?_)
    rw [size_powerRank]
    exact_mod_cast hge

variable {x : Binary64}

theorem plainNumeral_exponent (x : Binary64) : x.plainNumeral.exponent = none := by
  unfold plainNumeral
  split <;> rfl

-- Without a point, the plain notation is the digits of a natural number.
theorem value_plainNumeral (h : x.plainNumeral.fraction = none) :
    x.plainNumeral.value = digitsValue x.plainNumeral.whole := by
  simp [Numeral.value, Numeral.significand, Numeral.significandDigits, Numeral.scale,
    Numeral.statedExponent, plainNumeral_exponent, h]

theorem plainNumeral_fraction_iff (hx : x.rank < infRank) :
    x.plainNumeral.fraction = none ↔ ∃ k : ℕ, size x.rank = k := by
  constructor
  · intro h
    obtain ⟨k, hk⟩ := whole_nearest (digitsValue x.plainNumeral.whole)
    exact ⟨k, by rw [← nearest_plainNumeral hx, value_plainNumeral h, hk]⟩
  · rintro ⟨k, hk⟩
    unfold plainNumeral
    split
    · rfl
    · rename_i hne
      have hspec := Decimal.shortest_spec .away (Nat.pos_of_ne_zero hne) hx
      obtain ⟨zeros, -, hlead, hproper⟩ := Digits.ofDecimal_spec hspec.significand_pos
      have hexponent := hspec.whole k hk
      have hpos := List.length_pos_iff.mpr hproper.digits.1
      have hfraction : (Digits.ofDecimal (Decimal.shortest .away x.rank)).fraction = [] := by
        rw [Digits.fraction, if_neg (by omega), List.drop_eq_nil_iff]
        omega
      rw [Digits.plain, if_pos hfraction]

theorem plainText_signed (hx : x.rank < infRank) :
    x.plainText = signed x.negative x.plainNumeral.text := by
  rw [plainText_eq hx, signText]
  cases x.negative <;> rfl

theorem trim_plainText (hx : x.rank < infRank) : trim x.plainText = x.plainText := by
  rw [plainText_signed hx]
  exact trim_of_not_blank
    (not_isBlank_of_mem_signed (Numeral.not_isBlank_of_mem_text (canonical_plainNumeral hx)))

-- The plain notation is read back without a loss.
theorem read?_plainText (hx : x.rank < infRank) : Binary64.read? x.plainText = some x := by
  rw [plainText_signed hx, read?_signed (canonical_plainNumeral hx)]
  refine congrArg some (ext_rank rfl ?_)
  rw [rank_rounded, nearest_plainNumeral hx, Nat.min_eq_left hx.le]

theorem splitSign_plainText (hx : x.rank < infRank) :
    splitSign x.plainText = (x.negative, x.plainNumeral.text) := by
  obtain ⟨c, rest, htext, hc⟩ := (canonical_plainNumeral hx).exists_cons
  rw [plainText_signed hx, htext, splitSign_signed hc]

-- The integer that a double without a point is shown as.
def shownInt (x : Binary64) : Int := signedInt x.negative (digitsValue x.plainNumeral.whole)

theorem readInt?_plainText {lowest highest : Int} (hx : x.rank < infRank) :
    readInt? lowest highest x.plainText =
      if x.plainNumeral.fraction = none ∧ lowest ≤ x.shownInt ∧ x.shownInt ≤ highest
      then some (x.shownInt) else none := by
  cases hfraction : x.plainNumeral.fraction with
  | some digits =>
      have hpoint : '.' ∈ x.plainNumeral.text := by
        simp [Numeral.text, Numeral.fractionText, hfraction]
      rw [readInt?_eq_none_of_point (splitSign_plainText hx) hpoint, if_neg (by simp)]
  | none =>
      have htext : x.plainNumeral.text = x.plainNumeral.whole := by
        simp [Numeral.text, Numeral.fractionText, Numeral.powerText, hfraction, plainNumeral_exponent]
      obtain ⟨hne, hdigits⟩ := (canonical_plainNumeral hx).whole
      rw [readInt?_eq (splitSign_plainText hx), htext, readDigits?_of_digits hne hdigits,
        Option.bind_some]
      simp only [shownInt, true_and]

-- A whole number below `2 ^ 63`.
def IsShort (x : Binary64) : Prop := ∃ k : ℕ, k < 2 ^ 63 ∧ size x.rank = k

theorem IsShort.rank_lt (h : IsShort x) : x.rank < powerRank 63 := by
  obtain ⟨k, hk, hsize⟩ := h
  apply size_strictMono.lt_iff_lt.mp
  rw [hsize, size_powerRank]
  exact_mod_cast hk

-- What is shown for `2 ^ 63` are its leading digits, and they stand for more than it.
theorem whole_powerRank (hx : x.rank = powerRank 63) :
    x.plainNumeral.whole = "9223372036854776000".toList := by
  have hdigits : (Digits.ofDecimal (Decimal.shortest .away (powerRank 63))).whole =
      "9223372036854776000".toList := by decide +kernel
  rw [plainNumeral, hx, if_neg (by decide), Digits.plain, hdigits]

-- Rounding does not cross `2 ^ 63`, so that what is shown is in the range of integers just when the
-- double is.
theorem shownInt_mem_iff (hx : x.rank < infRank) (hwhole : x.plainNumeral.fraction = none) :
    -2 ^ 63 ≤ x.shownInt ∧ x.shownInt ≤ 2 ^ 63 - 1 ↔ x.rank < powerRank 63 := by
  have hnearest := nearest_plainNumeral hx
  rw [value_plainNumeral hwhole] at hnearest
  rcases lt_trichotomy x.rank (powerRank 63) with hlt | heq | hgt
  · have hshown : digitsValue x.plainNumeral.whole < 2 ^ 63 := by
      by_contra hge
      have hle : powerRank 63 ≤ nearest (digitsValue x.plainNumeral.whole) := by
        apply le_nearest_of_size
        rw [size_powerRank]
        exact_mod_cast not_lt.mp hge
      omega
    refine iff_of_true ?_ hlt
    unfold shownInt signedInt
    split <;> omega
  · have hshown : digitsValue x.plainNumeral.whole = 9223372036854776000 := by
      rw [whole_powerRank heq]
      decide
    refine iff_of_false ?_ (by omega)
    unfold shownInt signedInt
    split <;> omega
  · have hshown : 2 ^ 63 < digitsValue x.plainNumeral.whole := by
      by_contra hle
      have hle' : nearest (digitsValue x.plainNumeral.whole) ≤ nearest (size (powerRank 63)) := by
        apply nearest_le_nearest (by positivity)
        rw [size_powerRank]
        exact_mod_cast not_lt.mp hle
      rw [nearest_size] at hle'
      omega
    refine iff_of_false ?_ (by omega)
    unfold shownInt signedInt
    split <;> omega

theorem isShort_iff (hx : x.rank < infRank) :
    IsShort x ↔
      x.plainNumeral.fraction = none ∧ -2 ^ 63 ≤ x.shownInt ∧ x.shownInt ≤ 2 ^ 63 - 1 := by
  constructor
  · intro h
    obtain ⟨k, -, hsize⟩ := id h
    have hwhole := (plainNumeral_fraction_iff hx).mpr ⟨k, hsize⟩
    exact ⟨hwhole, (shownInt_mem_iff hx hwhole).mpr h.rank_lt⟩
  · rintro ⟨hwhole, hrange⟩
    obtain ⟨k, hsize⟩ := (plainNumeral_fraction_iff hx).mp hwhole
    refine ⟨k, ?_, hsize⟩
    have hlt := size_strictMono ((shownInt_mem_iff hx hwhole).mp hrange)
    rw [hsize, size_powerRank] at hlt
    exact_mod_cast hlt

end CoilHub.Binary64
