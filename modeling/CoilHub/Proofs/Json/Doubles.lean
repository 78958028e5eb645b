import CoilHub.Proofs.Json.Leading

namespace CoilHub

section Reading

variable {n : Numeral}

-- A numeral with a point or an exponent is scaled as it says, if all its digits fit.
theorem jsonNumber?_eq (hmarked : ¬(n.fraction = none ∧ n.exponent = none))
    (hfits : n.significand ≤ Significand.highest) :
    n.jsonNumber? = (JsonNumber.scale? n.significand n.scale).map fun x =>
      .float (if n.negative then x.neg else x) := by
  obtain ⟨hvalue, hpower⟩ := Numeral.leading_of_le hfits
  rw [Numeral.jsonNumber?_leading fun h => hmarked ⟨h.1, h.2.1⟩, hvalue, hpower]

theorem jsonNumber?_signed (negative : Bool) (hmarked : ¬(n.fraction = none ∧ n.exponent = none))
    (hfits : n.significand ≤ Significand.highest) :
    ({ n with negative } : Numeral).jsonNumber? = (JsonNumber.scale? n.significand n.scale).map fun x =>
      .float (if negative then x.neg else x) :=
  jsonNumber?_eq (n := { n with negative }) hmarked hfits

end Reading

namespace Digits

variable {d : Digits}

theorem length_fraction (hd : d.digits ≠ []) (hne : d.fraction ≠ []) :
    -(d.fraction.length : ℤ) = d.lead + 1 - d.digits.length := by
  have hlength := List.length_pos_iff.mpr hd
  have hpos := List.length_pos_iff.mpr hne
  unfold fraction at hpos ⊢
  split at hpos
  · rename_i hlead
    rw [if_pos hlead, List.length_append, List.length_replicate]
    omega
  · rename_i hlead
    rw [if_neg hlead, List.length_drop]
    rw [List.length_drop] at hpos
    omega

-- With something behind the point, the digits on both sides of it are the digits of the number, with
-- zeros in front at most.
theorem digitsValue_split (hd : d.digits ≠ []) (hne : d.fraction ≠ []) :
    digitsValue (d.whole ++ d.fraction) = digitsValue d.digits := by
  have hsplit := value_split hd
  rw [value, length_fraction hd hne] at hsplit
  have hpow : (10 : ℚ) ^ (d.lead + 1 - d.digits.length) ≠ 0 := zpow_ne_zero _ (by norm_num)
  exact_mod_cast mul_right_cancel₀ hpow hsplit

theorem scale_pointed (hd : d.digits ≠ []) :
    d.pointed.scale = if d.fraction = [] then -1 else d.lead + 1 - d.digits.length := by
  simp only [pointed, Numeral.scale, Numeral.statedExponent, Option.getD_some, zero_sub]
  split
  · rfl
  · rename_i hne
    exact length_fraction hd hne

theorem Proper.significand_pointed_le (h : d.Proper) (hlead : d.lead ≤ 15)
    (hle : digitsValue d.digits ≤ 10 ^ 17) : d.pointed.significand ≤ 10 ^ 17 := by
  simp only [pointed, Numeral.significand, Numeral.significandDigits, Option.getD_some]
  split
  · rename_i hnil
    -- Nothing behind the point, so that there are no more than sixteen digits in front of it.
    have hlength : d.whole.length ≤ 16 := by
      unfold fraction at hnil
      unfold whole
      split
      · decide
      · rename_i hlead'
        rw [if_neg hlead', List.drop_eq_nil_iff] at hnil
        rw [List.length_append, List.length_take, List.length_replicate]
        omega
    have hwhole := digitsValue_lt_pow h.isDigits_whole.2
    have hpow : 10 ^ d.whole.length ≤ 10 ^ 16 := Nat.pow_le_pow_right (by decide) hlength
    have hzero : digitsValue ['0'] = 0 := rfl
    rw [digitsValue_append, hzero, List.length_singleton]
    omega
  · rename_i hne
    rw [digitsValue_split h.digits.1 hne]
    exact hle

end Digits

namespace Binary64

variable {x : Binary64}

-- What makes a numeral of a document readable.
structure Readable (n : Numeral) : Prop where
  marked : ¬(n.fraction = none ∧ n.exponent = none)
  significand_le : n.significand ≤ 10 ^ 17
  scale_ge : -330 ≤ n.scale
  scale_le : n.scale ≤ 308

theorem scale_le_of_lt {m : ℕ} {e : ℤ} (hm : 0 < m) (h : nearest (m * 10 ^ e) < infRank) : e ≤ 308 := by
  by_contra hlt
  have hpowers : 2 ^ 1024 ≤ 10 ^ 309 := by decide +kernel
  have hhuge : size infRank ≤ m * 10 ^ e := by
    rw [size_infRank]
    calc (2 : ℚ) ^ 1024 ≤ 10 ^ 309 := by exact_mod_cast hpowers
      _ = 10 ^ (309 : ℤ) := (zpow_natCast _ 309).symm
      _ ≤ 10 ^ e := zpow_le_zpow_right₀ (by norm_num) (by omega)
      _ ≤ m * 10 ^ e := le_mul_of_one_le_left (by positivity) (by exact_mod_cast hm)
  exact absurd (le_nearest_of_size hhuge) (not_le.mpr h)

theorem readable_documented {d : Decimal} (hsignificand : 0 < d.significand)
    (hle : d.significand ≤ 10 ^ 17) (hexponent : -324 ≤ d.exponent)
    (hfinite : nearest d.value < infRank) :
    Readable (Digits.ofDecimal d).documented := by
  obtain ⟨zeros, hvalue, hlead, hproper⟩ := Digits.ofDecimal_spec hsignificand
  have hvalued := Digits.value_ofDecimal hsignificand
  have hne := hproper.digits.1
  generalize Digits.ofDecimal d = written at *
  have hdigits : digitsValue written.digits ≤ 10 ^ 17 :=
    (Nat.le_mul_of_pos_right _ (Nat.pow_pos (by decide))).trans (hvalue ▸ hle)
  unfold Digits.documented
  split
  · rename_i hshort
    have hscale := Digits.scale_pointed hne
    refine ⟨by simp [Digits.pointed], hproper.significand_pointed_le hshort.2 hdigits, ?_, ?_⟩ <;>
      rw [hscale] <;> split
    · decide
    · omega
    · decide
    · omega
  · have hscale := Digits.scale_powered hne
    have hpos : 0 < digitsValue written.digits := by
      rw [Nat.pos_iff_ne_zero]
      rintro hzero
      rw [hzero, Nat.zero_mul] at hvalue
      omega
    refine ⟨by simp [Digits.powered], by rwa [Digits.significand_powered], ?_, ?_⟩
    · rw [hscale]
      omega
    · rw [hscale]
      refine scale_le_of_lt hpos ?_
      rw [← hvalued, Digits.value] at hfinite
      exact hfinite

theorem readable_documentNumeral (hx : x.rank < infRank) : Readable x.documentNumeral := by
  unfold documentNumeral
  split
  · exact ⟨by decide, by decide, by decide, by decide⟩
  · rename_i hne
    have hspec := Decimal.shortest_spec .even (Nat.pos_of_ne_zero hne) hx
    exact readable_documented hspec.significand_pos hspec.significand_le hspec.exponent_ge
      (hspec.reads.symm ▸ hx)

-- The two highest doubles are so close to the end that only their own digits tell.
theorem nearest_multiplied_highest {m n : ℕ} (hm : m ≤ 10 ^ 308) (hn : n ≤ 308)
    (hproduct : ((ofInt m).mul (JsonNumber.powerOfTen n)).rank < infRank) :
    nearest (JsonNumber.multiplied m n) < infRank := by
  have hpower := rank_powerOfTen hn
  have hpowerFinite : (JsonNumber.powerOfTen n).rank < infRank := by
    rw [hpower]
    exact nearest_lt_infRank (by positivity) (pow_le_pow_right₀ (by norm_num) hn)
  rw [mul_eq (JsonNumber.finite_ofInt hm) hpowerFinite, rank_ofInt hm, hpower, rank_rounded] at hproduct
  exact (min_lt_iff.mp hproduct).resolve_right (lt_irrefl _)

theorem documented_highest :
    (Digits.ofDecimal (Decimal.shortest .even (infRank - 1))).documented =
      { whole := ['1'], fraction := some "7976931348623157".toList,
        exponent := some (false, "308".toList) } := by decide +kernel

theorem documented_second_highest :
    (Digits.ofDecimal (Decimal.shortest .even (infRank - 2))).documented =
      { whole := ['1'], fraction := some "7976931348623155".toList,
        exponent := some (false, "308".toList) } := by decide +kernel

theorem documentNumeral_of_pos (hx : 0 < x.rank) :
    x.documentNumeral = (Digits.ofDecimal (Decimal.shortest .even x.rank)).documented :=
  if_neg hx.ne'

theorem nearest_multiplied_documentNumeral (hx : x.rank < infRank)
    (hscale : 0 ≤ x.documentNumeral.scale) :
    nearest (JsonNumber.multiplied x.documentNumeral.significand x.documentNumeral.scale.toNat) <
      infRank := by
  have hnearest := nearest_documentNumeral hx
  rcases Nat.eq_zero_or_pos x.documentNumeral.significand with hzero | hpos
  · rw [hzero, JsonNumber.multiplied, Nat.cast_zero, nearest_zero, size_zero, zero_mul, nearest_zero]
    decide
  have hpow : (10 : ℚ) ^ x.documentNumeral.scale = 10 ^ x.documentNumeral.scale.toNat := by
    rw [← zpow_natCast, Int.toNat_of_nonneg hscale]
  have habove := (JsonNumber.nearest_multiplied hpos x.documentNumeral.scale.toNat).1
  rw [← hpow, ← Numeral.value, hnearest] at habove
  by_cases hroom : x.rank + 2 < infRank
  · omega
  have hrank : 0 < x.rank := by
    have : 2 < infRank := by decide
    omega
  rcases (show x.rank = infRank - 1 ∨ x.rank = infRank - 2 by omega) with hlast | hlast
  · rw [documentNumeral_of_pos hrank, hlast, documented_highest]
    exact nearest_multiplied_highest (show 17976931348623157 ≤ 10 ^ 308 by decide +kernel)
      (show 292 ≤ 308 by decide) (by decide +kernel)
  · rw [documentNumeral_of_pos hrank, hlast, documented_second_highest]
    exact nearest_multiplied_highest (show 17976931348623155 ≤ 10 ^ 308 by decide +kernel)
      (show 292 ≤ 308 by decide) (by decide +kernel)

-- The double that is read for the numeral of another one.
theorem exists_outcome (hx : x.rank < infRank) :
    ∃ y, JsonNumber.scale? x.documentNumeral.significand x.documentNumeral.scale = some y ∧
      JsonNumber.Outcome x.documentNumeral.significand x.documentNumeral.scale y := by
  have hread := readable_documentNumeral hx
  exact JsonNumber.scale?_spec hread.significand_le hread.scale_ge hread.scale_le
    (nearest_multiplied_documentNumeral hx)

end Binary64

end CoilHub
