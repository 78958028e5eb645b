import CoilHub.Proofs.Json.Leading
import CoilHub.Proofs.Numbers.Nearest

namespace CoilHub

namespace Binary64

section Within

variable {w w' p q r : ℚ}

theorem Within.trans (h : Within w p q) (h' : Within w' q r) (hw : 0 ≤ w) (hw' : 0 ≤ w') :
    Within (w * w') p r := by
  constructor
  · calc p ≤ q * w := h.left
      _ ≤ r * w' * w := mul_le_mul_of_nonneg_right h'.left hw
      _ = r * (w * w') := by ring
  · calc r ≤ q * w' := h'.right
      _ ≤ p * w * w' := mul_le_mul_of_nonneg_right h.right hw'
      _ = p * (w * w') := by ring

theorem Within.mono (h : Within w p q) (hw : w ≤ w') (hp : 0 ≤ p) (hq : 0 ≤ q) : Within w' p q :=
  ⟨h.left.trans (mul_le_mul_of_nonneg_left hw hq), h.right.trans (mul_le_mul_of_nonneg_left hw hp)⟩

theorem Within.eq_zero (h : Within w 0 q) (hq : 0 ≤ q) : q = 0 :=
  le_antisymm (by simpa using h.right) hq

-- Three parts in `2 ^ 53` are worth less than three places.
theorem nearest_of_within (h : Within (1 + 3 / 2 ^ 53) p q) (hp : 0 ≤ p) (hq : 0 ≤ q) :
    nearest p ≤ nearest q + 3 ∧ nearest q ≤ nearest p + 3 :=
  ⟨nearest_le_of_le (c := 3) (d := 0) hp hq (by norm_num) le_rfl (by simpa using h.left) (by norm_num),
    nearest_le_of_le (c := 3) (d := 0) hq hp (by norm_num) le_rfl (by simpa using h.right) (by norm_num)⟩

theorem nearest_of_tiny (hq : 0 ≤ q) (h : 2 * q < size 1) : nearest q = 0 := by
  have hrank := congrArg rank (rounded_of_tiny false hq h)
  rw [rank_rounded] at hrank
  exact (Nat.min_eq_zero_iff.mp hrank).resolve_right (by decide)

end Within

-- Two divisions one after the other, each by a power of ten that is rounded, and a number that is not
-- quite the one that is divided. What the first division is off by in absolute terms is divided, too.
theorem nearest_of_dividedTwice {a b m q t T : ℚ} (hq : 0 ≤ q) (hb : 0 ≤ b) (ht : 10 ≤ t)
    (hfirst : Within ((1 + 1 / 2 ^ 53) * (1 + 1 / 2 ^ 56)) a m)
    (hbelow : b ≤ a * (1 + 1 / 2 ^ 53) + 1 / 2 * size 1)
    (habove : a ≤ b * (1 + 1 / 2 ^ 53) + 1 / 2 * size 1)
    (hsecond : Within (1 + 1 / 2 ^ 53) T t) (hcut : Within (1 + 1 / 10 ^ 18) (m / t) q) :
    nearest (b / T) ≤ nearest q + 4 ∧ nearest q ≤ nearest (b / T) + 4 := by
  have hone := size_pos one_pos
  have htpos : 0 < t := by linarith
  have hT : 9 ≤ T := by
    have hleast := hsecond.right
    by_contra hlt
    rw [not_le] at hlt
    have : T * (1 + 1 / 2 ^ 53 : ℚ) ≤ 9 * (1 + 1 / 2 ^ 53) :=
      mul_le_mul_of_nonneg_right hlt.le (by norm_num)
    linarith
  have hTpos : 0 < T := by linarith
  have hshare : size 1 * 9 ≤ size 1 * T := mul_le_mul_of_nonneg_left hT hone.le
  obtain ⟨hfirst, hfirst'⟩ := hfirst
  obtain ⟨hsecond, hsecond'⟩ := hsecond
  obtain ⟨hcut, hcut'⟩ := hcut
  rw [div_le_iff₀ htpos] at hcut
  rw [div_mul_eq_mul_div, le_div_iff₀ htpos] at hcut'
  have hqT : 0 ≤ q * T := mul_nonneg hq hTpos.le
  have hqt : 0 ≤ q * t := mul_nonneg hq htpos.le
  have hleft : b / T ≤ q * (1 + 16 / 5 / 2 ^ 53) + 1 / 10 * size 1 := by
    rw [div_le_iff₀ hTpos]
    have hqstep : q * t ≤ q * (T * (1 + 1 / 2 ^ 53)) := mul_le_mul_of_nonneg_left hsecond' hq
    linarith
  have hright : q ≤ b / T * (1 + 16 / 5 / 2 ^ 53) + 1 / 10 * size 1 := by
    rw [div_mul_eq_mul_div, div_add' _ _ _ hTpos.ne', le_div_iff₀ hTpos]
    have hqstep : q * T ≤ q * (t * (1 + 1 / 2 ^ 53)) := mul_le_mul_of_nonneg_left hsecond hq
    linarith
  exact ⟨nearest_le_of_le (div_nonneg hb hTpos.le) hq (by norm_num) (by norm_num) hleft (by norm_num),
    nearest_le_of_le hq (div_nonneg hb hTpos.le) (by norm_num) (by norm_num) hright (by norm_num)⟩

end Binary64

namespace JsonNumber

open Binary64

variable {m n : ℕ} {e : ℤ} {y : Binary64} {q : ℚ}

-- What scaling makes of a significand, whatever the power of ten.
structure Scaled (m : ℕ) (e : ℤ) (y : Binary64) : Prop where
  negative : y.negative = false
  finite : y.rank < infRank
  zero : m = 0 → y.rank = 0
  -- also for a number that the significand is only the leading digits of
  near : 0 < m → ∀ q, 0 ≤ q → Within (1 + 1 / 10 ^ 18) (m * 10 ^ e) q →
    y.rank ≤ nearest q + 4 ∧ nearest q ≤ y.rank + 4
  exact : m < 2 ^ 53 → e.natAbs ≤ 22 → y.rank = nearest (m * 10 ^ e)

theorem le_highest_power_of_le (hm : m ≤ Significand.highest) : m ≤ 10 ^ 308 :=
  le_trans hm (by decide +kernel)

theorem natural_le_of_le (hm : m ≤ Significand.highest) : (m : ℚ) ≤ 2 ^ 64 := by
  have hle : m ≤ 2 ^ 64 := le_trans hm (by decide)
  exact_mod_cast hle

theorem multiplied_nonneg (m n : ℕ) : 0 ≤ multiplied m n := mul_nonneg (size_nonneg _) (size_nonneg _)

theorem within_multiplied (hm : 0 < m) (n : ℕ) :
    Within ((1 + 1 / 2 ^ 53) * (1 + 1 / 2 ^ 53)) (multiplied m n) (m * 10 ^ n) :=
  (within_natural hm).mul (within_pow n) (size_nonneg _) (by positivity) (size_nonneg _) (by positivity)
    (by norm_num)

theorem within_divided (hm : 0 < m) (n : ℕ) :
    Within ((1 + 1 / 2 ^ 53) * (1 + 1 / 2 ^ 53)) (divided m n) (m / 10 ^ n) :=
  (within_natural hm).div (within_pow n) (size_nonneg _) (by positivity) (size_nearest_pow_pos n)
    (by positivity) (by norm_num)

-- Two roundings and a cut, before the last rounding.
theorem within_cut {p t : ℚ} (h : Within ((1 + 1 / 2 ^ 53) * (1 + 1 / 2 ^ 53)) p t)
    (hcut : Within (1 + 1 / 10 ^ 18) t q) (hp : 0 ≤ p) (hq : 0 ≤ q) : Within (1 + 3 / 2 ^ 53) p q :=
  (h.trans hcut (by norm_num) (by norm_num)).mono (by norm_num) hp hq

theorem mul_zpow_toNat (m : ℕ) (he : 0 ≤ e) : (m : ℚ) * 10 ^ e = m * 10 ^ e.toNat := by
  rw [← zpow_natCast, Int.toNat_of_nonneg he]

theorem multiplied_zero (n : ℕ) : multiplied 0 n = 0 := by
  rw [multiplied, Nat.cast_zero, nearest_zero, size_zero, zero_mul]

theorem divided_zero (n : ℕ) : divided 0 n = 0 := by
  rw [divided, Nat.cast_zero, nearest_zero, size_zero, zero_div]

theorem dividedTwice_zero (n : ℕ) : dividedTwice 0 n = 0 := by
  rw [dividedTwice, divided_zero, nearest_zero, size_zero, zero_div]

theorem scaled_of_nonneg (he : 0 ≤ e) (hfinite : nearest (multiplied m e.toNat) < infRank) :
    Scaled m e (rounded false (multiplied m e.toNat)) := by
  refine ⟨rfl, ?_, ?_, fun hm q hq hcut => ?_, fun hm hsmall => ?_⟩ <;> rw [rank_rounded_of_lt hfinite]
  · exact hfinite
  · rintro rfl
    rw [multiplied_zero, nearest_zero]
  · rw [mul_zpow_toNat m he] at hcut
    have hnear := nearest_of_within
      (within_cut (within_multiplied hm _) hcut (multiplied_nonneg ..) hq) (multiplied_nonneg ..) hq
    omega
  · rw [mul_zpow_toNat m he, multiplied_eq hm (by omega)]

theorem finite_divided (hm : m ≤ Significand.highest) (n : ℕ) : nearest (divided m n) < infRank :=
  nearest_div_lt_infRank (nearest_le_powerRank (by positivity)
    ((natural_le_of_le hm).trans (pow_le_pow_right₀ (by norm_num) (by norm_num)))) n

theorem scaled_of_neg (hm : m ≤ Significand.highest) (he : e < 0) :
    Scaled m e (rounded false (divided m e.natAbs)) := by
  have hfinite := finite_divided hm e.natAbs
  refine ⟨rfl, ?_, ?_, fun hpos q hq hcut => ?_, fun hshort hsmall => ?_⟩ <;>
    rw [rank_rounded_of_lt hfinite]
  · exact hfinite
  · rintro rfl
    rw [divided_zero, nearest_zero]
  · rw [mul_zpow_neg m he] at hcut
    have hnear := nearest_of_within
      (within_cut (within_divided hpos _) hcut (divided_nonneg ..) hq) (divided_nonneg ..) hq
    omega
  · rw [mul_zpow_neg m he, divided_eq hshort hsmall]

theorem scaled_of_far (hm : m ≤ Significand.highest) (he : e < 0) (hstep : step < e.natAbs) :
    Scaled m e (rounded false (dividedTwice m (e.natAbs - step))) := by
  have hdivided : divided m step ≤ 2 ^ 1000 :=
    (divided_le_one (le_highest_power_of_le hm)).trans (one_le_pow₀ (by norm_num))
  have hfinite : nearest (dividedTwice m (e.natAbs - step)) < infRank :=
    nearest_div_lt_infRank (nearest_le_powerRank (divided_nonneg m step) hdivided) _
  refine ⟨rfl, ?_, ?_, fun hpos q hq hcut => ?_, fun _ hsmall => ?_⟩
  · rw [rank_rounded_of_lt hfinite]
    exact hfinite
  · rintro rfl
    rw [rank_rounded_of_lt hfinite, dividedTwice_zero, nearest_zero]
  · have hfirst := (within_natural hpos).div within_step (size_nonneg _) (by positivity)
      (size_nearest_pow_pos 308) (by positivity) (by norm_num)
    have hexponent : 308 + (e.natAbs - step) = e.natAbs := by
      rw [step] at hstep ⊢
      omega
    have hsplit : (10 : ℚ) ^ e.natAbs = 10 ^ 308 * 10 ^ (e.natAbs - step) := by
      rw [← pow_add, hexponent]
    have hten : (10 : ℚ) ≤ 10 ^ (e.natAbs - step) := le_self_pow₀ (by norm_num) (by omega)
    rw [mul_zpow_neg m he, hsplit, ← div_div] at hcut
    rw [rank_rounded_of_lt hfinite]
    exact nearest_of_dividedTwice hq (size_nonneg _) hten hfirst
      (size_nearest_le_add (divided_nonneg m step)) (le_size_nearest_add (divided_nonneg m step))
      (within_pow _) hcut
  · rw [step] at hstep
    omega

-- A number that is divided by the largest power, and another one whose size it then has at most.
theorem divideSteps_of_zero {x : Binary64} (h : x.rank = 0) (k : ℕ) : divideSteps k x = x := by
  cases k with
  | zero => rfl
  | succ k => rw [divideSteps, if_pos h]

theorem div_powerOfTen_step {x : Binary64} {r : Nat} (hsign : x.negative = false) (hrank : x.rank = r)
    (hr : r < infRank) :
    x.div (powerOfTen step) = rounded false (size r / size (nearest (10 ^ 308))) := by
  rw [div_powerOfTen (hrank ▸ hr) hsign (show step ≤ 308 from le_rfl), hrank]
  rfl

theorem div_size_step_le {p t : ℚ} (hp : 0 ≤ p) (h : p ≤ t) :
    p / size (nearest (10 ^ 308)) ≤ 2 * t / 10 ^ 308 := by
  have hpow : (0 : ℚ) < 10 ^ 308 := by positivity
  have hclose : (10 : ℚ) ^ 308 ≤ size (nearest (10 ^ 308)) * 2 :=
    within_step.right.trans (mul_le_mul_of_nonneg_left (by norm_num) (size_nonneg _))
  rw [div_le_div_iff₀ (size_nearest_pow_pos 308) hpow]
  calc p * 10 ^ 308 ≤ t * (size (nearest (10 ^ 308)) * 2) :=
        mul_le_mul h hclose hpow.le (hp.trans h)
    _ = 2 * t * size (nearest (10 ^ 308)) := by ring

theorem size_nearest_le_two (hq : 0 ≤ q) : size (nearest q) ≤ 2 * q + size 1 := by
  have hle := size_nearest_le_add hq
  have hone := size_pos one_pos
  linarith

theorem size_one_le : size 1 ≤ 1 / 10 ^ 308 := by
  rw [size_one, zpow_neg, inv_eq_one_div]
  exact one_div_le_one_div_of_le (by positivity) (by exact_mod_cast (by decide +kernel : 10 ^ 308 ≤ 2 ^ 1074))

-- After one division by the largest power a significand is small, and after another one nothing is left.
theorem size_divided_le (hm : m ≤ Significand.highest) :
    size (nearest (divided m step)) ≤ 2 ^ 70 / 10 ^ 308 := by
  have hm' := natural_le_of_le hm
  have hsize : size (nearest m) ≤ 2 ^ 66 := by
    have hone : size 1 ≤ 1 := (size_strictMono.monotone (by decide)).trans size_full_le_one
    have hle := size_nearest_le_two (q := m) (by positivity)
    linarith
  have hdivided : divided m step ≤ 2 * 2 ^ 66 / 10 ^ 308 :=
    div_size_step_le (size_nonneg (nearest m)) hsize
  have hnearest := size_nearest_le_two (divided_nonneg m step)
  have hone := size_one_le
  have hpos : (0 : ℚ) < 1 / 10 ^ 308 := by positivity
  rw [div_eq_mul_one_div] at hdivided ⊢
  generalize (1 : ℚ) / 10 ^ 308 = part at *
  linarith

theorem twice_divided_lt (hm : m ≤ Significand.highest) :
    2 * (size (nearest (divided m step)) / size (nearest (10 ^ 308))) < size 1 := by
  have hsecond := div_size_step_le (size_nonneg _) (size_divided_le hm)
  have hless : 2 * (2 * (2 ^ 70 / 10 ^ 308) / 10 ^ 308 : ℚ) < size 1 := by
    have hpowers : 2 ^ 72 * 2 ^ 1074 < 10 ^ 308 * 10 ^ 308 := by decide +kernel
    rw [size_one, zpow_neg, inv_eq_one_div]
    have hsame : 2 * (2 * (2 ^ 70 / 10 ^ 308) / 10 ^ 308 : ℚ) = 2 ^ 72 / (10 ^ 308 * 10 ^ 308) := by
      field_simp
    rw [hsame, div_lt_div_iff₀ (by positivity) (by positivity), one_mul]
    exact_mod_cast hpowers
  exact (mul_le_mul_of_nonneg_left hsecond zero_le_two).trans_lt hless

theorem rank_divideSteps (hm : m ≤ Significand.highest) (k : ℕ) :
    (divideSteps (k + 2) (ofInt m)).negative = false ∧ (divideSteps (k + 2) (ofInt m)).rank = 0 := by
  have hm' := le_highest_power_of_le hm
  have hrank : (ofInt m).rank = nearest m := rank_ofInt hm'
  have hfirst := finite_divided hm step
  rw [divideSteps]
  split
  · rename_i hzero
    exact ⟨negative_ofInt m, hzero⟩
  rw [div_powerOfTen_step (negative_ofInt m) hrank (hrank ▸ finite_ofInt hm')]
  change (divideSteps (k + 1) (rounded false (divided m step))).negative = false ∧
    (divideSteps (k + 1) (rounded false (divided m step))).rank = 0
  rw [divideSteps]
  split
  · rename_i hzero
    exact ⟨rfl, hzero⟩
  have hnone := rounded_of_tiny false (div_nonneg (size_nonneg _) (size_nonneg _)) (twice_divided_lt hm)
  rw [div_powerOfTen_step rfl (rank_rounded_of_lt hfirst) hfirst, hnone, divideSteps_of_zero rfl]
  exact ⟨rfl, rfl⟩

theorem scale?_of_beyond (hm : m ≤ Significand.highest) (he : e < 0) (hfar : 2 * step < e.natAbs) :
    scale? m e = some (zero false) := by
  obtain ⟨k, hk⟩ : ∃ k, (e.natAbs - 1) / step = k + 2 := by
    refine ⟨(e.natAbs - 1) / step - 2, ?_⟩
    rw [step] at hfar ⊢
    omega
  have hrest : e.natAbs - (k + 2) * step ≤ 308 := by
    rw [step] at hfar hk ⊢
    omega
  obtain ⟨hsign, hzero⟩ := rank_divideSteps hm k
  have hfinite : (divideSteps (k + 2) (ofInt m)).rank < infRank := by
    rw [hzero]
    decide
  simp only [scale?, if_neg (not_le.mpr he), hk]
  rw [div_powerOfTen hfinite hsign hrest, hzero, size_zero, zero_div, rounded_zero]

theorem scaled_of_beyond (hm : m ≤ Significand.highest) (he : e < 0) (hfar : 2 * step < e.natAbs) :
    Scaled m e (zero false) := by
  refine ⟨rfl, by decide, fun _ => rfl, fun hpos q hq hcut => ?_, fun _ hsmall => ?_⟩
  · have htiny : 2 * q < size 1 := by
      have hpow : (m : ℚ) * 10 ^ e ≤ 2 ^ 64 / 10 ^ 617 := by
        rw [step] at hfar
        rw [mul_zpow_neg m he]
        exact div_le_div₀ (by positivity) (natural_le_of_le hm) (by positivity)
          (pow_le_pow_right₀ (by norm_num) (by omega))
      have hle : q ≤ 2 ^ 64 / 10 ^ 617 * 2 :=
        hcut.right.trans (mul_le_mul hpow (by norm_num) (by norm_num) (by positivity))
      have hpowers : 2 ^ 66 * 2 ^ 1074 < 10 ^ 617 := by decide +kernel
      have hless : 2 * (2 ^ 64 / 10 ^ 617 * 2 : ℚ) < size 1 := by
        have hsame : 2 * (2 ^ 64 / 10 ^ 617 * 2 : ℚ) = 2 ^ 66 / 10 ^ 617 := by
          generalize (10 : ℚ) ^ 617 = power
          ring
        rw [size_one, zpow_neg, inv_eq_one_div, hsame, div_lt_div_iff₀ (by positivity) (by positivity),
          one_mul]
        exact_mod_cast hpowers
      exact (mul_le_mul_of_nonneg_left hle zero_le_two).trans_lt hless
    rw [nearest_of_tiny hq htiny]
    exact ⟨Nat.zero_le _, Nat.zero_le _⟩
  · rw [step] at hfar
    omega

-- Scaling goes beyond the finite doubles if the product of the two roundings does.
def Overflows (m : ℕ) (e : ℤ) : Prop := 0 ≤ e ∧ 2 ^ 1024 - 2 ^ 970 ≤ multiplied m e.toNat

theorem not_overflows_iff (he : 0 ≤ e) : ¬Overflows m e ↔ nearest (multiplied m e.toNat) < infRank := by
  rw [Overflows, ← infRank_le_nearest_iff (multiplied_nonneg ..), not_and, not_le]
  exact ⟨fun h => h he, fun h _ => h⟩

-- A power of ten beyond the doubles is too much for any significand but zero.
theorem overflows_of_step_lt (hpos : 0 < m) (hstep : (step : ℤ) < e) : Overflows m e := by
  rw [step] at hstep
  have hpowers : 2 ^ 1024 ≤ 10 ^ 309 := by decide +kernel
  have hpowers' : (2 : ℚ) ^ 1024 ≤ 10 ^ 309 := by exact_mod_cast hpowers
  have hpower : size infRank ≤ size (nearest (10 ^ e.toNat)) := by
    refine size_strictMono.monotone (le_nearest_of_size ?_)
    rw [size_infRank]
    exact hpowers'.trans (pow_le_pow_right₀ (by norm_num) (by omega))
  have hone : 1 ≤ size (nearest m) := one_le_size_nearest (by exact_mod_cast hpos)
  refine ⟨by omega, ?_⟩
  rw [size_infRank] at hpower
  calc (2 : ℚ) ^ 1024 - 2 ^ 970 ≤ 2 ^ 1024 := sub_le_self _ (by positivity)
    _ ≤ size (nearest (10 ^ e.toNat)) := hpower
    _ ≤ multiplied m e.toNat := le_mul_of_one_le_left (size_nonneg _) hone

theorem scale?_of_step_lt (hstep : (step : ℤ) < e) :
    scale? m e = if (ofInt m).rank = 0 then some (ofInt m) else none := by
  have he : 0 ≤ e := by omega
  simp only [scale?, if_pos he, if_neg (not_le.mpr hstep)]

theorem scale?_of_overflows (hm : m ≤ Significand.highest) (h : Overflows m e) : scale? m e = none := by
  have hm' := le_highest_power_of_le hm
  obtain ⟨he, hover⟩ := h
  rw [← infRank_le_nearest_iff (multiplied_nonneg ..)] at hover
  by_cases hstep : e ≤ step
  · have hexponent : e.toNat ≤ 308 := by
      rw [step] at hstep
      omega
    have hpower := rank_powerOfTen hexponent
    have hpowerFinite : (powerOfTen e.toNat).rank < infRank := by
      rw [hpower]
      exact nearest_lt_infRank (by positivity) (pow_le_pow_right₀ (by norm_num) hexponent)
    have hproduct : (ofInt m).mul (powerOfTen e.toNat) = infinity false := by
      rw [mul_eq (finite_ofInt hm') hpowerFinite, rank_ofInt hm', hpower, negative_ofInt,
        negative_powerOfTen]
      exact (rounded_eq_infinity_iff (multiplied_nonneg ..) false).mpr
        ((infRank_le_nearest_iff (multiplied_nonneg ..)).mp hover)
    simp only [scale?, if_pos he, if_pos hstep, hproduct]
    rfl
  · have hpos : (ofInt m).rank ≠ 0 := by
      rw [rank_ofInt hm']
      intro hzero
      rw [multiplied, hzero, size_zero, zero_mul, nearest_zero] at hover
      exact absurd hover (by decide)
    rw [scale?_of_step_lt (not_le.mp hstep), if_neg hpos]

-- All other significands come out.
theorem scale?_scaled (hm : m ≤ Significand.highest) (h : ¬Overflows m e) :
    ∃ y, scale? m e = some y ∧ Scaled m e y := by
  have hm' := le_highest_power_of_le hm
  rcases lt_or_ge e 0 with he | he
  · rcases Nat.lt_or_ge (2 * step) e.natAbs with hbeyond | hwithin
    · exact ⟨_, scale?_of_beyond hm he hbeyond, scaled_of_beyond hm he hbeyond⟩
    rcases Nat.lt_or_ge step e.natAbs with hfar | hnear
    · exact ⟨_, scale?_of_far hm' he hfar hwithin, scaled_of_far hm he hfar⟩
    · exact ⟨_, scale?_of_neg hm' he hnear, scaled_of_neg hm he⟩
  · have hfinite := (not_overflows_iff he).mp h
    by_cases hstep : e ≤ step
    · exact ⟨_, scale?_of_nonneg hm' he hstep hfinite, scaled_of_nonneg he hfinite⟩
    · have hzero : m = 0 := by
        by_contra hne
        exact h (overflows_of_step_lt (Nat.pos_of_ne_zero hne) (not_le.mp hstep))
      subst hzero
      have hrank : (ofInt ((0 : ℕ) : ℤ)).rank = 0 := by
        rw [rank_ofInt hm', Nat.cast_zero, nearest_zero]
      have hsame : ofInt ((0 : ℕ) : ℤ) = zero false := ext_rank (negative_ofInt 0) hrank
      have hscaled := scaled_of_nonneg he hfinite
      rw [multiplied_zero, rounded_zero] at hscaled
      refine ⟨zero false, ?_, hscaled⟩
      rw [scale?_of_step_lt (not_le.mp hstep), if_pos hrank, hsame]

end JsonNumber

end CoilHub
