import CoilHub.Json.Number
import CoilHub.Proofs.Numbers.Whole

namespace CoilHub

namespace Binary64

section Within

variable {w w' p q p' q' : ℚ}

-- Two numbers within a factor of each other.
structure Within (w p q : ℚ) : Prop where
  left : p ≤ q * w
  right : q ≤ p * w

theorem Within.refl (p : ℚ) : Within 1 p p := ⟨by simp, by simp⟩

theorem Within.mul (h : Within w p q) (h' : Within w' p' q') (hp : 0 ≤ p) (hq : 0 ≤ q) (hp' : 0 ≤ p')
    (hq' : 0 ≤ q') (hw : 0 ≤ w) : Within (w * w') (p * p') (q * q') := by
  constructor
  · calc p * p' ≤ q * w * (q' * w') := mul_le_mul h.left h'.left hp' (by positivity)
      _ = q * q' * (w * w') := by ring
  · calc q * q' ≤ p * w * (p' * w') := mul_le_mul h.right h'.right hq' (by positivity)
      _ = p * p' * (w * w') := by ring

theorem Within.div (h : Within w p q) (h' : Within w' p' q') (hp : 0 ≤ p) (hq : 0 ≤ q) (hp' : 0 < p')
    (hq' : 0 < q') (hw : 0 ≤ w) : Within (w * w') (p / p') (q / q') := by
  constructor
  · rw [div_mul_eq_mul_div, div_le_div_iff₀ hp' hq']
    calc p * q' ≤ q * w * (p' * w') := mul_le_mul h.left h'.right hq'.le (by positivity)
      _ = q * (w * w') * p' := by ring
  · rw [div_mul_eq_mul_div, div_le_div_iff₀ hq' hp']
    calc q * p' ≤ p * w * (q' * w') := mul_le_mul h.right h'.left hp'.le (by positivity)
      _ = p * (w * w') * q' := by ring

theorem within_of_mul_le {k : ℚ} (hk : 0 < k) (hleft : p * k ≤ q * (k + 1))
    (hright : q * k ≤ p * (k + 1)) : Within (1 + 1 / k) p q := by
  have hfactor : 1 + 1 / k = (k + 1) / k := by field_simp
  rw [hfactor]
  constructor <;> rw [← mul_div_assoc, le_div_iff₀ hk]
  · exact hleft
  · exact hright

theorem within_nearest (h : size (2 ^ 52) ≤ q) : Within (1 + 1 / 2 ^ 53) (size (nearest q)) q :=
  ⟨size_nearest_le h, le_size_nearest h⟩

end Within

section Places

variable {p q : ℚ}

theorem size_one_le_step (r : Nat) : size 1 ≤ step r := by
  have hstep := step_le_step (Nat.zero_le r)
  have hsucc := size_succ 0
  rw [size_zero, zero_add, zero_add] at hsucc
  rw [hsucc]
  exact hstep

-- A relative error of `c` parts in `2 ^ 53` is worth less than `c` places, since a double has less than
-- `2 ^ 53` steps of its own in it. An absolute error of some of the smallest steps adds to it.
theorem nearest_le_of_le {c d : ℚ} {k : ℕ} (hp : 0 ≤ p) (hq : 0 ≤ q) (hc : 0 ≤ c) (hd : 0 ≤ d)
    (h : p ≤ q * (1 + c / 2 ^ 53) + d * size 1) (hk : c * (1 - 1 / 2 ^ 54) + d < k) :
    nearest p ≤ nearest q + k := by
  by_contra hlt
  rw [not_le] at hlt
  have habove := middle_le_of_lt_nearest hp hlt
  have hbelow := le_middle_of_nearest_le hq (le_refl (nearest q))
  have hsize := size_succ (nearest q)
  have hfew := size_succ_le (nearest q)
  have hfirst := size_add_le (nearest q) k
  have hsecond := size_add_le (nearest q) (k + 1)
  have hstep := step_pos (nearest q)
  have hone := size_one_le_step (nearest q)
  push_cast at hsecond
  rw [← add_assoc] at hsecond
  generalize size (nearest q) = s at *
  generalize step (nearest q) = g at *
  rw [hsize] at hbelow hfew
  have hrelative : 2 * q * c ≤ (2 ^ 54 - 1) * g * c := mul_le_mul_of_nonneg_right (by linarith) hc
  have habsolute : d * size 1 ≤ d * g := mul_le_mul_of_nonneg_left hone hd
  have hplaces : 2 * k * g ≤ (2 * (c * (1 - 1 / 2 ^ 54)) + 2 * d) * g := by
    linarith
  have hless : (2 * (c * (1 - 1 / 2 ^ 54)) + 2 * d) * g < 2 * k * g :=
    mul_lt_mul_of_pos_right (by linarith) hstep
  linarith

-- Below the numbers that have all their digits, steps are of one size.
theorem step_eq_size_one {r : Nat} (h : r ≤ 2 ^ 52) : step r = size 1 := by
  have hgap : ∀ n : Nat, n ≤ 2 ^ 52 → gap n = 1 := by
    intro n hn
    rw [gap, show n / 2 ^ 52 - 1 = 0 by omega, pow_zero]
  have hsucc := size_succ 0
  rw [size_zero, zero_add, zero_add] at hsucc
  rw [hsucc, step, step, hgap r h, hgap 0 (by omega)]

theorem size_nearest_le_add (hq : 0 ≤ q) :
    size (nearest q) ≤ q * (1 + 1 / 2 ^ 53) + 1 / 2 * size 1 := by
  have hone := size_pos one_pos
  rcases le_total (size (2 ^ 52)) q with hfull | hsmall
  · linarith [size_nearest_le hfull]
  rcases Nat.eq_zero_or_pos (nearest q) with hzero | hpos
  · rw [hzero, size_zero]
    positivity
  · obtain ⟨r, hr⟩ : ∃ r, nearest q = r + 1 := ⟨nearest q - 1, by omega⟩
    have hle : nearest q ≤ 2 ^ 52 := nearest_size (2 ^ 52) ▸ nearest_le_nearest hq hsmall
    have hbelow := middle_le_of_lt_nearest hq (show r < nearest q by omega)
    have hsucc := size_succ r
    have hstep := step_eq_size_one (show r ≤ 2 ^ 52 by omega)
    rw [hr]
    linarith

theorem le_size_nearest_add (hq : 0 ≤ q) :
    q ≤ size (nearest q) * (1 + 1 / 2 ^ 53) + 1 / 2 * size 1 := by
  have hone := size_pos one_pos
  have hnonneg := size_nonneg (nearest q)
  rcases le_total (size (2 ^ 52)) q with hfull | hsmall
  · linarith [le_size_nearest hfull]
  · have hle : nearest q ≤ 2 ^ 52 := nearest_size (2 ^ 52) ▸ nearest_le_nearest hq hsmall
    have habove := le_middle_of_nearest_le hq (le_refl (nearest q))
    have hsucc := size_succ (nearest q)
    have hstep := step_eq_size_one hle
    linarith

end Places

section Operands

variable {q : ℚ}

theorem size_full_le_one : size (2 ^ 52) ≤ 1 := by
  have hle := size_strictMono.monotone (show 2 ^ 52 ≤ powerRank 0 by decide)
  rwa [size_powerRank, pow_zero] at hle

-- The highest finite double is above the powers of ten that are used.
theorem nearest_lt_infRank (hq : 0 ≤ q) (h : q ≤ 10 ^ 308) : nearest q < infRank := by
  have hpowers : 10 ^ 308 ≤ (2 ^ 53 - 1) * 2 ^ 971 := by decide +kernel
  have hlast : size (2045 * 2 ^ 52 + (2 ^ 53 - 1)) = ((2 ^ 53 - 1 : ℕ) : ℚ) * 2 ^ 971 := by
    rw [size_parts (by decide) (by decide)]
    rfl
  have hle : q ≤ size (2045 * 2 ^ 52 + (2 ^ 53 - 1)) := by
    rw [hlast]
    exact h.trans (by exact_mod_cast hpowers)
  have hrank := nearest_le_nearest hq hle
  rw [nearest_size] at hrank
  exact hrank.trans_lt (by decide)

-- The double that a natural number is turned into.
theorem rank_ofInt {n : ℕ} (hn : n ≤ 10 ^ 308) : (ofInt n).rank = nearest n := by
  rw [ofInt_eq, rank_rounded, Int.natAbs_natCast]
  exact Nat.min_eq_left (nearest_lt_infRank (by positivity) (by exact_mod_cast hn)).le

theorem rank_powerOfTen {n : ℕ} (hn : n ≤ 308) : (JsonNumber.powerOfTen n).rank = nearest (10 ^ n) := by
  have hpow : (10 : ℚ) ^ n ≤ 10 ^ 308 := pow_le_pow_right₀ (by norm_num) hn
  rw [JsonNumber.powerOfTen, ofDecimal_eq, rank_rounded, Nat.cast_one, one_mul, zpow_natCast]
  exact Nat.min_eq_left (nearest_lt_infRank (by positivity) hpow).le

theorem one_le_nearest (hq : 1 ≤ q) : 0 < nearest q := by
  have hle := le_nearest_of_size (size_full_le_one.trans hq)
  omega

-- Small powers of ten are doubles.
theorem size_nearest_pow {n : ℕ} (hn : n ≤ 22) : size (nearest (10 ^ n)) = 10 ^ n := by
  have hfive : 5 ^ n < 2 ^ 53 := (Nat.pow_le_pow_right (by decide) hn).trans_lt (by decide)
  obtain ⟨r, hr⟩ := exists_size_of_lt hfive n
  rw [Nat.cast_pow, Nat.cast_ofNat, ← mul_pow, show (5 : ℚ) * 2 = 10 by norm_num] at hr
  rw [← hr, nearest_size]

theorem size_nearest_natural {n : ℕ} (hn : n < 2 ^ 53) : size (nearest n) = n := by
  obtain ⟨r, hr⟩ := exists_size_of_lt hn 0
  rw [pow_zero, mul_one] at hr
  rw [← hr, nearest_size]

-- The power of ten that the longest steps divide by happens to be hit closely.
theorem within_step : Within (1 + 1 / 2 ^ 56) (size (nearest (10 ^ 308))) (10 ^ 308) := by
  have hrank : nearest (10 ^ 308) = 9214871658872686752 := by
    rw [← rank_powerOfTen le_rfl]
    decide +kernel
  have hsize : size 9214871658872686752 = ((5010420900022432 : ℕ) : ℚ) * 2 ^ 971 := by
    rw [show 9214871658872686752 = 2045 * 2 ^ 52 + 5010420900022432 by decide,
      size_parts (by decide) (by decide)]
    rfl
  have hleft : 5010420900022432 * 2 ^ 971 * 2 ^ 56 ≤ 10 ^ 308 * (2 ^ 56 + 1) := by decide +kernel
  have hright : 10 ^ 308 * 2 ^ 56 ≤ 5010420900022432 * 2 ^ 971 * (2 ^ 56 + 1) := by decide +kernel
  have hleft' : ((5010420900022432 : ℕ) : ℚ) * 2 ^ 971 * 2 ^ 56 ≤ 10 ^ 308 * (2 ^ 56 + 1) := by
    exact_mod_cast hleft
  have hright' : (10 : ℚ) ^ 308 * 2 ^ 56 ≤ ((5010420900022432 : ℕ) : ℚ) * 2 ^ 971 * (2 ^ 56 + 1) := by
    exact_mod_cast hright
  rw [hrank, hsize]
  exact within_of_mul_le (by norm_num) hleft' hright'

end Operands

end Binary64

namespace JsonNumber

open Binary64

section Scale

variable {m : ℕ} {e : ℤ}

-- What is rounded last: the significand times or divided by a power of ten, both of them rounded, and
-- before that divided by the largest power of ten if the other one does not suffice.
def multiplied (m n : ℕ) : ℚ := size (nearest m) * size (nearest (10 ^ n))

def divided (m n : ℕ) : ℚ := size (nearest m) / size (nearest (10 ^ n))

def dividedTwice (m n : ℕ) : ℚ := size (nearest (divided m step)) / size (nearest (10 ^ n))

theorem negative_ofInt (m : ℕ) : (ofInt m).negative = false := by
  rw [ofInt_eq, rounded_negative]
  simp

theorem negative_powerOfTen (n : ℕ) : (powerOfTen n).negative = false := by
  rw [powerOfTen, ofDecimal_eq, rounded_negative]

theorem div_powerOfTen {x : Binary64} {n : ℕ} (hx : x.rank < infRank) (hsign : x.negative = false)
    (hn : n ≤ 308) : x.div (powerOfTen n) = rounded false (size x.rank / size (nearest (10 ^ n))) := by
  have hrank := rank_powerOfTen hn
  have hpow : (1 : ℚ) ≤ 10 ^ n := one_le_pow₀ (by norm_num)
  have hfinite : nearest (10 ^ n) < infRank :=
    nearest_lt_infRank (by positivity) (pow_le_pow_right₀ (by norm_num) hn)
  rw [div_eq hx (hrank ▸ hfinite) (hrank ▸ one_le_nearest hpow), hsign, negative_powerOfTen, hrank]
  rfl

theorem divided_nonneg (m n : ℕ) : 0 ≤ divided m n := div_nonneg (size_nonneg _) (size_nonneg _)

theorem finite_ofInt (hm : m ≤ 10 ^ 308) : (ofInt m).rank < infRank := by
  rw [rank_ofInt hm]
  exact nearest_lt_infRank (by positivity) (by exact_mod_cast hm)

theorem scale?_of_nonneg (hm : m ≤ 10 ^ 308) (he : 0 ≤ e) (hstep : e ≤ step)
    (hfinite : nearest (multiplied m e.toNat) < infRank) :
    scale? m e = some (rounded false (multiplied m e.toNat)) := by
  have hexponent : e.toNat ≤ 308 := by
    rw [step] at hstep
    omega
  have hpower := rank_powerOfTen hexponent
  have hpowerFinite : (powerOfTen e.toNat).rank < infRank := by
    rw [hpower]
    exact nearest_lt_infRank (by positivity) (pow_le_pow_right₀ (by norm_num) hexponent)
  have hproduct : (ofInt m).mul (powerOfTen e.toNat) = rounded false (multiplied m e.toNat) := by
    rw [mul_eq (finite_ofInt hm) hpowerFinite, rank_ofInt hm, hpower, negative_ofInt,
      negative_powerOfTen]
    rfl
  have hinfinite : (rounded false (multiplied m e.toNat)).isInfinite = false := by
    apply not_isInfinite_of_lt
    rw [rank_rounded]
    omega
  simp only [scale?, if_pos he, if_pos hstep, hproduct, hinfinite, Bool.false_eq_true, if_false]

theorem scale?_of_neg (hm : m ≤ 10 ^ 308) (he : e < 0) (hstep : e.natAbs ≤ step) :
    scale? m e = some (rounded false (divided m e.natAbs)) := by
  have hsteps : (e.natAbs - 1) / step = 0 := by
    rw [step] at hstep ⊢
    omega
  simp only [scale?, if_neg (not_le.mpr he), hsteps, divideSteps, Nat.zero_mul, Nat.sub_zero]
  rw [div_powerOfTen (finite_ofInt hm) (negative_ofInt m) hstep, rank_ofInt hm, divided]

theorem divided_le_one (hm : m ≤ 10 ^ 308) : divided m step ≤ 1 := by
  have hle : nearest m ≤ nearest (10 ^ 308) :=
    nearest_le_nearest (by positivity) (by exact_mod_cast hm)
  exact div_le_one_of_le₀ (size_strictMono.monotone hle) (size_nonneg _)

-- A zero is not divided by the largest power, which would leave it as it is.
theorem divideSteps_one (hm : m ≤ 10 ^ 308) :
    divideSteps 1 (ofInt m) = rounded false (divided m step) := by
  simp only [divideSteps]
  split
  · rename_i hzero
    rw [rank_ofInt hm] at hzero
    have hdivided : divided m step = 0 := by rw [divided, hzero, size_zero, zero_div]
    rw [hdivided, rounded_zero]
    exact ext_rank (negative_ofInt m) (by rw [rank_ofInt hm, hzero]; rfl)
  · rw [div_powerOfTen (finite_ofInt hm) (negative_ofInt m) (show step ≤ 308 from le_rfl),
      rank_ofInt hm, divided]

theorem scale?_of_far (hm : m ≤ 10 ^ 308) (he : e < 0) (hstep : step < e.natAbs)
    (htwice : e.natAbs ≤ 2 * step) :
    scale? m e = some (rounded false (dividedTwice m (e.natAbs - step))) := by
  have hsteps : (e.natAbs - 1) / step = 1 := by
    rw [step] at hstep htwice ⊢
    omega
  have hrest : e.natAbs - step ≤ 308 := by
    rw [step] at htwice ⊢
    omega
  have hpow : (1 : ℚ) ≤ 10 ^ 308 := one_le_pow₀ (by norm_num)
  have hfinite := nearest_lt_infRank (divided_nonneg m step) ((divided_le_one hm).trans hpow)
  have hrank : (rounded false (divided m step)).rank = nearest (divided m step) := by
    rw [rank_rounded, Nat.min_eq_left hfinite.le]
  simp only [scale?, if_neg (not_le.mpr he), hsteps, divideSteps_one hm, one_mul]
  rw [div_powerOfTen (hrank ▸ hfinite) rfl hrest, hrank, dividedTwice]

end Scale

section Near

variable {m n : ℕ} {p q : ℚ}

theorem within_natural (hm : 0 < m) : Within (1 + 1 / 2 ^ 53) (size (nearest m)) m :=
  within_nearest (size_full_le_one.trans (by exact_mod_cast hm))

theorem within_pow (n : ℕ) : Within (1 + 1 / 2 ^ 53) (size (nearest (10 ^ n))) (10 ^ n) :=
  within_nearest (size_full_le_one.trans (one_le_pow₀ (by norm_num)))

-- Two roundings before the last one are worth at most two places.
theorem nearest_le_of_within (h : Within ((1 + 1 / 2 ^ 53) * (1 + 1 / 2 ^ 53)) p q) (hp : 0 ≤ p)
    (hq : 0 ≤ q) : nearest p ≤ nearest q + 2 ∧ nearest q ≤ nearest p + 2 := by
  have hfactor : (1 + 1 / 2 ^ 53 : ℚ) * (1 + 1 / 2 ^ 53) = 1 + (2 + 1 / 2 ^ 53) / 2 ^ 53 := by norm_num
  obtain ⟨hleft, hright⟩ := h
  rw [hfactor] at hleft hright
  constructor
  · exact nearest_le_of_le (c := 2 + 1 / 2 ^ 53) (d := 0) hp hq (by norm_num) le_rfl
      (by rwa [zero_mul, add_zero]) (by norm_num)
  · exact nearest_le_of_le (c := 2 + 1 / 2 ^ 53) (d := 0) hq hp (by norm_num) le_rfl
      (by rwa [zero_mul, add_zero]) (by norm_num)

theorem nearest_multiplied (hm : 0 < m) (n : ℕ) :
    nearest (multiplied m n) ≤ nearest (m * 10 ^ n) + 2 ∧
      nearest (m * 10 ^ n) ≤ nearest (multiplied m n) + 2 := by
  have hsize := size_nonneg (nearest m)
  have hpow := size_nonneg (nearest (10 ^ n))
  exact nearest_le_of_within
    ((within_natural hm).mul (within_pow n) hsize (by positivity) hpow (by positivity) (by norm_num))
    (mul_nonneg hsize hpow) (by positivity)

theorem size_nearest_pow_pos (n : ℕ) : 0 < size (nearest (10 ^ n)) :=
  size_pos (one_le_nearest (one_le_pow₀ (by norm_num)))

theorem nearest_divided (hm : 0 < m) (n : ℕ) :
    nearest (divided m n) ≤ nearest (m / 10 ^ n) + 2 ∧
      nearest (m / 10 ^ n) ≤ nearest (divided m n) + 2 := by
  have hsize := size_nonneg (nearest m)
  exact nearest_le_of_within
    ((within_natural hm).div (within_pow n) hsize (by positivity) (size_nearest_pow_pos n)
      (by positivity) (by norm_num))
    (divided_nonneg m n) (by positivity)

-- A third rounding in between, whose error is divided by ten at least, and a power of ten that is hit
-- closely.
theorem nearest_le_of_divided {a b t : ℚ} (hq : 0 ≤ q) (hb : 0 ≤ b)
    (hleft : a ≤ q * ((1 + 1 / 2 ^ 53) * (1 + 1 / 2 ^ 56)))
    (hright : q ≤ a * ((1 + 1 / 2 ^ 53) * (1 + 1 / 2 ^ 56)))
    (hbelow : b ≤ a * (1 + 1 / 2 ^ 53) + 1 / 2 * size 1)
    (habove : a ≤ b * (1 + 1 / 2 ^ 53) + 1 / 2 * size 1) (ht : 10 ≤ t) :
    nearest (b / t) ≤ nearest (q / t) + 3 ∧ nearest (q / t) ≤ nearest (b / t) + 3 := by
  have hpos : 0 < t := by linarith
  have hone := size_pos one_pos
  have hshare : size 1 * 10 ≤ size 1 * t := mul_le_mul_of_nonneg_left ht hone.le
  constructor
  · refine nearest_le_of_le (c := 11 / 5) (d := 1 / 10) (div_nonneg hb hpos.le) (div_nonneg hq hpos.le)
      (by norm_num) (by norm_num) ?_ (by norm_num)
    rw [div_le_iff₀ hpos]
    calc b ≤ q * (1 + 11 / 5 / 2 ^ 53) + 1 / 10 * size 1 * t := by linarith
      _ = (q / t * (1 + 11 / 5 / 2 ^ 53) + 1 / 10 * size 1) * t := by
        field_simp
  · refine nearest_le_of_le (c := 11 / 5) (d := 1 / 10) (div_nonneg hq hpos.le) (div_nonneg hb hpos.le)
      (by norm_num) (by norm_num) ?_ (by norm_num)
    rw [div_le_iff₀ hpos]
    calc q ≤ b * (1 + 11 / 5 / 2 ^ 53) + 1 / 10 * size 1 * t := by linarith
      _ = (b / t * (1 + 11 / 5 / 2 ^ 53) + 1 / 10 * size 1) * t := by
        field_simp

-- The first of two divisions may leave less than all digits. What it is off by then is divided, too.
theorem nearest_dividedTwice (hm : 0 < m) (hpos : 0 < n) (hn : n ≤ 22) :
    nearest (dividedTwice m n) ≤ nearest (m / 10 ^ (step + n)) + 3 ∧
      nearest (m / 10 ^ (step + n)) ≤ nearest (dividedTwice m n) + 3 := by
  have hsize := size_nonneg (nearest m)
  obtain ⟨hleft, hright⟩ := (within_natural hm).div within_step hsize (by positivity)
    (size_nearest_pow_pos 308) (by positivity) (by norm_num)
  have hnonneg := divided_nonneg m step
  have hbelow := size_nearest_le_add hnonneg
  have habove := le_size_nearest_add hnonneg
  have hten : (10 : ℚ) ≤ 10 ^ n := le_self_pow₀ (by norm_num) (by omega)
  have hone := size_pos one_pos
  have hrounded := size_nonneg (nearest (divided m step))
  have hsplit : (m : ℚ) / 10 ^ (step + n) = m / 10 ^ 308 / 10 ^ n := by
    rw [pow_add, div_div]
    rfl
  have hexact : (0 : ℚ) ≤ m / 10 ^ 308 := by positivity
  change divided m step ≤ _ at hleft
  change _ ≤ divided m step * _ at hright
  rw [dividedTwice, size_nearest_pow hn, hsplit]
  exact nearest_le_of_divided hexact hrounded hleft hright hbelow habove hten

end Near

section Exact

variable {m n : ℕ}

theorem multiplied_eq (hm : m < 2 ^ 53) (hn : n ≤ 22) : multiplied m n = m * 10 ^ n := by
  rw [multiplied, size_nearest_natural hm, size_nearest_pow hn]

theorem divided_eq (hm : m < 2 ^ 53) (hn : n ≤ 22) : divided m n = m / 10 ^ n := by
  rw [divided, size_nearest_natural hm, size_nearest_pow hn]

end Exact

section Outcome

variable {m n : ℕ} {e : ℤ} {y : Binary64}

-- How many places a number may be off: one more if its exponent is out of reach of the powers of ten.
def places (e : ℤ) : ℕ := if e < -308 then 3 else 2

-- A double that a significand and an exponent are turned into.
structure Outcome (m : ℕ) (e : ℤ) (y : Binary64) : Prop where
  negative : y.negative = false
  finite : y.rank < infRank
  above : 0 < m → y.rank ≤ nearest (m * 10 ^ e) + places e
  below : 0 < m → nearest (m * 10 ^ e) ≤ y.rank + places e
  exact : m < 2 ^ 53 → e.natAbs ≤ 22 → y.rank = nearest (m * 10 ^ e)

theorem rank_rounded_of_lt {negative : Bool} {q : ℚ} (h : nearest q < infRank) :
    (rounded negative q).rank = nearest q := by rw [rank_rounded, Nat.min_eq_left h.le]

theorem one_le_size_nearest {q : ℚ} (hq : 1 ≤ q) : 1 ≤ size (nearest q) := by
  have hone : size (powerRank 0) = 1 := by rw [size_powerRank, pow_zero]
  rw [← hone] at hq ⊢
  exact size_strictMono.monotone (le_nearest_of_size hq)

theorem nearest_div_lt_infRank {r : Nat} (hr : r ≤ powerRank 1000) (n : ℕ) :
    nearest (size r / size (nearest (10 ^ n))) < infRank := by
  have hpower : 2 ^ 1000 ≤ 10 ^ 308 := by decide +kernel
  have hpower' : (2 : ℚ) ^ 1000 ≤ 10 ^ 308 := by exact_mod_cast hpower
  have hsize := size_strictMono.monotone hr
  rw [size_powerRank] at hsize
  have hone : 1 ≤ size (nearest (10 ^ n)) := one_le_size_nearest (one_le_pow₀ (by norm_num))
  refine nearest_lt_infRank (div_nonneg (size_nonneg _) (size_nonneg _)) ?_
  exact (div_le_self (size_nonneg r) hone).trans (hsize.trans hpower')

theorem nearest_le_powerRank {q : ℚ} (hq : 0 ≤ q) (h : q ≤ 2 ^ 1000) : nearest q ≤ powerRank 1000 := by
  rw [← nearest_size (powerRank 1000), size_powerRank]
  exact nearest_le_nearest hq h

theorem outcome_of_nonneg (he : 0 ≤ e) (hfinite : nearest (multiplied m e.toNat) < infRank) :
    Outcome m e (rounded false (multiplied m e.toNat)) := by
  have hplaces : places e = 2 := if_neg (by omega)
  have hpow : (10 : ℚ) ^ e = 10 ^ e.toNat := by
    rw [← zpow_natCast, Int.toNat_of_nonneg he]
  refine ⟨rfl, ?_, fun hm => ?_, fun hm => ?_, fun hm hsmall => ?_⟩ <;>
    rw [rank_rounded_of_lt hfinite]
  · exact hfinite
  · rw [hpow, hplaces]
    exact (nearest_multiplied hm _).1
  · rw [hpow, hplaces]
    exact (nearest_multiplied hm _).2
  · rw [hpow, multiplied_eq hm (by omega)]

theorem natural_le (hm : m ≤ 10 ^ 17) : (m : ℚ) ≤ 2 ^ 1000 := by
  have hle : 10 ^ 17 ≤ 2 ^ 1000 := by decide +kernel
  exact_mod_cast hm.trans hle

theorem le_highest_power (hm : m ≤ 10 ^ 17) : m ≤ 10 ^ 308 :=
  le_trans hm (Nat.pow_le_pow_right (show 0 < 10 by decide) (show 17 ≤ 308 by decide))

theorem mul_zpow_neg (m : ℕ) (he : e < 0) : (m : ℚ) * 10 ^ e = m / 10 ^ e.natAbs := by
  obtain ⟨k, rfl⟩ : ∃ k : ℕ, e = -(k : ℤ) := ⟨e.natAbs, by omega⟩
  rw [zpow_neg, zpow_natCast, Int.natAbs_neg, Int.natAbs_natCast, div_eq_mul_inv]

theorem outcome_of_neg (hm : m ≤ 10 ^ 17) (he : e < 0) (hstep : e.natAbs ≤ step) :
    Outcome m e (rounded false (divided m e.natAbs)) := by
  rw [step] at hstep
  have hplaces : places e = 2 := if_neg (by omega)
  have hfinite : nearest (divided m e.natAbs) < infRank :=
    nearest_div_lt_infRank (nearest_le_powerRank (by positivity) (natural_le hm)) _
  refine ⟨rfl, ?_, fun hm => ?_, fun hm => ?_, fun hm hsmall => ?_⟩ <;>
    rw [rank_rounded_of_lt hfinite]
  · exact hfinite
  · rw [mul_zpow_neg m he, hplaces]
    exact (nearest_divided hm _).1
  · rw [mul_zpow_neg m he, hplaces]
    exact (nearest_divided hm _).2
  · rw [mul_zpow_neg m he, divided_eq hm hsmall]

theorem outcome_of_far (hm : m ≤ 10 ^ 17) (he : e < 0) (hstep : step < e.natAbs)
    (hfar : e.natAbs ≤ 330) :
    Outcome m e (rounded false (dividedTwice m (e.natAbs - step))) := by
  rw [step] at hstep
  have hplaces : places e = 3 := if_pos (by omega)
  have hdivided : divided m step ≤ 2 ^ 1000 :=
    (divided_le_one (le_highest_power hm)).trans (one_le_pow₀ (by norm_num))
  have hfinite : nearest (dividedTwice m (e.natAbs - step)) < infRank :=
    nearest_div_lt_infRank (nearest_le_powerRank (divided_nonneg m step) hdivided) _
  have hexponent : e.natAbs = step + (e.natAbs - step) := by
    rw [step]
    omega
  have hrest : 0 < e.natAbs - step ∧ e.natAbs - step ≤ 22 := by
    rw [step]
    omega
  have hpow : (10 : ℚ) ^ e.natAbs = 10 ^ (step + (e.natAbs - step)) := congrArg _ hexponent
  refine ⟨rfl, ?_, fun hm => ?_, fun hm => ?_, fun hm hsmall => ?_⟩
  · rw [rank_rounded_of_lt hfinite]
    exact hfinite
  · rw [rank_rounded_of_lt hfinite, mul_zpow_neg m he, hplaces, hpow]
    exact (nearest_dividedTwice hm hrest.1 hrest.2).1
  · rw [rank_rounded_of_lt hfinite, mul_zpow_neg m he, hplaces, hpow]
    exact (nearest_dividedTwice hm hrest.1 hrest.2).2
  · omega

-- Every significand of the length of a double's comes out, unless it is too large for the doubles.
theorem scale?_spec (hm : m ≤ 10 ^ 17) (hlow : -330 ≤ e) (hhigh : e ≤ 308)
    (hfinite : 0 ≤ e → nearest (multiplied m e.toNat) < infRank) :
    ∃ y, scale? m e = some y ∧ Outcome m e y := by
  have hm' := le_highest_power hm
  rcases le_or_gt 0 e with he | he
  · exact ⟨_, scale?_of_nonneg hm' he hhigh (hfinite he), outcome_of_nonneg he (hfinite he)⟩
  · rcases Nat.lt_or_ge step e.natAbs with hfar | hnear
    · exact ⟨_, scale?_of_far hm' he hfar (by rw [step]; omega), outcome_of_far hm he hfar (by omega)⟩
    · exact ⟨_, scale?_of_neg hm' he hnear, outcome_of_neg hm he hnear⟩

end Outcome

end JsonNumber

end CoilHub
