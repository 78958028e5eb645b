import CoilHub.Binary64.Arithmetic
import Mathlib.Algebra.Order.Field.Basic
import Mathlib.Data.Rat.Lemmas
import Mathlib.Order.Monotone.Basic
import Mathlib.Tactic.FieldSimp
import Mathlib.Tactic.Linarith
import Mathlib.Tactic.Positivity
import Mathlib.Tactic.Ring

namespace CoilHub

theorem two_mul_roundDiv_le (num den : Nat) (hden : 0 < den) :
    2 * (roundDiv num den * den) ≤ 2 * num + den := by
  have hdiv := Nat.div_add_mod num den
  have hmod := Nat.mod_lt num hden
  rw [mul_comm] at hdiv
  simp only [roundDiv]
  split
  · omega
  split
  · rw [Nat.add_mul]
    omega
  · have heven : num / den % 2 ≤ 1 := by omega
    have hle : num / den % 2 * den ≤ 1 * den := Nat.mul_le_mul_right den heven
    rw [Nat.add_mul]
    omega

theorem le_two_mul_roundDiv (num den : Nat) (hden : 0 < den) :
    2 * num ≤ 2 * (roundDiv num den * den) + den := by
  have hdiv := Nat.div_add_mod num den
  have hmod := Nat.mod_lt num hden
  rw [mul_comm] at hdiv
  simp only [roundDiv]
  split
  · omega
  split
  · rw [Nat.add_mul]
    omega
  · rw [Nat.add_mul]
    omega

theorem div_le_roundDiv (num den : Nat) : num / den ≤ roundDiv num den := by
  simp only [roundDiv]
  split <;> [skip; split] <;> omega

theorem roundDiv_le_div_succ (num den : Nat) : roundDiv num den ≤ num / den + 1 := by
  simp only [roundDiv]
  split <;> [skip; split] <;> omega

theorem roundDiv_mul_left (k num den : Nat) (hk : 0 < k) :
    roundDiv (k * num) (k * den) = roundDiv num den := by
  have hlt : ∀ a b : Nat, k * a < k * b ↔ a < b := fun a b => Nat.mul_lt_mul_left hk
  have hswap : ∀ a : Nat, 2 * (k * a) = k * (2 * a) := fun a => Nat.mul_left_comm 2 k a
  simp only [roundDiv, Nat.mul_div_mul_left _ _ hk, Nat.mul_mod_mul_left, hswap, hlt]

namespace Binary64

-- The distance from a rank to the next one.
def gap (rank : Nat) : Nat := 2 ^ (rank / 2 ^ 52 - 1)

theorem gap_pos (rank : Nat) : 0 < gap rank := Nat.two_pow_pos _

theorem gap_le_gap {r r' : Nat} (h : r ≤ r') : gap r ≤ gap r' :=
  Nat.pow_le_pow_right (by decide) (Nat.sub_le_sub_right (Nat.div_le_div_right h) 1)

-- A rank by the exponent and the significand of its magnitude. A significand of `2 ^ 53` is allowed,
-- because a carry of the rounding yields it.
theorem magnitude_eq {e s : Nat} (hs : s ≤ 2 ^ 53) (hnormal : e = 0 ∨ 2 ^ 52 ≤ s) :
    magnitude (e * 2 ^ 52 + s) = s * 2 ^ e := by
  simp only [magnitude, Nat.shiftLeft_eq, one_mul]
  split
  · have he : e = 0 := by omega
    simp [he]
  · rcases Nat.lt_or_ge s (2 ^ 52) with hlt | hge
    · omega
    rcases Nat.eq_or_lt_of_le hs with rfl | hlt
    · have hdiv : (e * 2 ^ 52 + 2 ^ 53) / 2 ^ 52 - 1 = e + 1 := by omega
      have hmod : (e * 2 ^ 52 + 2 ^ 53) % 2 ^ 52 = 0 := by omega
      rw [hdiv, hmod, pow_succ]
      ring
    · have hdiv : (e * 2 ^ 52 + s) / 2 ^ 52 - 1 = e := by omega
      have hmod : 2 ^ 52 + (e * 2 ^ 52 + s) % 2 ^ 52 = s := by omega
      rw [hdiv, hmod]

theorem gap_eq {e s : Nat} (hs : s < 2 ^ 53) (hnormal : e = 0 ∨ 2 ^ 52 ≤ s) :
    gap (e * 2 ^ 52 + s) = 2 ^ e := by
  have hdiv : (e * 2 ^ 52 + s) / 2 ^ 52 - 1 = e := by omega
  rw [gap, hdiv]

theorem exists_parts (r : Nat) :
    ∃ e s, r = e * 2 ^ 52 + s ∧ s < 2 ^ 53 ∧ (e = 0 ∨ 2 ^ 52 ≤ s) := by
  rcases Nat.lt_or_ge r (2 ^ 53) with hlt | hge
  · exact ⟨0, r, by omega, hlt, .inl rfl⟩
  · exact ⟨r / 2 ^ 52 - 1, 2 ^ 52 + r % 2 ^ 52, by omega, by omega, .inr (by omega)⟩

theorem magnitude_succ (r : Nat) : magnitude (r + 1) = magnitude r + gap r := by
  obtain ⟨e, s, rfl, hs, hnormal⟩ := exists_parts r
  rw [gap_eq hs hnormal, magnitude_eq hs.le hnormal, add_assoc,
    magnitude_eq (show s + 1 ≤ 2 ^ 53 from hs) (hnormal.imp_right Nat.le_succ_of_le)]
  ring

theorem magnitude_strictMono : StrictMono magnitude :=
  strictMono_nat_of_lt_succ fun r => by
    have := gap_pos r
    rw [magnitude_succ]
    omega

theorem magnitude_zero : magnitude 0 = 0 := rfl

theorem magnitude_pos {r : Nat} (h : 0 < r) : 0 < magnitude r := magnitude_strictMono h

theorem magnitude_succ_le (r : Nat) : magnitude (r + 1) ≤ 2 ^ 53 * gap r := by
  obtain ⟨e, s, rfl, hs, hnormal⟩ := exists_parts r
  rw [gap_eq hs hnormal, add_assoc,
    magnitude_eq (show s + 1 ≤ 2 ^ 53 from hs) (hnormal.imp_right Nat.le_succ_of_le)]
  exact Nat.mul_le_mul_right _ hs

theorem magnitude_add_le (r k : Nat) : magnitude r + k * gap r ≤ magnitude (r + k) := by
  induction k with
  | zero => simp
  | succ k ih =>
      have hgap := gap_le_gap (Nat.le_add_right r k)
      rw [← add_assoc, magnitude_succ, Nat.add_mul]
      omega

-- Twice the midpoint between a rank and the next one.
def middle (rank : Nat) : Nat := magnitude rank + magnitude (rank + 1)

theorem middle_le_middle {r r' : Nat} (h : r ≤ r') : middle r ≤ middle r' :=
  Nat.add_le_add (magnitude_strictMono.monotone h)
    (magnitude_strictMono.monotone (Nat.succ_le_succ h))

-- The rank that a quotient is rounded to, by its exponent and its significand.
theorem rankOf_parts (num den : Nat) :
    ∃ e s, rankOf num den = e * 2 ^ 52 + s ∧ s = roundDiv num (den * 2 ^ e) ∧ s ≤ 2 ^ 53 ∧
      (e = 0 ∨ 2 ^ 52 ≤ num / (den * 2 ^ e)) := by
  refine ⟨(num / den).log2 - 52, _, ?_, rfl, ?_, ?_⟩
  · simp only [rankOf, Nat.shiftLeft_eq]
  · have hlt : num / den < 2 ^ (53 + ((num / den).log2 - 52)) :=
      Nat.lt_of_lt_of_le Nat.lt_log2_self (Nat.pow_le_pow_right (by decide) (by omega))
    rw [pow_add] at hlt
    refine (roundDiv_le_div_succ _ _).trans (Nat.succ_le_of_lt ?_)
    rw [← Nat.div_div_eq_div_mul]
    exact Nat.div_lt_of_lt_mul (by rwa [mul_comm] at hlt)
  · rcases Nat.le_total (num / den).log2 52 with hle | hge
    · exact .inl (by omega)
    · refine .inr ?_
      have hne : num / den ≠ 0 := by
        intro h0
        simp [h0] at hge
      have hself : 2 ^ (52 + ((num / den).log2 - 52)) ≤ num / den := by
        rw [show 52 + ((num / den).log2 - 52) = (num / den).log2 by omega]
        exact Nat.log2_self_le hne
      rw [pow_add] at hself
      rw [← Nat.div_div_eq_div_mul]
      exact (Nat.le_div_iff_mul_le (Nat.two_pow_pos _)).mpr hself

-- What is rounded above a rank lies at or above the midpoint that follows it.
theorem middle_le_of_lt_rankOf {num den r : Nat} (hden : 0 < den) (h : r < rankOf num den) :
    middle r * den ≤ 2 * num := by
  obtain ⟨e, s, hrank, hs, hle, hnormal⟩ := rankOf_parts num den
  have hscaled : 0 < den * 2 ^ e := Nat.mul_pos hden (Nat.two_pow_pos e)
  have hquotient : num / (den * 2 ^ e) ≤ s := hs ▸ div_le_roundDiv ..
  have hnear : 2 * (s * (den * 2 ^ e)) ≤ 2 * num + den * 2 ^ e := hs ▸ two_mul_roundDiv_le _ _ hscaled
  suffices hbelow : middle (rankOf num den - 1) * den ≤ 2 * num from
    (Nat.mul_le_mul_right den (middle_le_middle (by omega))).trans hbelow
  rw [hrank] at h ⊢
  have hself : magnitude (e * 2 ^ 52 + s) = s * 2 ^ e :=
    magnitude_eq hle (hnormal.imp_right fun hn => hn.trans hquotient)
  have hsucc : e * 2 ^ 52 + s - 1 + 1 = e * 2 ^ 52 + s := by omega
  rw [middle, hsucc, hself]
  rcases Nat.eq_zero_or_pos e with rfl | hpos
  · obtain ⟨t, rfl⟩ : ∃ t, s = t + 1 := ⟨s - 1, by omega⟩
    have hbelow : 0 * 2 ^ 52 + (t + 1) - 1 = 0 * 2 ^ 52 + t := by omega
    rw [hbelow, magnitude_eq (by omega) (.inl rfl)]
    nlinarith
  have hfirst := hnormal.resolve_left (by omega)
  rcases Nat.eq_or_lt_of_le (hfirst.trans hquotient) with heq | hlt
  · -- The rank below a power of two has another exponent, and half the gap.
    obtain ⟨f, rfl⟩ : ∃ f, e = f + 1 := ⟨e - 1, by omega⟩
    have hbelow : (f + 1) * 2 ^ 52 + s - 1 = f * 2 ^ 52 + (2 ^ 53 - 1) := by omega
    have hnum : 2 ^ 52 * (den * 2 ^ (f + 1)) ≤ num := (Nat.le_div_iff_mul_le hscaled).mp hfirst
    have hdouble : 2 ^ (f + 1) = 2 * 2 ^ f := Nat.pow_succ'
    rw [hdouble] at hnum
    rw [hbelow, magnitude_eq (by omega) (.inr (by omega)), ← heq, hdouble]
    calc ((2 ^ 53 - 1) * 2 ^ f + 2 ^ 52 * (2 * 2 ^ f)) * den
        = (2 ^ 53 - 1 + 2 ^ 52 * 2) * (den * 2 ^ f) := by ring
      _ ≤ 2 ^ 54 * (den * 2 ^ f) := Nat.mul_le_mul_right _ (by norm_num)
      _ = 2 * (2 ^ 52 * (den * (2 * 2 ^ f))) := by ring
      _ ≤ 2 * num := Nat.mul_le_mul_left 2 hnum
  · obtain ⟨t, rfl⟩ : ∃ t, s = t + 1 := ⟨s - 1, by omega⟩
    have hbelow : e * 2 ^ 52 + (t + 1) - 1 = e * 2 ^ 52 + t := by omega
    rw [hbelow, magnitude_eq (by omega) (.inr (by omega))]
    nlinarith

-- What is rounded to a rank or below it lies at or below the midpoint that follows the rank.
theorem le_middle_of_rankOf_le {num den r : Nat} (hden : 0 < den) (h : rankOf num den ≤ r) :
    2 * num ≤ middle r * den := by
  obtain ⟨e, s, hrank, hs, hle, hnormal⟩ := rankOf_parts num den
  have hscaled : 0 < den * 2 ^ e := Nat.mul_pos hden (Nat.two_pow_pos e)
  have hquotient : num / (den * 2 ^ e) ≤ s := hs ▸ div_le_roundDiv ..
  have hnear : 2 * num ≤ 2 * (s * (den * 2 ^ e)) + den * 2 ^ e := hs ▸ le_two_mul_roundDiv _ _ hscaled
  refine le_trans ?_ (Nat.mul_le_mul_right den (middle_le_middle h))
  have hself : magnitude (rankOf num den) = s * 2 ^ e :=
    hrank ▸ magnitude_eq hle (hnormal.imp_right fun hn => hn.trans hquotient)
  have hgap : 2 ^ e ≤ gap (rankOf num den) := by
    refine Nat.pow_le_pow_right (by decide) ?_
    rcases hnormal with h0 | hfirst <;> omega
  rw [middle, magnitude_succ, hself]
  nlinarith

theorem rankOf_mul_left (k num den : Nat) (hk : 0 < k) :
    rankOf (k * num) (k * den) = rankOf num den := by
  simp only [rankOf, Nat.mul_div_mul_left _ _ hk, Nat.shiftLeft_eq, mul_assoc,
    roundDiv_mul_left _ _ _ hk]

-- Equal quotients are rounded alike.
theorem rankOf_eq_of_mul_eq {num den num' den' : Nat} (hden : 0 < den) (hden' : 0 < den')
    (h : num * den' = num' * den) : rankOf num den = rankOf num' den' := by
  rw [← rankOf_mul_left den' num den hden', ← rankOf_mul_left den num' den' hden, mul_comm den' num,
    h, mul_comm num', mul_comm den' den]

theorem unitsPerOne_pos : (0 : ℚ) < unitsPerOne := by
  have : 0 < unitsPerOne := by decide
  exact_mod_cast this

-- The absolute value that a rank stands for.
def size (rank : Nat) : ℚ := magnitude rank / unitsPerOne

-- The rank that a number is rounded to.
def nearest (q : ℚ) : Nat := rankOf (q * unitsPerOne).num.toNat (q * unitsPerOne).den

def rounded (negative : Bool) (q : ℚ) : Binary64 := ofRank negative (nearest q)

theorem nearest_eq_rankOf {q : ℚ} {num den : Nat} (hden : 0 < den)
    (h : q * unitsPerOne = (num : ℚ) / den) : nearest q = rankOf num den := by
  have hnonneg : (0 : ℚ) ≤ num / den := by positivity
  rw [nearest, h]
  refine rankOf_eq_of_mul_eq (Rat.den_pos _) hden ?_
  have hcross : ((num : ℚ) / den).num * (den : ℤ) = num * ((num : ℚ) / den).den := by
    have hself := Rat.num_div_den ((num : ℚ) / den)
    have hden' : ((num : ℚ) / den).den ≠ 0 := Rat.den_nz _
    rw [div_eq_div_iff (by exact_mod_cast hden') (by exact_mod_cast hden.ne')] at hself
    exact_mod_cast hself
  have hnum : 0 ≤ ((num : ℚ) / den).num := Rat.num_nonneg.mpr hnonneg
  zify
  rw [Int.toNat_of_nonneg hnum]
  exact hcross

theorem ofUnits_eq (negative : Bool) {num den : Nat} {q : ℚ} (hden : 0 < den)
    (h : q * unitsPerOne = (num : ℚ) / den) : ofUnits negative num den = rounded negative q := by
  rw [ofUnits, rounded, nearest_eq_rankOf hden h]

section Size

theorem size_strictMono : StrictMono size := fun r r' h => by
  have hlt : magnitude r < magnitude r' := magnitude_strictMono h
  exact div_lt_div_of_pos_right (by exact_mod_cast hlt) unitsPerOne_pos

@[simp] theorem size_zero : size 0 = 0 := by simp [size, magnitude_zero]

theorem size_nonneg (r : Nat) : 0 ≤ size r := div_nonneg (Nat.cast_nonneg _) unitsPerOne_pos.le

theorem size_pos {r : Nat} (h : 0 < r) : 0 < size r := size_zero ▸ size_strictMono h

-- The difference of the sizes of a rank and the next one.
def step (rank : Nat) : ℚ := gap rank / unitsPerOne

theorem step_pos (r : Nat) : 0 < step r :=
  div_pos (by exact_mod_cast gap_pos r) unitsPerOne_pos

theorem step_le_step {r r' : Nat} (h : r ≤ r') : step r ≤ step r' :=
  div_le_div_of_nonneg_right (by exact_mod_cast gap_le_gap h) unitsPerOne_pos.le

theorem size_succ (r : Nat) : size (r + 1) = size r + step r := by
  rw [size, size, step, magnitude_succ, ← add_div, Nat.cast_add]

theorem size_succ_le (r : Nat) : size (r + 1) ≤ 2 ^ 53 * step r := by
  have hle : (magnitude (r + 1) : ℚ) ≤ 2 ^ 53 * gap r := by exact_mod_cast magnitude_succ_le r
  rw [size, step, ← mul_div_assoc]
  exact div_le_div_of_nonneg_right hle unitsPerOne_pos.le

theorem size_add_le (r k : Nat) : size r + k * step r ≤ size (r + k) := by
  have hle : (magnitude r : ℚ) + k * gap r ≤ magnitude (r + k) := by exact_mod_cast magnitude_add_le r k
  rw [size, size, step, ← mul_div_assoc, ← add_div]
  exact div_le_div_of_nonneg_right hle unitsPerOne_pos.le

-- From the first rank with all digits on, sizes are large against the steps between them.
theorem step_le_size {r : Nat} (h : 2 ^ 52 ≤ r) : 2 ^ 52 * step r ≤ size r := by
  have hle : 2 ^ 52 * gap r ≤ magnitude r := by
    obtain ⟨e, s, rfl, hs, hnormal⟩ := exists_parts r
    rw [gap_eq hs hnormal, magnitude_eq hs.le hnormal]
    exact Nat.mul_le_mul_right _ (by omega)
  have hcast : (2 : ℚ) ^ 52 * gap r ≤ magnitude r := by exact_mod_cast hle
  rw [size, step, ← mul_div_assoc]
  exact div_le_div_of_nonneg_right hcast unitsPerOne_pos.le

end Size

section Nearest

variable {q q' : ℚ} {r : Nat}

theorem two_mul_units (hq : 0 ≤ q) :
    2 * q * (unitsPerOne * (q * unitsPerOne).den) = 2 * ((q * unitsPerOne).num.toNat : ℕ) := by
  have hunits := unitsPerOne_pos
  have hnum : 0 ≤ (q * unitsPerOne).num := Rat.num_nonneg.mpr (by positivity)
  have hself := Rat.num_div_den (q * unitsPerOne)
  have hden : ((q * unitsPerOne).den : ℚ) ≠ 0 := by exact_mod_cast (q * unitsPerOne).den_nz
  rw [div_eq_iff hden] at hself
  have hcast : (((q * unitsPerOne).num.toNat : ℕ) : ℚ) = (q * unitsPerOne).num := by
    exact_mod_cast congrArg (Int.cast : ℤ → ℚ) (Int.toNat_of_nonneg hnum)
  rw [hcast, hself]
  ring

theorem middle_div (r : Nat) : (middle r : ℚ) / unitsPerOne = size r + size (r + 1) := by
  rw [middle, size, size, ← add_div, Nat.cast_add]

-- What is rounded above a rank lies at or above the midpoint that follows it.
theorem middle_le_of_lt_nearest (hq : 0 ≤ q) (h : r < nearest q) : size r + size (r + 1) ≤ 2 * q := by
  have hden := Rat.den_pos (q * unitsPerOne)
  have hle : ((middle r * (q * unitsPerOne).den : ℕ) : ℚ) ≤ (2 * (q * unitsPerOne).num.toNat : ℕ) := by
    exact_mod_cast middle_le_of_lt_rankOf hden h
  have hpos : (0 : ℚ) < (q * unitsPerOne).den := by exact_mod_cast hden
  rw [← middle_div, div_le_iff₀ unitsPerOne_pos]
  push_cast at hle
  rw [← two_mul_units hq, ← mul_assoc] at hle
  exact le_of_mul_le_mul_right hle hpos

-- What is rounded to a rank or below it lies at or below the midpoint that follows the rank.
theorem le_middle_of_nearest_le (hq : 0 ≤ q) (h : nearest q ≤ r) : 2 * q ≤ size r + size (r + 1) := by
  have hden := Rat.den_pos (q * unitsPerOne)
  have hle : ((2 * (q * unitsPerOne).num.toNat : ℕ) : ℚ) ≤ (middle r * (q * unitsPerOne).den : ℕ) := by
    exact_mod_cast le_middle_of_rankOf_le hden h
  have hpos : (0 : ℚ) < (q * unitsPerOne).den := by exact_mod_cast hden
  rw [← middle_div, le_div_iff₀ unitsPerOne_pos]
  push_cast at hle
  rw [← two_mul_units hq, ← mul_assoc] at hle
  exact le_of_mul_le_mul_right hle hpos

-- Rounding keeps the order. Two numbers on one midpoint are equal, so they are rounded alike.
theorem nearest_le_nearest (hq : 0 ≤ q) (h : q ≤ q') : nearest q ≤ nearest q' := by
  by_contra hlt
  rw [not_le] at hlt
  have hlow := middle_le_of_lt_nearest hq hlt
  have hhigh := le_middle_of_nearest_le (hq.trans h) (le_refl (nearest q'))
  have heq : q = q' := by linarith
  exact absurd hlt (heq ▸ lt_irrefl _)

-- A number strictly between the midpoints on either side of a rank is rounded to it.
theorem nearest_eq_of_between (hq : 0 ≤ q) (hlow : ∀ p < r, size p + size (p + 1) < 2 * q)
    (hhigh : 2 * q < size r + size (r + 1)) : nearest q = r := by
  apply le_antisymm
  · by_contra hlt
    rw [not_le] at hlt
    exact absurd (middle_le_of_lt_nearest hq hlt) (not_le.mpr hhigh)
  · by_contra hlt
    rw [not_le] at hlt
    exact absurd (le_middle_of_nearest_le hq (le_refl _)) (not_le.mpr (hlow _ hlt))

-- Rounding is exact on the sizes of ranks.
@[simp] theorem nearest_size (r : Nat) : nearest (size r) = r := by
  apply nearest_eq_of_between (size_nonneg r)
  · intro p hp
    have hlt := size_strictMono hp
    have hle := size_strictMono.monotone (Nat.succ_le_of_lt hp)
    simp only [Nat.succ_eq_add_one] at hle
    linarith
  · have hlt := size_strictMono (Nat.lt_succ_self r)
    simp only [Nat.succ_eq_add_one] at hlt
    linarith

@[simp] theorem nearest_zero : nearest 0 = 0 := by rw [← size_zero, nearest_size]

theorem le_nearest_of_size (h : size r ≤ q) : r ≤ nearest q :=
  nearest_size r ▸ nearest_le_nearest (size_nonneg r) h

-- Where numbers have all their digits, rounding is off by at most one part in `2 ^ 53`, of the number
-- as well as of the result.
theorem size_nearest_le (h : size (2 ^ 52) ≤ q) : size (nearest q) ≤ q * (1 + 1 / 2 ^ 53) := by
  have hpos : 0 < q := (size_pos (by decide)).trans_le h
  rcases Nat.eq_or_lt_of_le (le_nearest_of_size h) with heq | hlt
  · have hgrows : q ≤ q * (1 + 1 / 2 ^ 53) := le_mul_of_one_le_right hpos.le (by norm_num)
    exact heq ▸ h.trans hgrows
  · obtain ⟨p, hp⟩ : ∃ p, nearest q = p + 1 := ⟨nearest q - 1, by omega⟩
    have hbelow := middle_le_of_lt_nearest hpos.le (show p < nearest q by omega)
    have hstep := step_le_size (show 2 ^ 52 ≤ p by omega)
    rw [hp]
    rw [size_succ] at hbelow ⊢
    have := step_pos p
    linarith

theorem le_size_nearest (h : size (2 ^ 52) ≤ q) : q ≤ size (nearest q) * (1 + 1 / 2 ^ 53) := by
  have hpos : 0 < q := (size_pos (by decide)).trans_le h
  have habove := le_middle_of_nearest_le hpos.le (le_refl (nearest q))
  have hstep := step_le_size (le_nearest_of_size h)
  rw [size_succ] at habove
  linarith

end Nearest

end Binary64

end CoilHub
