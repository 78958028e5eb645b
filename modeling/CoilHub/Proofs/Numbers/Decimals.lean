import CoilHub.Proofs.Numbers.Digits
import Mathlib.Algebra.Order.Field.Power

namespace CoilHub

namespace Binary64

theorem unitsPerOne_eq : (unitsPerOne : ℚ) = 2 ^ 1074 := by
  rw [unitsPerOne, Nat.shiftLeft_eq, one_mul, Nat.cast_pow, Nat.cast_ofNat]

theorem size_infRank : size infRank = 2 ^ 1024 := by
  have hmagnitude : magnitude infRank = 2 ^ 2098 := by
    rw [show infRank = 2046 * 2 ^ 52 + 2 ^ 52 by decide, magnitude_eq (by decide) (.inr le_rfl),
      ← pow_add]
  rw [size, hmagnitude, unitsPerOne_eq, Nat.cast_pow, Nat.cast_ofNat, div_eq_iff (by positivity),
    ← pow_add]

@[simp] theorem rounded_negative (negative : Bool) (q : ℚ) : (rounded negative q).negative = negative :=
  rfl

theorem rank_rounded (negative : Bool) (q : ℚ) : (rounded negative q).rank = min (nearest q) infRank :=
  rfl

theorem ext_rank {x y : Binary64} (hnegative : x.negative = y.negative) (hrank : x.rank = y.rank) :
    x = y := by
  obtain ⟨_, _, _⟩ := x
  obtain ⟨_, _, _⟩ := y
  cases hnegative
  cases hrank
  rfl

theorem rounded_zero (negative : Bool) : rounded negative 0 = zero negative :=
  ext_rank rfl (by rw [rank_rounded, nearest_zero]; rfl)

theorem rounded_of_huge (negative : Bool) {q : ℚ} (h : 2 ^ 1024 ≤ q) :
    rounded negative q = infinity negative := by
  refine ext_rank rfl ?_
  rw [rank_rounded, Nat.min_eq_right (le_nearest_of_size (size_infRank.le.trans h))]
  rfl

-- Less than half of the smallest size is rounded to zero.
theorem rounded_of_tiny (negative : Bool) {q : ℚ} (hq : 0 ≤ q) (h : 2 * q < size 1) :
    rounded negative q = zero negative := by
  refine ext_rank rfl ?_
  rw [rank_rounded, nearest_eq_of_between (r := 0) hq (fun p hp => absurd hp (Nat.not_lt_zero p))
    (by simpa using h)]
  rfl

theorem two_pow_log2_le {n : Nat} (hn : n ≠ 0) : (2 : ℚ) ^ (n.log2 : ℤ) ≤ n := by
  exact_mod_cast Nat.log2_self_le hn

theorem lt_two_pow_log2_succ (n : Nat) : (n : ℚ) < 2 ^ ((n.log2 : ℤ) + 1) := by
  exact_mod_cast Nat.lt_log2_self (n := n)

theorem two_zpow_le_ten_zpow {e : ℤ} (he : 0 ≤ e) : (2 : ℚ) ^ (3 * e) ≤ 10 ^ e := by
  rw [zpow_mul]
  exact zpow_le_zpow_left₀ he (by norm_num) (by norm_num)

theorem size_one : size 1 = 2 ^ (-1074 : ℤ) := by
  have hmagnitude : magnitude 1 = 1 := by decide
  rw [size, hmagnitude, unitsPerOne_eq, zpow_neg]
  norm_num

theorem rounded_of_huge_decimal (negative : Bool) {m : Nat} {e : ℤ} (hm : m ≠ 0) (he : 0 ≤ e)
    (h : 1024 ≤ (m.log2 : ℤ) + 3 * e) : rounded negative (m * 10 ^ e) = infinity negative := by
  apply rounded_of_huge
  calc (2 : ℚ) ^ 1024 = 2 ^ (1024 : ℤ) := by norm_num
    _ ≤ 2 ^ ((m.log2 : ℤ) + 3 * e) := zpow_le_zpow_right₀ (by norm_num) h
    _ = 2 ^ (m.log2 : ℤ) * 2 ^ (3 * e) := zpow_add₀ (by norm_num) _ _
    _ ≤ m * 10 ^ e :=
      mul_le_mul (two_pow_log2_le hm) (two_zpow_le_ten_zpow he) (by positivity) (by positivity)

theorem rounded_of_tiny_decimal (negative : Bool) {m : Nat} {e : ℤ} (he : e ≤ 0)
    (h : (m.log2 : ℤ) + 1 + 3 * e ≤ -1076) : rounded negative (m * 10 ^ e) = zero negative := by
  have height : (10 : ℚ) ^ e ≤ 2 ^ (3 * e) := by
    have hinverse := two_zpow_le_ten_zpow (e := -e) (by omega)
    rw [mul_neg, zpow_neg, zpow_neg] at hinverse
    exact (inv_le_inv₀ (by positivity) (by positivity)).mp hinverse
  apply rounded_of_tiny negative (by positivity)
  calc 2 * ((m : ℚ) * 10 ^ e)
      < 2 * (2 ^ ((m.log2 : ℤ) + 1) * 10 ^ e) := by
        have hless := mul_lt_mul_of_pos_right (lt_two_pow_log2_succ m)
          (show (0 : ℚ) < 10 ^ e by positivity)
        linarith
    _ ≤ 2 * (2 ^ ((m.log2 : ℤ) + 1) * 2 ^ (3 * e)) := by
        have hless := mul_le_mul_of_nonneg_left height
          (show (0 : ℚ) ≤ 2 ^ ((m.log2 : ℤ) + 1) by positivity)
        linarith
    _ = 2 ^ ((m.log2 : ℤ) + 1 + 3 * e + 1) := by
        rw [← zpow_add₀ (by norm_num), zpow_add_one₀ (by norm_num), mul_comm]
    _ ≤ 2 ^ (-1074 : ℤ) := zpow_le_zpow_right₀ (by norm_num) (by omega)
    _ = size 1 := size_one.symm

-- The shortcuts for decimals of a huge exponent do not change what is rounded.
theorem ofDecimal_eq (negative : Bool) (significand : Nat) (exponent : ℤ) :
    ofDecimal negative significand exponent = rounded negative (significand * 10 ^ exponent) := by
  unfold ofDecimal
  dsimp only
  split
  case isTrue hzero => rw [hzero, Nat.cast_zero, zero_mul, rounded_zero]
  case isFalse hne =>
  split
  case isTrue hexponent =>
    have hpower : ((10 : ℚ) ^ exponent) = ((Nat.pow 10 exponent.toNat : ℕ) : ℚ) := by
      rw [Nat.pow_eq, Nat.cast_pow, ← zpow_natCast, Int.toNat_of_nonneg hexponent, Nat.cast_ofNat]
    split
    case isTrue hhuge => rw [rounded_of_huge_decimal negative hne hexponent hhuge]
    case isFalse =>
      refine ofUnits_eq negative one_pos ?_
      rw [hpower]
      push_cast
      ring
  case isFalse hexponent =>
    have hpower : ((10 : ℚ) ^ exponent) = 1 / ((Nat.pow 10 (-exponent).toNat : ℕ) : ℚ) := by
      rw [Nat.pow_eq, Nat.cast_pow, ← zpow_natCast, Int.toNat_of_nonneg (by omega), Nat.cast_ofNat,
        zpow_neg, one_div, inv_inv]
    split
    case isTrue htiny => rw [rounded_of_tiny_decimal negative (by omega) htiny]
    case isFalse =>
      refine ofUnits_eq negative (Nat.pow_pos (by decide)) ?_
      rw [hpower]
      push_cast
      ring

theorem ofInt_eq (n : ℤ) : ofInt n = rounded (n < 0) n.natAbs := by
  refine ofUnits_eq _ one_pos ?_
  push_cast
  ring

end Binary64

-- The exact value of a numeral, its sign left out.
def Numeral.value (n : Numeral) : ℚ := n.significand * 10 ^ n.scale

theorem Numeral.toBinary64_eq (n : Numeral) : n.toBinary64 = .rounded n.negative n.value :=
  Binary64.ofDecimal_eq ..

namespace Binary64

section Arithmetic

variable {x y : Binary64}

theorem not_isNaN_of_lt (h : x.rank < infRank) : x.isNaN = false := by
  simpa [isNaN] using h.le

theorem not_isInfinite_of_lt (h : x.rank < infRank) : x.isInfinite = false := by
  simpa [isInfinite] using h.ne

theorem isFinite_iff : x.isFinite ↔ x.rank < infRank := by simp [isFinite]

theorem mul_eq (hx : x.rank < infRank) (hy : y.rank < infRank) :
    x.mul y = rounded (x.negative != y.negative) (size x.rank * size y.rank) := by
  simp only [mul, not_isNaN_of_lt hx, not_isNaN_of_lt hy, not_isInfinite_of_lt hx,
    not_isInfinite_of_lt hy, Bool.or_self, Bool.false_eq_true, if_false]
  have hunits := unitsPerOne_pos
  refine ofUnits_eq _ (by decide) ?_
  rw [size, size]
  push_cast
  field_simp

theorem div_eq (hx : x.rank < infRank) (hy : y.rank < infRank) (hpos : 0 < y.rank) :
    x.div y = rounded (x.negative != y.negative) (size x.rank / size y.rank) := by
  simp only [div, not_isNaN_of_lt hx, not_isNaN_of_lt hy, not_isInfinite_of_lt hx,
    not_isInfinite_of_lt hy, Bool.or_self, Bool.false_eq_true, if_false, hpos.ne']
  have hunits := unitsPerOne_pos
  have hmagnitude : (0 : ℚ) < magnitude y.rank := by exact_mod_cast magnitude_pos hpos
  refine ofUnits_eq _ (magnitude_pos hpos) ?_
  rw [size, size]
  push_cast
  field_simp

end Arithmetic

end Binary64

end CoilHub
