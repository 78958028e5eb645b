import CoilHub.Proofs.Json.Accuracy
import CoilHub.Proofs.Json.Scalars

namespace CoilHub

open Binary64 (Within)

namespace Significand

variable {s : Significand} {d : Char} {digits : List Char}

-- What the digits stand for, and what they would stand for if the last one were one more.
def worth (s : Significand) : ℚ := s.value * 10 ^ s.exponent

def ceiling (s : Significand) : ℚ := (s.value + 1) * 10 ^ s.exponent

-- Digits that a number begins with, unless they are all that it has.
structure Cut (s : Significand) (q : ℚ) : Prop where
  long : 10 ^ 18 ≤ s.value
  below : s.worth ≤ q
  above : q ≤ s.ceiling

theorem worth_le_ceiling (s : Significand) : s.worth ≤ s.ceiling :=
  mul_le_mul_of_nonneg_right (by linarith) (by positivity)

theorem zpow_split (e : ℤ) : (10 : ℚ) ^ e = 10 ^ (e - 1) * 10 := by
  rw [← zpow_add_one₀ (by norm_num), sub_add_cancel]

theorem worth_next (s : Significand) (n : Nat) :
    worth ⟨10 * s.value + n, s.exponent - 1⟩ = s.worth + n * 10 ^ (s.exponent - 1) := by
  rw [worth, worth, zpow_split s.exponent]
  push_cast
  ring

theorem ceiling_next_le {n : Nat} (s : Significand) (hn : n ≤ 9) :
    ceiling ⟨10 * s.value + n, s.exponent - 1⟩ ≤ s.ceiling := by
  have hdigit : (n : ℚ) ≤ 9 := by exact_mod_cast hn
  have hpos : (0 : ℚ) < 10 ^ (s.exponent - 1) := by positivity
  rw [ceiling, ceiling, zpow_split s.exponent]
  push_cast
  nlinarith

-- Digits stop fitting behind at least eighteen others.
theorem long_of_not_fits {value : Nat} (hd : d.isDigit) (h : ¬fits value d = true) :
    10 ^ 18 ≤ value := by
  have hbounds := isDigit_bounds hd
  rw [fits, decide_eq_true_eq, highest, show UInt64.size = 2 ^ 64 from rfl] at h
  omega

-- What digits behind the point add, in whatever place they stand.
theorem addFraction_between (hdigits : ∀ c ∈ digits, c.isDigit) (s : Significand) :
    s.worth ≤ (s.addFraction digits).worth ∧ (s.addFraction digits).ceiling ≤ s.ceiling := by
  induction digits generalizing s with
  | nil => exact ⟨le_refl _, le_refl _⟩
  | cons d digits ih =>
      obtain ⟨hd, hdigits⟩ := List.forall_mem_cons.mp hdigits
      have hbounds := isDigit_bounds hd
      rw [addFraction]
      split
      · obtain ⟨hworth, hceiling⟩ := ih hdigits ⟨10 * s.value + (d.toNat - 48), s.exponent - 1⟩
        have hnext := worth_next s (d.toNat - 48)
        have hless := ceiling_next_le s (show d.toNat - 48 ≤ 9 by omega)
        have hpos : (0 : ℚ) ≤ (d.toNat - 48 : ℕ) * 10 ^ (s.exponent - 1) := by positivity
        exact ⟨by linarith, hceiling.trans hless⟩
      · exact ⟨le_refl _, le_refl _⟩

-- The fraction of a number whose digits in front of the point all fit.
theorem addFraction_leads (hdigits : ∀ c ∈ digits, c.isDigit) (s : Significand) :
    (s.addFraction digits).worth = s.worth + digitsValue digits * 10 ^ (s.exponent - digits.length) ∨
      (s.addFraction digits).Cut (s.worth + digitsValue digits * 10 ^ (s.exponent - digits.length)) := by
  induction digits generalizing s with
  | nil => exact .inl (by simp [addFraction])
  | cons d digits ih =>
      obtain ⟨hd, hrest⟩ := List.forall_mem_cons.mp hdigits
      rw [addFraction]
      split
      · have hnext := ih hrest ⟨10 * s.value + (d.toNat - 48), s.exponent - 1⟩
        have hpow : (10 : ℚ) ^ (s.exponent - 1) =
            10 ^ digits.length * 10 ^ (s.exponent - (d :: digits).length) := by
          rw [← zpow_natCast, ← zpow_add₀ (by norm_num), List.length_cons]
          congr 1
          push_cast
          ring
        have hplace : s.exponent - 1 - digits.length = s.exponent - (d :: digits).length := by
          rw [List.length_cons]
          push_cast
          ring
        have hsame : worth ⟨10 * s.value + (d.toNat - 48), s.exponent - 1⟩ +
            digitsValue digits * 10 ^ (s.exponent - 1 - digits.length) =
              s.worth + digitsValue (d :: digits) * 10 ^ (s.exponent - (d :: digits).length) := by
          rw [worth_next, digitsValue_cons, hpow, hplace]
          push_cast
          ring
        rwa [hsame] at hnext
      · rename_i hfits
        refine .inr ⟨long_of_not_fits hd hfits, le_add_of_nonneg_right (by positivity), ?_⟩
        have hless : (digitsValue (d :: digits) : ℚ) ≤ 10 ^ (d :: digits).length := by
          exact_mod_cast (digitsValue_lt_pow hdigits).le
        have hpow : (10 : ℚ) ^ s.exponent =
            10 ^ (d :: digits).length * 10 ^ (s.exponent - (d :: digits).length) := by
          rw [← zpow_natCast, ← zpow_add₀ (by norm_num), add_sub_cancel]
        have hrest : digitsValue (d :: digits) * (10 : ℚ) ^ (s.exponent - (d :: digits).length) ≤
            10 ^ s.exponent := by
          rw [hpow]
          exact mul_le_mul_of_nonneg_right hless (by positivity)
        rw [ceiling, worth]
        linarith

-- The digits in front of the point. They leave room for any fraction if they do not all fit.
theorem addWhole_leads (hdigits : ∀ c ∈ digits, c.isDigit) (value : Nat) :
    addWhole ⟨value, 0⟩ digits = ⟨value * 10 ^ digits.length + digitsValue digits, 0⟩ ∨
      (addWhole ⟨value, 0⟩ digits).exponent ≠ 0 ∧
      10 ^ 18 ≤ (addWhole ⟨value, 0⟩ digits).value ∧
      (addWhole ⟨value, 0⟩ digits).worth ≤ value * 10 ^ digits.length + digitsValue digits ∧
      value * 10 ^ digits.length + digitsValue digits + 1 ≤ (addWhole ⟨value, 0⟩ digits).ceiling := by
  induction digits generalizing value with
  | nil => exact .inl (by simp [addWhole])
  | cons d digits ih =>
      obtain ⟨hd, hrest⟩ := List.forall_mem_cons.mp hdigits
      rw [addWhole]
      split
      · have hnext := ih hrest (10 * value + (d.toNat - 48))
        have hsame := value_cons value d digits
        rw [← hsame] at hnext
        have hsame' : ((value : ℚ) * 10 ^ (d :: digits).length + digitsValue (d :: digits)) =
            ((10 * value + (d.toNat - 48) : ℕ) : ℚ) * 10 ^ digits.length + digitsValue digits := by
          exact_mod_cast hsame
        rwa [hsame']
      · rename_i hfits
        have hexponent : (0 : ℤ) + (digits.length + 1) = ((d :: digits).length : ℕ) := by
          rw [List.length_cons]
          push_cast
          ring
        have hless : (digitsValue (d :: digits) : ℚ) + 1 ≤ 10 ^ (d :: digits).length := by
          exact_mod_cast digitsValue_lt_pow hdigits
        rw [hexponent]
        refine .inr ⟨Int.natCast_ne_zero.mpr (by simp), long_of_not_fits hd hfits, ?_, ?_⟩
        · rw [worth, zpow_natCast]
          exact le_add_of_nonneg_right (by positivity)
        · rw [ceiling, zpow_natCast]
          linarith

-- Two numbers between the same digits and the next ones.
theorem within_of_between {p q : ℚ} (hlong : 10 ^ 18 ≤ s.value) (hp : s.worth ≤ p)
    (hp' : p ≤ s.ceiling) (hq : s.worth ≤ q) (hq' : q ≤ s.ceiling) :
    Within (1 + 1 / 10 ^ 18) p q := by
  have hlong' : (10 : ℚ) ^ 18 ≤ s.value := by exact_mod_cast hlong
  have hpos : (0 : ℚ) < 10 ^ s.exponent := by positivity
  have hceiling : s.ceiling ≤ s.worth * (1 + 1 / 10 ^ 18) := by
    have hpart : 1 ≤ s.value * (1 / 10 ^ 18 : ℚ) := by
      rw [mul_one_div, le_div_iff₀ (by norm_num), one_mul]
      exact hlong'
    rw [ceiling, worth]
    nlinarith
  exact ⟨by nlinarith, by nlinarith⟩

theorem Cut.within {q : ℚ} (h : s.Cut q) : Within (1 + 1 / 10 ^ 18) s.worth q :=
  within_of_between h.long le_rfl s.worth_le_ceiling h.below h.above

theorem addWhole_le {value : Nat} (exponent : Int) (h : value ≤ highest) (digits : List Char) :
    (addWhole ⟨value, exponent⟩ digits).value ≤ highest := by
  induction digits generalizing value with
  | nil => exact h
  | cons d digits ih =>
      rw [addWhole]
      split
      · rename_i hfits
        exact ih (of_decide_eq_true hfits)
      · exact h

-- Digits in front of the point lack no power of ten just if they all fit.
theorem addWhole_exponent_iff {value : Nat} (h : value ≤ highest) :
    (addWhole ⟨value, 0⟩ digits).exponent = 0 ↔
      value * 10 ^ digits.length + digitsValue digits ≤ highest := by
  refine ⟨fun hzero => ?_, fun hle => by rw [addWhole_of_le 0 hle]⟩
  induction digits generalizing value with
  | nil => simpa using h
  | cons d digits ih =>
      rw [addWhole] at hzero
      split at hzero
      · rename_i hfits
        rw [value_cons]
        exact ih (of_decide_eq_true hfits) hzero
      · dsimp only at hzero
        omega

theorem addFraction_le (h : s.value ≤ highest) (digits : List Char) :
    (s.addFraction digits).value ≤ highest := by
  induction digits generalizing s with
  | nil => exact h
  | cons d digits ih =>
      rw [addFraction]
      split
      · rename_i hfits
        exact ih (of_decide_eq_true hfits)
      · exact h

end Significand

namespace Numeral

variable {n : Numeral}

-- The digits that are taken in, and the power of ten that they are scaled by.
def leading (n : Numeral) : Significand :=
  (Significand.addWhole ⟨0, 0⟩ n.whole).addFraction (n.fraction.getD [])

def power (n : Numeral) : ℤ := n.leading.exponent + n.statedExponent

theorem leading_le (n : Numeral) : n.leading.value ≤ Significand.highest :=
  Significand.addFraction_le (Significand.addWhole_le 0 (Nat.zero_le _) _) _

theorem Canonical.isDigit_fraction (h : n.Canonical) : ∀ c ∈ n.fraction.getD [], c.isDigit := by
  cases hfraction : n.fraction with
  | none => simp
  | some digits => exact (h.fraction digits hfraction).2

-- A numeral is scaled unless it is taken for an integer.
theorem jsonNumber?_leading (h : ¬(n.fraction = none ∧ n.exponent = none ∧
    (Significand.addWhole ⟨0, 0⟩ n.whole).exponent = 0)) :
    n.jsonNumber? = (JsonNumber.scale? n.leading.value n.power).map fun x =>
      .float (if n.negative then x.neg else x) := by
  rw [jsonNumber?, if_neg h]
  rfl

-- All digits count if they fit.
theorem leading_of_le (h : n.significand ≤ Significand.highest) :
    n.leading.value = n.significand ∧ n.power = n.scale := by
  have hsignificand : n.significand =
      digitsValue n.whole * 10 ^ (n.fraction.getD []).length + digitsValue (n.fraction.getD []) :=
    digitsValue_append ..
  have hpow : 1 ≤ 10 ^ (n.fraction.getD []).length := Nat.one_le_pow _ _ (by decide)
  have hwhole : digitsValue n.whole ≤ Significand.highest := by nlinarith
  have hadded : Significand.addWhole ⟨0, 0⟩ n.whole = ⟨digitsValue n.whole, 0⟩ := by
    have hzero : 0 * 10 ^ n.whole.length + digitsValue n.whole = digitsValue n.whole := by simp
    rw [addWhole_of_le 0 (by rwa [hzero]), hzero]
  have hall := addFraction_of_le (0 : Int) (hsignificand ▸ h)
  rw [power, leading, hadded, hall, hsignificand, scale]
  exact ⟨rfl, by ring⟩

theorem leading_within (hn : n.Canonical) :
    Within (1 + 1 / 10 ^ 18) n.leading.worth (n.significand * 10 ^ (-(n.fraction.getD []).length : ℤ)) := by
  have hfraction := hn.isDigit_fraction
  have hless : (digitsValue (n.fraction.getD []) : ℚ) * 10 ^ (-(n.fraction.getD []).length : ℤ) ≤ 1 := by
    rw [zpow_neg, zpow_natCast, ← div_eq_mul_inv, div_le_one₀ (by positivity)]
    exact_mod_cast (digitsValue_lt_pow hfraction).le
  have hsplit : (n.significand : ℚ) * 10 ^ (-(n.fraction.getD []).length : ℤ) =
      digitsValue n.whole + digitsValue (n.fraction.getD []) * 10 ^ (-(n.fraction.getD []).length : ℤ) := by
    have hcancel : (10 : ℚ) ^ (n.fraction.getD []).length * 10 ^ (-(n.fraction.getD []).length : ℤ) = 1 := by
      rw [← zpow_natCast, ← zpow_add₀ (by norm_num), add_neg_cancel, zpow_zero]
    rw [significand, significandDigits, digitsValue_append]
    push_cast
    rw [add_mul, mul_assoc, hcancel, mul_one]
  rw [hsplit, leading]
  obtain hall | ⟨-, hlong, hbelow, habove⟩ := Significand.addWhole_leads hn.whole.2 0
  · have hworth : Significand.worth ⟨0 * 10 ^ n.whole.length + digitsValue n.whole, 0⟩ =
        digitsValue n.whole := by
      simp [Significand.worth]
    have hleads := Significand.addFraction_leads hfraction
      ⟨0 * 10 ^ n.whole.length + digitsValue n.whole, 0⟩
    rw [hworth, zero_sub] at hleads
    rw [hall]
    obtain heq | hcut := hleads
    · rw [heq]
      exact ⟨le_mul_of_one_le_right (by positivity) (by norm_num),
        le_mul_of_one_le_right (by positivity) (by norm_num)⟩
    · exact hcut.within
  · rw [Nat.cast_zero, zero_mul, zero_add] at hbelow habove
    have hbetween := Significand.addFraction_between hfraction (Significand.addWhole ⟨0, 0⟩ n.whole)
    have hsome : (0 : ℚ) ≤
        digitsValue (n.fraction.getD []) * 10 ^ (-(n.fraction.getD []).length : ℤ) := by positivity
    exact Significand.within_of_between hlong hbetween.1
      ((Significand.worth_le_ceiling _).trans hbetween.2) (by linarith) (by linarith)

-- What is read of a number differs from it by one part in `10 ^ 18` at most.
theorem value_within (hn : n.Canonical) :
    Within (1 + 1 / 10 ^ 18) (n.leading.value * 10 ^ n.power) n.value := by
  have hscale : n.scale = -(n.fraction.getD []).length + n.statedExponent := by
    rw [scale]
    ring
  have hleading : (n.leading.value : ℚ) * 10 ^ n.power = n.leading.worth * 10 ^ n.statedExponent := by
    rw [power, Significand.worth, zpow_add₀ (by norm_num), mul_assoc]
  have hvalue : n.value = n.significand * 10 ^ (-(n.fraction.getD []).length : ℤ) *
      10 ^ n.statedExponent := by
    rw [value, hscale, zpow_add₀ (by norm_num), mul_assoc]
  obtain ⟨hleft, hright⟩ := leading_within hn
  rw [hleading, hvalue]
  constructor
  · rw [mul_right_comm _ _ (1 + _)]
    exact mul_le_mul_of_nonneg_right hleft (by positivity)
  · rw [mul_right_comm _ _ (1 + _)]
    exact mul_le_mul_of_nonneg_right hright (by positivity)

end Numeral

end CoilHub
