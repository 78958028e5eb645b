import CoilHub.Proofs.Numbers.Decimals
import Mathlib.Algebra.Order.AbsoluteValue.Basic

namespace CoilHub

-- A quotient halfway between two whole numbers is rounded to the even one.
theorem even_roundDiv_of_half {num den t : Nat} (hden : 0 < den) (h : 2 * num = (2 * t + 1) * den) :
    roundDiv num den % 2 = 0 := by
  have hexpand : 2 * num = 2 * (t * den) + den := by rw [h]; ring
  have hquotient : num / den = t := by
    apply Nat.div_eq_of_lt_le
    · omega
    · rw [Nat.add_mul]
      omega
  have hrest := Nat.div_add_mod num den
  rw [hquotient, mul_comm] at hrest
  simp only [roundDiv, hquotient]
  split
  · omega
  split
  · omega
  · omega

namespace Binary64

theorem middle_strictMono : StrictMono middle := fun _ _ h =>
  Nat.add_lt_add (magnitude_strictMono h) (magnitude_strictMono (Nat.add_lt_add_right h 1))

-- A midpoint is rounded to one of its neighbours.
theorem rankOf_of_middle {num den r : Nat} (hden : 0 < den) (h : 2 * num = middle r * den) :
    rankOf num den = r ∨ rankOf num den = r + 1 := by
  have hhigh : rankOf num den ≤ r + 1 := by
    by_contra hlt
    have hmiddle := middle_le_of_lt_rankOf hden (not_le.mp hlt)
    have hless := Nat.mul_lt_mul_of_pos_right (middle_strictMono (Nat.lt_add_one r)) hden
    omega
  have hlow : r ≤ rankOf num den := by
    by_contra hlt
    obtain ⟨p, rfl⟩ : ∃ p, r = p + 1 := ⟨r - 1, by omega⟩
    have hmiddle := le_middle_of_rankOf_le hden (show rankOf num den ≤ p by omega)
    have hless := Nat.mul_lt_mul_of_pos_right (middle_strictMono (Nat.lt_add_one p)) hden
    omega
  omega

-- On a midpoint the gap that is halved is as wide as the unit of the significand. Below a power of two it
-- could be narrower, but then the quotient would not have reached the power.
theorem even_rankOf_of_middle {num den r : Nat} (hden : 0 < den) (h : 2 * num = middle r * den) :
    rankOf num den % 2 = 0 := by
  obtain ⟨e, s, hrank, hs, hle, hnormal⟩ := rankOf_parts num den
  have hscaled : 0 < den * 2 ^ e := Nat.mul_pos hden (Nat.two_pow_pos e)
  have hquotient : num / (den * 2 ^ e) ≤ s := hs ▸ div_le_roundDiv ..
  have hself : magnitude (rankOf num den) = s * 2 ^ e :=
    hrank ▸ magnitude_eq hle (hnormal.imp_right fun hn => hn.trans hquotient)
  have hgap : ∀ p, gap p * den ≤ den * 2 ^ e → 2 ^ e ≤ gap p → gap p = 2 ^ e := by
    intro p hnarrow hwide
    rw [mul_comm den] at hnarrow
    exact le_antisymm (Nat.le_of_mul_le_mul_right hnarrow hden) hwide
  suffices hhalf : ∃ t, 2 * num = (2 * t + 1) * (den * 2 ^ e) by
    obtain ⟨t, ht⟩ := hhalf
    have heven := even_roundDiv_of_half hscaled ht
    rw [← hs] at heven
    omega
  rcases rankOf_of_middle hden h with heq | heq
  · have hnear : 2 * num ≤ 2 * (s * (den * 2 ^ e)) + den * 2 ^ e := hs ▸ le_two_mul_roundDiv _ _ hscaled
    have hmiddle : 2 * num = 2 * (s * (den * 2 ^ e)) + gap r * den := by
      rw [h, middle, magnitude_succ, ← heq, hself]
      ring
    have hwide : 2 ^ e ≤ gap r := by
      refine Nat.pow_le_pow_right (by decide) ?_
      rcases hnormal with h0 | hfirst <;> omega
    refine ⟨s, ?_⟩
    rw [hmiddle, hgap r (by omega) hwide]
    ring
  · have hnear : 2 * (s * (den * 2 ^ e)) ≤ 2 * num + den * 2 ^ e := hs ▸ two_mul_roundDiv_le _ _ hscaled
    have hmiddle : 2 * num + gap r * den = 2 * (s * (den * 2 ^ e)) := by
      have hmagnitude : magnitude r + gap r = s * 2 ^ e := by rw [← magnitude_succ, ← heq, hself]
      rw [h, middle, magnitude_succ]
      calc (magnitude r + (magnitude r + gap r)) * den + gap r * den
          = 2 * (magnitude r + gap r) * den := by ring
        _ = 2 * (s * (den * 2 ^ e)) := by rw [hmagnitude]; ring
    have hbelow : num / (den * 2 ^ e) < s := by
      have hpos := Nat.mul_pos (gap_pos r) hden
      rw [Nat.div_lt_iff_lt_mul hscaled]
      omega
    have hwide : 2 ^ e ≤ gap r := by
      refine Nat.pow_le_pow_right (by decide) ?_
      rcases hnormal with h0 | hfirst <;> omega
    obtain ⟨t, rfl⟩ : ∃ t, s = t + 1 := ⟨s - 1, by omega⟩
    refine ⟨t, ?_⟩
    rw [hgap r (by omega) hwide] at hmiddle
    linarith

variable {q : ℚ} {rank r : Nat}

theorem even_nearest_of_middle (hq : 0 ≤ q) (h : 2 * q = size r + size (r + 1)) :
    nearest q % 2 = 0 := by
  have hden := Rat.den_pos (q * unitsPerOne)
  refine even_rankOf_of_middle hden (r := r) ?_
  have hmiddle : (middle r : ℚ) = 2 * q * unitsPerOne := by
    rw [h, ← middle_div, div_mul_cancel₀ _ unitsPerOne_pos.ne']
  have hcast : ((2 * (q * unitsPerOne).num.toNat : ℕ) : ℚ) = (middle r * (q * unitsPerOne).den : ℕ) := by
    push_cast
    rw [← two_mul_units hq, hmiddle]
    ring
  exact_mod_cast hcast

-- A rank is nearest to a number, and even if another one is as near. The rank of the infinities counts
-- as `2 ^ 1024` here, the power of two behind the finite doubles, so that a number that is nearer to it
-- than to all of them overflows.
structure IsNearest (q : ℚ) (rank : Nat) : Prop where
  le_infRank : rank ≤ infRank
  nearest : ∀ r ≤ infRank, |size rank - q| ≤ |size r - q|
  even : ∀ r ≤ infRank, r ≠ rank → |size r - q| = |size rank - q| → rank % 2 = 0

-- Two ranks that are equally near lie on either side of the number.
theorem two_mul_eq_of_tie {r r' : Nat} (hlt : r < r') (h : |size r - q| = |size r' - q|) :
    2 * q = size r + size r' := by
  have hsize := size_strictMono hlt
  rcases abs_eq_abs.mp h with heq | heq
  · linarith
  · linarith

theorem isNearest_nearest (hq : 0 ≤ q) (hle : nearest q ≤ infRank) : IsNearest q (nearest q) := by
  have habove : ∀ r, nearest q < r → size (nearest q + 1) ≤ size r := fun r hr =>
    size_strictMono.monotone hr
  have hbelow : ∀ r, r < nearest q → size r + size (nearest q) ≤ 2 * q := fun r hr => by
    have hnext := middle_le_of_lt_nearest hq (show nearest q - 1 < nearest q by omega)
    have hr' : size r ≤ size (nearest q - 1) := size_strictMono.monotone (by omega)
    rw [Nat.sub_add_cancel (by omega)] at hnext
    linarith
  have hnext := le_middle_of_nearest_le hq (le_refl (nearest q))
  refine ⟨hle, fun r _ => ?_, fun r _ hne htie => ?_⟩
  · rcases lt_trichotomy r (nearest q) with hlt | rfl | hgt
    · have hsum := hbelow r hlt
      have hsize := size_strictMono hlt
      rw [abs_of_nonpos (show size r - q ≤ 0 by linarith), abs_le]
      constructor <;> linarith
    · exact le_refl _
    · have hsum := habove r hgt
      have hsize := size_strictMono hgt
      rw [abs_of_nonneg (show 0 ≤ size r - q by linarith), abs_le]
      constructor <;> linarith
  · rcases lt_or_gt_of_ne hne with hlt | hgt
    · have htwice := two_mul_eq_of_tie hlt htie
      obtain ⟨p, hp⟩ : ∃ p, nearest q = p + 1 := ⟨nearest q - 1, by omega⟩
      have hprevious := middle_le_of_lt_nearest hq (show p < nearest q by omega)
      rw [hp] at htwice hlt
      have hsame : r = p := by
        refine le_antisymm (by omega) ?_
        rw [← size_strictMono.le_iff_le]
        linarith
      exact even_nearest_of_middle hq (hsame ▸ htwice)
    · have htwice := two_mul_eq_of_tie hgt htie.symm
      have hsame : r = nearest q + 1 := by
        refine le_antisymm ?_ hgt
        rw [← size_strictMono.le_iff_le]
        linarith
      exact even_nearest_of_middle hq (hsame ▸ htwice)

-- Beyond the infinities there is nothing that could be nearer or as near.
theorem isNearest_infRank (h : size infRank ≤ q) : IsNearest q infRank := by
  have hall : ∀ r ≤ infRank, size r ≤ size infRank := fun r hr => size_strictMono.monotone hr
  refine ⟨le_refl _, fun r hr => ?_, fun _ _ _ _ => by decide⟩
  have hsize := hall r hr
  rw [abs_of_nonpos (by linarith), abs_of_nonpos (by linarith)]
  linarith

theorem isNearest_rounded (hq : 0 ≤ q) (negative : Bool) : IsNearest q (rounded negative q).rank := by
  rw [rank_rounded]
  rcases le_or_gt (nearest q) infRank with hle | hgt
  · rw [Nat.min_eq_left hle]
    exact isNearest_nearest hq hle
  · rw [Nat.min_eq_right hgt.le]
    refine isNearest_infRank ?_
    have hmiddle := middle_le_of_lt_nearest hq hgt
    have hstep := step_pos infRank
    rw [size_succ] at hmiddle
    linarith

-- Two ranks cannot both be nearest: they would both be even, and the odd one between them nearer.
theorem IsNearest.not_lt {rank rank' : Nat} (h : IsNearest q rank) (h' : IsNearest q rank') :
    ¬rank < rank' := by
  intro hlt
  have htie : |size rank - q| = |size rank' - q| :=
    le_antisymm (h.nearest _ h'.le_infRank) (h'.nearest _ h.le_infRank)
  have heven := h.even _ h'.le_infRank hlt.ne' htie.symm
  have heven' := h'.even _ h.le_infRank hlt.ne htie
  have htwice := two_mul_eq_of_tie hlt htie
  have hnear := h.nearest (rank + 1) (by have := h'.le_infRank; omega)
  have hlow := size_strictMono (Nat.lt_add_one rank)
  have hhigh := size_strictMono (show rank + 1 < rank' by omega)
  rw [abs_of_nonpos (show size rank - q ≤ 0 by linarith), le_abs] at hnear
  rcases hnear with hnear | hnear <;> linarith

theorem IsNearest.unique {rank rank' : Nat} (h : IsNearest q rank) (h' : IsNearest q rank') :
    rank = rank' :=
  Nat.le_antisymm (Nat.not_lt.mp (h'.not_lt h)) (Nat.not_lt.mp (h.not_lt h'))

theorem isNearest_iff (hq : 0 ≤ q) (x : Binary64) : IsNearest q x.rank ↔ x = rounded x.negative q := by
  constructor
  · intro h
    exact ext_rank (rounded_negative _ _).symm (h.unique (isNearest_rounded hq _))
  · intro h
    rw [h]
    exact isNearest_rounded hq _

-- Twice the midpoint behind the largest finite double.
theorem size_before_infRank : size (infRank - 1) + size infRank = 2 * (2 ^ 1024 - 2 ^ 970) := by
  have hstep : step (infRank - 1) = 2 * 2 ^ 970 := by
    have hexponent : (infRank - 1) / 2 ^ 52 - 1 = 2045 := rfl
    rw [step, gap, hexponent, unitsPerOne_eq, Nat.cast_pow, Nat.cast_ofNat, div_eq_iff (by positivity),
      ← pow_succ', ← pow_add]
  have hnext := size_succ (infRank - 1)
  rw [hstep, show infRank - 1 + 1 = infRank from rfl, size_infRank] at hnext
  rw [size_infRank]
  generalize (2 : ℚ) ^ 1024 = top at hnext ⊢
  generalize (2 : ℚ) ^ 970 = half at hnext ⊢
  linarith

-- Numbers overflow from that midpoint on. The midpoint itself does so because the largest finite double
-- is odd.
theorem infRank_le_nearest_iff (hq : 0 ≤ q) : infRank ≤ nearest q ↔ 2 ^ 1024 - 2 ^ 970 ≤ q := by
  have hmiddle := size_before_infRank
  have hnext : infRank - 1 + 1 = infRank := rfl
  generalize (2 : ℚ) ^ 1024 - 2 ^ 970 = limit at hmiddle ⊢
  constructor
  · intro h
    have hbelow := middle_le_of_lt_nearest hq (show infRank - 1 < nearest q from h)
    rw [hnext, hmiddle] at hbelow
    linarith
  · intro h
    by_contra hlt
    have habove := le_middle_of_nearest_le hq (show nearest q ≤ infRank - 1 by omega)
    rw [hnext, hmiddle] at habove
    have htwice : 2 * q = size (infRank - 1) + size (infRank - 1 + 1) := by
      rw [hnext, hmiddle]
      linarith
    have heven := even_nearest_of_middle hq htwice
    have hodd : (infRank - 1) % 2 = 1 := by decide
    have hless := le_middle_of_nearest_le hq (show nearest q ≤ infRank - 2 by omega)
    rw [show infRank - 2 + 1 = infRank - 1 from rfl] at hless
    rw [hnext] at htwice
    have hsize := size_strictMono (show infRank - 2 < infRank by decide)
    linarith

theorem rounded_eq_infinity_iff (hq : 0 ≤ q) (negative : Bool) :
    rounded negative q = infinity negative ↔ 2 ^ 1024 - 2 ^ 970 ≤ q := by
  rw [← infRank_le_nearest_iff hq]
  constructor
  · intro h
    have hmin := rank_rounded negative q
    rw [h] at hmin
    exact hmin.le.trans (Nat.min_le_left ..)
  · intro h
    exact ext_rank rfl (by rw [rank_rounded, Nat.min_eq_right h]; rfl)

end Binary64

end CoilHub
