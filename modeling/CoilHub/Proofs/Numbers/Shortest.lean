import CoilHub.Decimal.Shortest
import CoilHub.Proofs.Numbers.Decimals

namespace CoilHub

namespace Decimal

open Binary64

-- The exact value.
def value (d : Decimal) : ℚ := d.significand * 10 ^ d.exponent

theorem readsBack_iff {rank : Nat} (hrank : rank < infRank) (d : Decimal) :
    readsBack rank d ↔ nearest d.value = rank := by
  rw [readsBack, decide_eq_true_eq, ofDecimal_eq, rank_rounded, value]
  omega

section Expansion

variable {rank : Nat}

-- The part that decimal expansions are counted in.
def part : ℚ := (10 ^ 1074)⁻¹

theorem part_pos : 0 < part := inv_pos.mpr (pow_pos (by norm_num) _)

theorem pow_mul_part : (10 : ℚ) ^ 1074 * part = 1 := mul_inv_cancel₀ (pow_ne_zero _ (by norm_num))

theorem size_eq_parts (rank : Nat) : size rank = parts rank * part := by
  have hunits : (2 : ℚ) ^ 1074 * (5 ^ 1074 * part) = 1 := by
    rw [← mul_assoc, ← mul_pow, show (2 : ℚ) * 5 = 10 by norm_num, pow_mul_part]
  rw [size, parts, unitsPerOne_eq, Nat.pow_eq, Nat.cast_mul, Nat.cast_pow, Nat.cast_ofNat,
    div_eq_iff (pow_ne_zero _ two_ne_zero)]
  calc (magnitude rank : ℚ) = magnitude rank * (2 ^ 1074 * (5 ^ 1074 * part)) := by
        rw [hunits, mul_one]
    _ = magnitude rank * 5 ^ 1074 * part * 2 ^ 1074 := by ring

theorem pow_le_parts (hrank : 0 < rank) : 10 ^ 750 ≤ parts rank := by
  have hone : 10 ^ 750 ≤ Nat.pow 5 1074 := by decide +kernel
  exact hone.trans (Nat.le_mul_of_pos_left _ (magnitude_pos hrank))

theorem lt_length (hrank : 0 < rank) : 750 < (decimalDigits (parts rank)).length := by
  by_contra hle
  have hlt := (length_decimalDigits_le_iff (by decide)).mp (not_lt.mp hle)
  exact absurd (pow_le_parts hrank) (not_le.mpr hlt)

theorem parts_lt_pow (rank : Nat) : parts rank < 10 ^ (decimalDigits (parts rank)).length :=
  (length_decimalDigits_le_iff (List.length_pos_iff.mpr (decimalDigits_ne_nil _))).mp le_rfl

-- A grid down to the place `10 ^ -324` is finer than the doubles.
theorem grid_lt_step (r : Nat) {dropped : Nat} (h : dropped ≤ 750) : 10 ^ dropped * part < step r := by
  have hpower : 10 ^ 750 * 2 ^ 1074 < 10 ^ 1074 := by decide +kernel
  have hcast : (10 : ℚ) ^ 750 * 2 ^ 1074 < 10 ^ 1074 := by exact_mod_cast hpower
  have hpart := part_pos
  have hgap : (1 : ℚ) ≤ gap r := by exact_mod_cast gap_pos r
  have hunits : (0 : ℚ) < 2 ^ 1074 := pow_pos two_pos _
  rw [step, unitsPerOne_eq, lt_div_iff₀ hunits]
  calc 10 ^ dropped * part * 2 ^ 1074
      ≤ 10 ^ 750 * part * 2 ^ 1074 := by
        have hdropped : (10 : ℚ) ^ dropped ≤ 10 ^ 750 := pow_le_pow_right₀ (by norm_num) h
        exact mul_le_mul_of_nonneg_right (mul_le_mul_of_nonneg_right hdropped hpart.le) hunits.le
    _ = 10 ^ 750 * 2 ^ 1074 * part := by ring
    _ < 10 ^ 1074 * part := mul_lt_mul_of_pos_right hcast hpart
    _ = 1 := pow_mul_part
    _ ≤ gap r := hgap

end Expansion

section Neighbours

variable {tie : TieRule} {parts step : Nat}

theorem neighbours_eq (tie : TieRule) (parts step : Nat) :
    ∃ upFirst : Bool, neighbours tie parts step =
      if parts % step = 0 then [parts / step]
      else if upFirst then [parts / step + 1, parts / step] else [parts / step, parts / step + 1] :=
  ⟨_, rfl⟩

theorem mem_neighbours_le {n : Nat} (h : n ∈ neighbours tie parts step) : n ≤ parts / step + 1 := by
  obtain ⟨upFirst, heq⟩ := neighbours_eq tie parts step
  rw [heq] at h
  split at h <;> [skip; split at h] <;>
    simp only [List.mem_cons, List.not_mem_nil, or_false] at h <;> omega

theorem div_mem_neighbours : parts / step ∈ neighbours tie parts step := by
  obtain ⟨upFirst, heq⟩ := neighbours_eq tie parts step
  rw [heq]
  split <;> [skip; split] <;> simp

theorem succ_mem_neighbours (h : parts % step ≠ 0) :
    parts / step + 1 ∈ neighbours tie parts step := by
  obtain ⟨upFirst, heq⟩ := neighbours_eq tie parts step
  rw [heq, if_neg h]
  split <;> simp

-- One of the neighbours is at most half a step away.
theorem exists_near_neighbour (tie : TieRule) (parts : Nat) {step : Nat} (hstep : 0 < step) :
    ∃ n ∈ neighbours tie parts step,
      2 * parts ≤ 2 * (n * step) + step ∧ 2 * (n * step) ≤ 2 * parts + step := by
  have hdiv := Nat.div_add_mod parts step
  have hmod := Nat.mod_lt parts hstep
  rw [mul_comm] at hdiv
  by_cases hhalf : 2 * (parts % step) ≤ step
  · exact ⟨_, div_mem_neighbours, by omega, by omega⟩
  · refine ⟨_, succ_mem_neighbours (by omega), ?_, ?_⟩ <;> rw [Nat.add_mul] <;> omega

end Neighbours

section Candidates

variable {tie : TieRule} {rank : Nat}

-- A number closer to the size of a rank than half the step below it is rounded to that rank.
theorem nearest_of_close {q : ℚ} {r : Nat} (hq : 0 ≤ q) (hlow : 2 * (size (r + 1) - q) < step r)
    (hhigh : 2 * (q - size (r + 1)) < step r) : nearest q = r + 1 := by
  have hsucc := size_succ r
  apply nearest_eq_of_between hq
  · intro p hp
    have hp' := size_strictMono.monotone (show p ≤ r by omega)
    have hp'' := size_strictMono.monotone (show p + 1 ≤ r + 1 by omega)
    linarith
  · have hnext := size_succ (r + 1)
    have hsteps := step_le_step (Nat.le_add_right r 1)
    linarith

theorem candidate?_eq_some {d : Decimal} {length count : Nat} (hrank : rank < infRank)
    (h : candidate? tie rank length count = some d) :
    nearest d.value = rank ∧ d.exponent = ((length - count : ℕ) : ℤ) - 1074 ∧
      d.significand ≤ parts rank / 10 ^ (length - count) + 1 := by
  have hreads := (readsBack_iff hrank d).mp (by simpa using List.find?_some h)
  obtain ⟨n, hn, rfl⟩ := List.mem_map.mp (List.mem_of_find?_eq_some h)
  exact ⟨hreads, rfl, mem_neighbours_le hn⟩

theorem isSome_candidate? {length count n : Nat} (hrank : rank < infRank)
    (hn : n ∈ neighbours tie (parts rank) (10 ^ (length - count)))
    (hreads : nearest (n * 10 ^ (((length - count : ℕ) : ℤ) - 1074)) = rank) :
    (candidate? tie rank length count).isSome := by
  refine List.find?_isSome.mpr
    ⟨⟨n, ((length - count : ℕ) : ℤ) - 1074⟩, List.mem_map.mpr ⟨n, hn, rfl⟩, ?_⟩
  exact (readsBack_iff hrank _).mpr hreads

-- Where the grid of decimals is finer than the doubles, one of the neighbours reads back.
theorem isSome_candidate?_of_fine {length count : Nat} (hpos : 0 < rank) (hrank : rank < infRank)
    (hfine : length - count ≤ 750 ∨ 10 ^ 16 * 10 ^ (length - count) ≤ parts rank) :
    (candidate? tie rank length count).isSome := by
  obtain ⟨r, rfl⟩ : ∃ r, rank = r + 1 := ⟨rank - 1, by omega⟩
  obtain ⟨n, hn, hlow, hhigh⟩ := exists_near_neighbour tie (parts (r + 1))
    (show 0 < 10 ^ (length - count) from Nat.pow_pos (by decide))
  apply isSome_candidate? hrank hn
  generalize length - count = dropped at hfine hlow hhigh
  have hpart := part_pos
  have hvalue : (n : ℚ) * 10 ^ ((dropped : ℤ) - 1074) = n * 10 ^ dropped * part := by
    rw [zpow_sub₀ (by norm_num), zpow_natCast, zpow_ofNat, div_eq_mul_inv, ← part, mul_assoc]
  have hgrid : 10 ^ dropped * part < step r := by
    rcases hfine with hsmall | hlarge
    · exact grid_lt_step r hsmall
    · have hsize := size_succ_le r
      rw [size_eq_parts] at hsize
      have hcast : (10 : ℚ) ^ 16 * 10 ^ dropped ≤ parts (r + 1) := by exact_mod_cast hlarge
      have hscaled := mul_le_mul_of_nonneg_right hcast hpart.le
      have hstep := step_pos r
      linarith
  have hlow' : (2 : ℚ) * parts (r + 1) ≤ 2 * (n * 10 ^ dropped) + 10 ^ dropped := by
    exact_mod_cast hlow
  have hhigh' : (2 : ℚ) * (n * 10 ^ dropped) ≤ 2 * parts (r + 1) + 10 ^ dropped := by
    exact_mod_cast hhigh
  have hlow'' := mul_le_mul_of_nonneg_right hlow' hpart.le
  have hhigh'' := mul_le_mul_of_nonneg_right hhigh' hpart.le
  rw [hvalue]
  apply nearest_of_close (by positivity)
  · rw [size_eq_parts]
    linarith
  · rw [size_eq_parts]
    linarith

-- A whole number is on the grid of whole numbers itself.
theorem parts_of_whole {k : ℕ} (hk : size rank = k) : parts rank = k * 10 ^ 1074 := by
  apply Nat.cast_injective (R := ℚ)
  rw [size_eq_parts] at hk
  rw [Nat.cast_mul, Nat.cast_pow, Nat.cast_ofNat, ← hk, mul_assoc, mul_comm part, pow_mul_part,
    mul_one]

theorem lt_length_of_whole {k : ℕ} (hpos : 0 < rank) (hk : size rank = k) :
    1074 < (decimalDigits (parts rank)).length := by
  have hk' : 0 < k := by exact_mod_cast hk ▸ size_pos hpos
  by_contra hle
  have hlength : 10 ^ (decimalDigits (parts rank)).length ≤ 10 ^ 1074 :=
    Nat.pow_le_pow_right (by decide) (not_lt.mp hle)
  have hself : 10 ^ 1074 ≤ parts rank := parts_of_whole hk ▸ Nat.le_mul_of_pos_left _ hk'
  exact absurd ((parts_lt_pow rank).trans_le (hlength.trans hself)) (lt_irrefl _)

theorem isSome_candidate?_of_whole (tie : TieRule) {k length count : ℕ} (hrank : rank < infRank)
    (hk : size rank = k) (hdropped : length - count = 1074) :
    (candidate? tie rank length count).isSome := by
  refine isSome_candidate? hrank div_mem_neighbours ?_
  rw [hdropped, parts_of_whole hk, Nat.mul_div_cancel _ (Nat.pow_pos (by decide))]
  simp [← hk]

-- The search takes the fewest digits for which there is a candidate.
theorem shortest_eq_candidate {count : Nat} (hcount : 1 ≤ count ∧ count ≤ 17)
    (h : (candidate? tie rank (decimalDigits (parts rank)).length count).isSome) :
    ∃ fewest ≤ count,
      candidate? tie rank (decimalDigits (parts rank)).length fewest = some (shortest tie rank) := by
  have hfound : ((List.range' 1 17).findSome?
      (candidate? tie rank (decimalDigits (parts rank)).length)).isSome := by
    refine List.findSome?_isSome_iff.mpr ⟨count, ?_, h⟩
    simp only [List.mem_range'_1]
    omega
  obtain ⟨d, hd⟩ := Option.isSome_iff_exists.mp hfound
  have hshortest : shortest tie rank = d := by rw [shortest, hd, Option.getD_some]
  obtain ⟨before, fewest, after, hsplit, hsome, hnone⟩ := List.findSome?_eq_some_iff.mp hd
  refine ⟨fewest, ?_, hshortest ▸ hsome⟩
  by_contra hlt
  have hmem : count ∈ before := by
    have hsorted : (List.range' 1 17).Pairwise (· < ·) := List.pairwise_lt_range'
    have hcount' : count ∈ List.range' 1 17 := by
      simp only [List.mem_range'_1]
      omega
    rw [hsplit] at hsorted hcount'
    rcases List.mem_append.mp hcount' with hbefore | hrest
    · exact hbefore
    · rcases List.mem_cons.mp hrest with rfl | hafter
      · omega
      · have := List.rel_of_pairwise_cons (List.pairwise_append.mp hsorted).2.1 hafter
        omega
  simp [hnone count hmem] at h

end Candidates

-- What the shortest decimal of a finite double is like.
structure Shortest (rank : Nat) (d : Decimal) : Prop where
  reads : nearest d.value = rank
  significand_pos : 0 < d.significand
  significand_le : d.significand ≤ 10 ^ 17
  exponent_ge : -324 ≤ d.exponent
  whole : ∀ k : ℕ, size rank = k → 0 ≤ d.exponent

theorem shortest_spec (tie : TieRule) {rank : Nat} (hpos : 0 < rank) (hrank : rank < infRank) :
    Shortest rank (shortest tie rank) := by
  have hlength := lt_length hpos
  have hlt := parts_lt_pow rank
  have hsteps : ∀ k, (decimalDigits (parts rank)).length = k + 1 → 0 < k → 10 ^ k ≤ parts rank :=
    fun k hk hk' => pow_le_of_length_decimalDigits hk hk'
  generalize hn : (decimalDigits (parts rank)).length = length at hlength hlt hsteps
  -- As many digits as keep the grid fine enough.
  have hfirst : (candidate? tie rank length (min 17 (length - 750))).isSome := by
    apply isSome_candidate?_of_fine hpos hrank
    rcases Nat.le_total length 767 with hle | hge
    · exact .inl (by omega)
    · refine .inr ?_
      rw [← pow_add]
      exact hsteps _ (by omega) (by omega)
  obtain ⟨fewest, hfewest, hcandidate⟩ := shortest_eq_candidate (by omega) (hn ▸ hfirst)
  rw [hn] at hcandidate
  obtain ⟨hreads, hexponent, hsignificand⟩ := candidate?_eq_some hrank hcandidate
  refine ⟨hreads, ?_, ?_, by omega, ?_⟩
  · rw [Nat.pos_iff_ne_zero]
    intro hzero
    rw [value, hzero, Nat.cast_zero, zero_mul, nearest_zero] at hreads
    omega
  · have hdiv : parts rank / 10 ^ (length - fewest) < 10 ^ fewest := by
      apply Nat.div_lt_of_lt_mul
      rw [← pow_add, show length - fewest + fewest = length by omega]
      exact hlt
    have hpow : 10 ^ fewest ≤ 10 ^ 17 := Nat.pow_le_pow_right (by decide) (by omega)
    exact hsignificand.trans ((Nat.succ_le_of_lt hdiv).trans hpow)
  · intro k hk
    have hlong := lt_length_of_whole hpos hk
    rw [hn] at hlong
    by_cases hshort : length ≤ 1074 + 17
    · have hgrid := isSome_candidate?_of_whole tie hrank hk
        (show length - (length - 1074) = 1074 by omega)
      obtain ⟨fewest', hfewest', hcandidate'⟩ := shortest_eq_candidate (by omega) (hn ▸ hgrid)
      rw [hn] at hcandidate'
      have hexponent' := (candidate?_eq_some hrank hcandidate').2.1
      omega
    · omega

end Decimal

end CoilHub
