import CoilHub.Proofs.Numbers.Numerals
import CoilHub.Proofs.Numbers.Shortest

namespace CoilHub

namespace Digits

-- The number that the digits stand for.
def value (d : Digits) : ℚ := digitsValue d.digits * 10 ^ (d.lead + 1 - d.digits.length)

-- Digits without zeros at the front.
structure Proper (d : Digits) : Prop where
  digits : Numeral.IsDigits d.digits
  leading : d.digits.head? ≠ some '0'

theorem ofDecimal_spec {d : Decimal} (hd : 0 < d.significand) :
    ∃ zeros : ℕ, d.significand = digitsValue (ofDecimal d).digits * 10 ^ zeros ∧
      (ofDecimal d).lead = d.exponent + zeros + (ofDecimal d).digits.length - 1 ∧
      (ofDecimal d).Proper := by
  obtain ⟨zeros, hzeros⟩ := exists_zeros (decimalDigits d.significand)
  have hsplit : decimalDigits d.significand =
      (ofDecimal d).digits ++ List.replicate zeros '0' := hzeros
  have hvalue : d.significand = digitsValue (ofDecimal d).digits * 10 ^ zeros := by
    conv_lhs => rw [← digitsValue_decimalDigits d.significand, hsplit, digitsValue_append]
    simp
  have hne : (ofDecimal d).digits ≠ [] := by
    intro hnil
    rw [hnil, digitsValue_nil, Nat.zero_mul] at hvalue
    omega
  refine ⟨zeros, hvalue, ?_, ⟨hne, fun c hc => ?_⟩, ?_⟩
  · have hlength := congrArg List.length hsplit
    rw [List.length_append, List.length_replicate] at hlength
    have hlead : (ofDecimal d).lead = d.exponent + (decimalDigits d.significand).length - 1 := rfl
    omega
  · exact isDigit_of_mem_decimalDigits c (hsplit ▸ List.mem_append_left _ hc)
  · have hhead := head?_decimalDigits hd
    rwa [hsplit, List.head?_append_of_ne_nil _ hne] at hhead

theorem value_ofDecimal {d : Decimal} (hd : 0 < d.significand) : (ofDecimal d).value = d.value := by
  obtain ⟨zeros, hvalue, hlead, -⟩ := ofDecimal_spec hd
  rw [value, hlead, Decimal.value]
  conv_rhs => rw [hvalue]
  rw [Nat.cast_mul, Nat.cast_pow, Nat.cast_ofNat, mul_assoc, ← zpow_natCast, ← zpow_add₀ (by norm_num)]
  congr 2
  ring

section

variable {d : Digits}

-- The digits on both sides of the point stand for the number.
theorem value_split (hd : d.digits ≠ []) :
    (digitsValue (d.whole ++ d.fraction) : ℚ) * 10 ^ (-(d.fraction.length : ℤ)) = d.value := by
  have hlength := List.length_pos_iff.mpr hd
  rw [value]
  by_cases hlead : d.lead < 0
  · have hzeros : d.whole ++ d.fraction =
        List.replicate (1 + (-d.lead - 1).toNat) '0' ++ d.digits := by
      rw [List.replicate_add, whole, fraction, if_pos hlead, if_pos hlead]
      simp
    have hfraction : d.fraction.length = (-d.lead - 1).toNat + d.digits.length := by
      rw [fraction, if_pos hlead, List.length_append, List.length_replicate]
    rw [hzeros, hfraction, digitsValue_append, digitsValue_replicate, Nat.zero_mul, Nat.zero_add]
    congr 2
    omega
  · have hwhole : d.whole = d.digits.take (d.lead.toNat + 1) ++
        List.replicate (d.lead.toNat + 1 - d.digits.length) '0' := by rw [whole, if_neg hlead]
    have hfraction : d.fraction = d.digits.drop (d.lead.toNat + 1) := by rw [fraction, if_neg hlead]
    rcases Nat.le_total d.digits.length (d.lead.toNat + 1) with hle | hge
    · rw [hwhole, hfraction, List.drop_eq_nil_of_le hle, List.take_of_length_le hle, List.append_nil,
        digitsValue_append, digitsValue_replicate, List.length_replicate, Nat.add_zero, Nat.cast_mul,
        Nat.cast_pow, Nat.cast_ofNat, ← zpow_natCast, List.length_nil, Nat.cast_zero, neg_zero,
        zpow_zero, mul_one]
      congr 2
      omega
    · rw [hwhole, hfraction, Nat.sub_eq_zero_of_le hge, List.replicate_zero, List.append_nil,
        List.take_append_drop, List.length_drop]
      congr 2
      omega

theorem isDigit_zero : '0'.isDigit := by decide

theorem Proper.isDigits_whole (h : d.Proper) : Numeral.IsDigits d.whole := by
  obtain ⟨hne, hdigits⟩ := h.digits
  unfold whole
  split
  · exact ⟨by simp, by simp⟩
  · refine ⟨?_, fun c hc => ?_⟩
    · have hpos := List.length_pos_iff.mpr hne
      refine List.length_pos_iff.mp ?_
      rw [List.length_append, List.length_take]
      omega
    · rcases List.mem_append.mp hc with htake | hzeros
      · exact hdigits c (List.mem_of_mem_take htake)
      · exact List.eq_of_mem_replicate hzeros ▸ isDigit_zero

theorem Proper.isDigits_fraction (h : d.Proper) (hne : d.fraction ≠ []) :
    Numeral.IsDigits d.fraction := by
  refine ⟨hne, fun c hc => ?_⟩
  unfold fraction at hc
  split at hc
  · rcases List.mem_append.mp hc with hzeros | hdigits
    · exact List.eq_of_mem_replicate hzeros ▸ isDigit_zero
    · exact h.digits.2 c hdigits
  · exact h.digits.2 c (List.mem_of_mem_drop hc)

theorem Proper.leading_whole (h : d.Proper) (hzero : d.whole.head? = some '0') : d.whole.length = 1 := by
  unfold whole at hzero ⊢
  split
  · rfl
  · rename_i hlead
    rw [if_neg hlead, List.head?_append_of_ne_nil _ (by simp [h.digits.1]), List.head?_take,
      if_neg (by omega)] at hzero
    exact absurd hzero h.leading

-- The three forms: without a point where there is nothing behind it, with a point in any case, and with
-- one digit in front of the point and an exponent.
def plain (d : Digits) : Numeral :=
  { whole := d.whole, fraction := if d.fraction = [] then none else some d.fraction }

def pointed (d : Digits) : Numeral :=
  { whole := d.whole, fraction := some (if d.fraction = [] then ['0'] else d.fraction) }

def powered (d : Digits) : Numeral :=
  { whole := d.digits.take 1
    fraction := if d.digits.drop 1 = [] then none else some (d.digits.drop 1)
    exponent := some (decide (d.lead < 0), decimalDigits d.lead.natAbs) }

theorem Proper.canonical_plain (h : d.Proper) : d.plain.Canonical := by
  refine ⟨h.isDigits_whole, h.leading_whole, fun digits hdigits => ?_, by simp [plain]⟩
  simp only [plain] at hdigits
  split at hdigits
  · cases hdigits
  · rename_i hne
    cases hdigits
    exact h.isDigits_fraction hne

theorem Proper.canonical_pointed (h : d.Proper) : d.pointed.Canonical := by
  refine ⟨h.isDigits_whole, h.leading_whole, fun digits hdigits => ?_, by simp [pointed]⟩
  simp only [pointed, Option.mem_some_iff] at hdigits
  subst hdigits
  split
  · exact ⟨by simp, by simp⟩
  · rename_i hne
    exact h.isDigits_fraction hne

theorem Proper.canonical_powered (h : d.Proper) : d.powered.Canonical := by
  obtain ⟨hne, hdigits⟩ := h.digits
  have htake : d.digits.take 1 ≠ [] := by simp [hne]
  refine ⟨⟨htake, fun c hc => hdigits c (List.mem_of_mem_take hc)⟩, fun _ => ?_, fun tail htail => ?_,
    fun power hpower => ?_⟩
  · have := List.length_pos_iff.mpr hne
    simp only [powered, List.length_take]
    omega
  · simp only [powered] at htail
    split at htail
    · cases htail
    · rename_i hdrop
      cases htail
      exact ⟨hdrop, fun c hc => hdigits c (List.mem_of_mem_drop hc)⟩
  · cases hpower
    exact ⟨decimalDigits_ne_nil _, isDigit_of_mem_decimalDigits⟩

theorem value_plain (hd : d.digits ≠ []) : d.plain.value = d.value := by
  rw [← value_split hd]
  by_cases hfraction : d.fraction = [] <;>
    simp [plain, Numeral.value, Numeral.significand, Numeral.significandDigits, Numeral.scale,
      Numeral.statedExponent, hfraction]

theorem value_pointed (hd : d.digits ≠ []) : d.pointed.value = d.value := by
  rw [← value_split hd]
  by_cases hfraction : d.fraction = []
  · have hzero : digitsValue ['0'] = 0 := rfl
    simp [pointed, Numeral.value, Numeral.significand, Numeral.significandDigits, Numeral.scale,
      Numeral.statedExponent, hfraction, digitsValue_append, hzero]
  · simp [pointed, Numeral.value, Numeral.significand, Numeral.significandDigits, Numeral.scale,
      Numeral.statedExponent, hfraction]

theorem scale_powered (hd : d.digits ≠ []) : d.powered.scale = d.lead + 1 - d.digits.length := by
  have hlength := List.length_pos_iff.mpr hd
  have hstated : d.powered.statedExponent = d.lead := by
    by_cases hlead : d.lead < 0
    · simp only [powered, Numeral.statedExponent, hlead, decide_true, digitsValue_decimalDigits]
      omega
    · simp only [powered, Numeral.statedExponent, hlead, decide_false, digitsValue_decimalDigits]
      omega
  have htail : (d.powered.fraction.getD []).length = d.digits.length - 1 := by
    simp only [powered]
    split
    · rename_i hnil
      rw [Option.getD_none, ← hnil, List.length_drop]
    · rw [Option.getD_some, List.length_drop]
  rw [Numeral.scale, hstated, htail]
  omega

theorem significand_powered (d : Digits) : d.powered.significand = digitsValue d.digits := by
  have hdigits : d.powered.significandDigits = d.digits := by
    simp only [powered, Numeral.significandDigits]
    split
    · rename_i hnil
      rw [Option.getD_none, ← hnil, List.take_append_drop]
    · rw [Option.getD_some, List.take_append_drop]
  rw [Numeral.significand, hdigits]

theorem value_powered (hd : d.digits ≠ []) : d.powered.value = d.value := by
  rw [Numeral.value, scale_powered hd, significand_powered, value]

-- Documents use an exponent for very large and very small numbers only.
def documented (d : Digits) : Numeral :=
  if -5 ≤ d.lead ∧ d.lead ≤ 15 then d.pointed else d.powered

theorem Proper.canonical_documented (h : d.Proper) : d.documented.Canonical := by
  unfold documented
  split
  · exact h.canonical_pointed
  · exact h.canonical_powered

theorem value_documented (hd : d.digits ≠ []) : d.documented.value = d.value := by
  unfold documented
  split
  · exact value_pointed hd
  · exact value_powered hd

theorem text_plain (d : Digits) :
    d.plain.text = d.whole ++ (if d.fraction = [] then [] else '.' :: d.fraction) := by
  by_cases hfraction : d.fraction = [] <;>
    simp [plain, Numeral.text, Numeral.fractionText, Numeral.powerText, hfraction]

theorem text_documented (d : Digits) :
    d.documented.text =
      if -5 ≤ d.lead ∧ d.lead ≤ 15 then
        d.whole ++ '.' :: (if d.fraction = [] then ['0'] else d.fraction)
      else d.scientific := by
  unfold documented
  split
  · by_cases hfraction : d.fraction = [] <;>
      simp [pointed, Numeral.text, Numeral.fractionText, Numeral.powerText, hfraction]
  · by_cases hlead : d.lead < 0 <;> by_cases htail : d.digits.tail = [] <;>
      simp [scientific, powered, Numeral.text, Numeral.fractionText, Numeral.powerText, hlead, htail]

end

end Digits

namespace Binary64

variable {x : Binary64}

-- The numeral of the plain notation.
def plainNumeral (x : Binary64) : Numeral :=
  if x.rank = 0 then { whole := ['0'] } else (Digits.ofDecimal (Decimal.shortest .away x.rank)).plain

-- The numeral of the notation of documents.
def documentNumeral (x : Binary64) : Numeral :=
  if x.rank = 0 then { whole := ['0'], fraction := some ['0'] }
  else (Digits.ofDecimal (Decimal.shortest .even x.rank)).documented

theorem plainText_eq (hx : x.rank < infRank) : x.plainText = x.signText ++ x.plainNumeral.text := by
  unfold plainText plainNumeral
  rw [if_neg (by simp [not_isNaN_of_lt hx]), if_neg (by simp [not_isInfinite_of_lt hx])]
  by_cases hzero : x.rank = 0
  · rw [if_pos hzero, if_pos hzero]
    rfl
  · rw [if_neg hzero, if_neg hzero, Digits.text_plain, List.append_assoc]

theorem documentText?_eq (hx : x.rank < infRank) :
    x.documentText? = some (x.signText ++ x.documentNumeral.text) := by
  unfold documentText? documentNumeral
  rw [if_neg (by simp [isFinite_iff.mpr hx])]
  by_cases hzero : x.rank = 0
  · rw [if_pos hzero, if_pos hzero]
    rfl
  · rw [if_neg hzero, if_neg hzero, Digits.text_documented]

-- The shortest digits of a double are proper ones, and rounded to it.
theorem shortest_digits (tie : TieRule) {rank : Nat} (hpos : 0 < rank) (hrank : rank < infRank) :
    (Digits.ofDecimal (Decimal.shortest tie rank)).Proper ∧
      nearest (Digits.ofDecimal (Decimal.shortest tie rank)).value = rank := by
  have hspec := Decimal.shortest_spec tie hpos hrank
  obtain ⟨-, -, -, hproper⟩ := Digits.ofDecimal_spec hspec.significand_pos
  exact ⟨hproper, by rw [Digits.value_ofDecimal hspec.significand_pos, hspec.reads]⟩

theorem canonical_plainNumeral (hx : x.rank < infRank) : x.plainNumeral.Canonical := by
  unfold plainNumeral
  split
  · exact ⟨⟨by simp, by simp⟩, fun _ => rfl, by simp, by simp⟩
  · rename_i hne
    exact (shortest_digits .away (Nat.pos_of_ne_zero hne) hx).1.canonical_plain

theorem canonical_documentNumeral (hx : x.rank < infRank) : x.documentNumeral.Canonical := by
  unfold documentNumeral
  split
  · exact ⟨⟨by simp, by simp⟩, fun _ => rfl, by simp [Numeral.IsDigits], by simp⟩
  · rename_i hne
    exact (shortest_digits .even (Nat.pos_of_ne_zero hne) hx).1.canonical_documented

-- What is written is rounded to the double.
theorem nearest_plainNumeral (hx : x.rank < infRank) : nearest x.plainNumeral.value = x.rank := by
  unfold plainNumeral
  split
  · rename_i hzero
    have hvalue : ({ whole := ['0'] } : Numeral).value = 0 := by
      simp [Numeral.value, Numeral.significand, Numeral.significandDigits, digitsValue]
    rw [hvalue, nearest_zero, hzero]
  · rename_i hne
    obtain ⟨hproper, hnearest⟩ := shortest_digits .away (Nat.pos_of_ne_zero hne) hx
    rw [Digits.value_plain hproper.digits.1, hnearest]

theorem nearest_documentNumeral (hx : x.rank < infRank) :
    nearest x.documentNumeral.value = x.rank := by
  unfold documentNumeral
  split
  · rename_i hzero
    have hvalue : ({ whole := ['0'], fraction := some ['0'] } : Numeral).value = 0 := by
      simp [Numeral.value, Numeral.significand, Numeral.significandDigits, digitsValue]
    rw [hvalue, nearest_zero, hzero]
  · rename_i hne
    obtain ⟨hproper, hnearest⟩ := shortest_digits .even (Nat.pos_of_ne_zero hne) hx
    rw [Digits.value_documented hproper.digits.1, hnearest]

end Binary64

end CoilHub
