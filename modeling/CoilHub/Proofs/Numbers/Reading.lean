import CoilHub.Proofs.Numbers.Notation
import CoilHub.Proofs.Text.Trimming

namespace CoilHub

section Signed

variable {negative : Bool} {c : Char} {rest digits text : List Char}

-- A text with a minus sign, if it is to have one.
def signed (negative : Bool) (text : List Char) : List Char := if negative then '-' :: text else text

theorem decimalText_eq (n : Int) : decimalText n = signed (decide (n < 0)) (decimalDigits n.natAbs) := by
  by_cases h : n < 0 <;> simp [decimalText, signed, h]

theorem splitSign_signed (hc : c.isDigit) :
    splitSign (signed negative (c :: rest)) = (negative, c :: rest) := by
  cases negative with
  | true => rfl
  | false => exact splitSign_of_isDigit hc rest

-- The integer of a sign and an absolute value.
def signedInt (negative : Bool) (n : Nat) : Int := if negative then -(n : Int) else n

theorem readInt?_eq {lowest highest : Int} (hsplit : splitSign text = (negative, digits)) :
    readInt? lowest highest text = (readDigits? digits).bind fun n =>
      if lowest ≤ signedInt negative n ∧ signedInt negative n ≤ highest
      then some (signedInt negative n) else none := by
  rw [readInt?, hsplit]
  rfl

theorem readInt?_eq_some {lowest highest n : Int} (h : readInt? lowest highest text = some n) :
    ∃ negative digits, splitSign text = (negative, digits) ∧ Numeral.IsDigits digits ∧
      n = signedInt negative (digitsValue digits) ∧ lowest ≤ n ∧ n ≤ highest := by
  obtain ⟨negative, digits, hsplit⟩ : ∃ negative digits, splitSign text = (negative, digits) :=
    ⟨_, _, rfl⟩
  rw [readInt?_eq hsplit, Option.bind_eq_some_iff] at h
  obtain ⟨m, hm, h⟩ := h
  obtain ⟨hne, hdigits, rfl⟩ := readDigits?_eq_some_iff.mp hm
  obtain ⟨hbounds, hn⟩ := Option.ite_none_right_eq_some.mp h
  cases hn
  exact ⟨negative, digits, hsplit, ⟨hne, hdigits⟩, rfl, hbounds⟩

theorem not_isBlank_of_mem_signed (h : ∀ c ∈ text, isBlank c = false) :
    ∀ c ∈ signed negative text, isBlank c = false := by
  intro c hc
  cases negative with
  | false => exact h c hc
  | true =>
      rcases List.mem_cons.mp hc with rfl | hc
      · decide
      · exact h c hc

theorem Numeral.not_isBlank_of_mem_text {n : Numeral} (h : n.Canonical) :
    ∀ c ∈ n.text, isBlank c = false := by
  intro c hc
  rw [Numeral.text, List.mem_append, List.mem_append] at hc
  rcases hc with hc | hc | hc
  · exact not_isBlank_of_isDigit (h.whole.2 c hc)
  · cases hfraction : n.fraction with
    | none => simp [fractionText, hfraction] at hc
    | some digits =>
        rw [hfraction, fractionText, Option.elim_some] at hc
        rcases List.mem_cons.mp hc with rfl | hc
        · decide
        · exact not_isBlank_of_isDigit ((h.fraction digits hfraction).2 c hc)
  · cases hpower : n.exponent with
    | none => simp [powerText, hpower] at hc
    | some power =>
        rw [hpower, powerText, Option.elim_some] at hc
        rcases List.mem_cons.mp hc with rfl | hc
        · decide
        rcases List.mem_cons.mp hc with rfl | hc
        · split <;> decide
        · exact not_isBlank_of_isDigit ((h.power power hpower).2 c hc)

-- An integer has no point.
theorem readInt?_eq_none_of_point {lowest highest : Int} (hsplit : splitSign text = (negative, digits))
    (hpoint : '.' ∈ digits) : readInt? lowest highest text = none := by
  have hread : readDigits? digits = none := by
    rw [readDigits?, if_neg]
    rintro ⟨-, hall⟩
    exact absurd (List.all_eq_true.mp hall _ hpoint) (by decide)
  rw [readInt?_eq hsplit, hread, Option.bind_none]

theorem toLower_of_isDigit (hc : c.isDigit) : c.toLower = c := by
  have hbounds := isDigit_bounds hc
  have hupper : ¬(c.val ≥ 'A'.val ∧ c.val ≤ 'Z'.val) := by
    rintro ⟨hle, -⟩
    have : 65 ≤ c.toNat := hle
    omega
  exact dif_neg hupper

-- No word begins with a digit, so that a text that does is read as a numeral.
theorem Binary64.read?_eq (hsplit : splitSign text = (negative, c :: rest)) (hc : c.isDigit) :
    Binary64.read? text =
      (Numeral.read? (c :: rest)).map fun n => .rounded negative n.value := by
  have hhead : ∀ word : List Char, (c :: rest).map Char.toLower = word →
      ∃ d ∈ word.head?, d.isDigit := by
    rintro _ rfl
    exact ⟨c, by simp [toLower_of_isDigit hc], hc⟩
  have hinf : ¬((c :: rest).map Char.toLower = "inf".toList ∨
      (c :: rest).map Char.toLower = "infinity".toList) := by
    rintro (hword | hword)
    · have := hhead _ hword
      simp at this
    · have := hhead _ hword
      simp at this
  have hnan : (c :: rest).map Char.toLower ≠ "nan".toList := by
    intro hword
    have := hhead _ hword
    simp at this
  simp only [Binary64.read?, hsplit, if_neg hinf, if_neg hnan, Numeral.toBinary64_eq]
  rfl

theorem Binary64.read?_signed {n : Numeral} (h : n.Canonical) :
    Binary64.read? (signed negative n.text) = some (.rounded negative n.value) := by
  obtain ⟨c, rest, htext, hc⟩ := h.exists_cons
  rw [htext, Binary64.read?_eq (splitSign_signed hc) hc, ← htext, Numeral.read?_text h]
  rfl

-- The double that is read from an integer's text is rounded from the integer.
theorem Binary64.read?_of_readInt? {lowest highest n : Int} (h : readInt? lowest highest text = some n) :
    ∃ negative, (negative = true → n ≤ 0) ∧ (negative = false → 0 ≤ n) ∧
      Binary64.read? text = some (.rounded negative n.natAbs) := by
  obtain ⟨negative, digits, hsplit, ⟨hne, hdigits⟩, rfl, -, -⟩ := readInt?_eq_some h
  obtain ⟨c, rest, rfl⟩ := List.exists_cons_of_ne_nil hne
  refine ⟨negative, ?_, ?_, ?_⟩
  · rintro rfl
    simp [signedInt]
  · rintro rfl
    simp [signedInt]
  · have habs : (signedInt negative (digitsValue (c :: rest))).natAbs = digitsValue (c :: rest) := by
      cases negative <;> simp [signedInt]
    have hread : Numeral.read? (c :: rest) = some { whole := c :: rest } := by
      rw [Numeral.read?, spanDigits_of_digits hdigits]
      simp [readExponent?]
    rw [Binary64.read?_eq hsplit (hdigits c List.mem_cons_self), hread, habs]
    simp [Numeral.value, Numeral.significand, Numeral.significandDigits, Numeral.scale,
      Numeral.statedExponent]

theorem Binary64.rank_of_read? {x : Binary64} (h : Binary64.read? text = some x) :
    x.rank ≤ infRank ∨ x = .nan := by
  simp only [Binary64.read?, Numeral.toBinary64_eq] at h
  split at h
  · cases h
    exact .inl (le_refl infRank)
  split at h
  · cases h
    exact .inr rfl
  · obtain ⟨n, -, rfl⟩ := Option.map_eq_some_iff.mp h
    exact .inl (Nat.min_le_right ..)

end Signed

end CoilHub
