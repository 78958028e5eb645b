import CoilHub.Value
import CoilHub.Proofs.Numbers.Reading
import CoilHub.Proofs.Numbers.Whole

namespace CoilHub

namespace CoilValue

-- What is shown of a value, typed in.
def reread (v : CoilValue) : CoilValue := parse v.display

-- Two numeric views are the same: no number, not a number, or one and the same number. A negative zero
-- may have lost its sign.
inductive SameNumber : Option Binary64 → Option Binary64 → Prop
  | none : SameNumber none none
  | nan {x y : Binary64} (hx : x.isNaN) (hy : y.isNaN) : SameNumber (some x) (some y)
  | same (x : Binary64) : SameNumber (some x) (some x)
  | zero : SameNumber (some (.zero false)) (some (.zero true))

theorem SameNumber.rfl {view : Option Binary64} : SameNumber view view := by
  cases view with
  | none => exact .none
  | some x => exact .same x

section Parse

variable {raw : String} {typed : List Char}

theorem parse_of_readInt? {n : Int} (htrim : trim raw.toList = typed)
    (h : readInt? lowestInteger highestInteger typed = some n) :
    parse raw = .integer (Int64.ofInt n) := by
  rw [parse, htrim, h]

theorem parse_of_read? {x : Binary64} (htrim : trim raw.toList = typed)
    (hint : readInt? lowestInteger highestInteger typed = none) (h : Binary64.read? typed = some x) :
    parse raw = .float x := by
  rw [parse, htrim, hint, h]

-- The three ways in which a text is taken.
theorem parse_cases (raw : String) :
    (∃ n : Int, readInt? lowestInteger highestInteger (trim raw.toList) = some n ∧
      parse raw = .integer (Int64.ofInt n)) ∨
    (∃ x, Binary64.read? (trim raw.toList) = some x ∧ parse raw = .float x) ∨
    (Binary64.read? (trim raw.toList) = none ∧ parse raw = .text (String.ofList (trim raw.toList))) := by
  cases hint : readInt? lowestInteger highestInteger (trim raw.toList) with
  | some n => exact .inl ⟨n, rfl, parse_of_readInt? rfl hint⟩
  | none =>
      cases hread : Binary64.read? (trim raw.toList) with
      | some x => exact .inr (.inl ⟨x, rfl, parse_of_read? rfl hint hread⟩)
      | none => exact .inr (.inr ⟨rfl, by rw [parse, hint, hread]⟩)

theorem parse_trim (raw : String) : parse (String.ofList (trim raw.toList)) = parse raw := by
  rw [parse, parse, String.toList_ofList, trim_trim]

theorem lowestInteger_eq : lowestInteger = -2 ^ 63 := by decide

theorem highestInteger_eq : highestInteger = 2 ^ 63 - 1 := by decide

theorem toInt_ofInt {n : Int} (hlow : lowestInteger ≤ n) (hhigh : n ≤ highestInteger) :
    (Int64.ofInt n).toInt = n := by
  rw [lowestInteger_eq] at hlow
  rw [highestInteger_eq] at hhigh
  exact Int64.toInt_ofInt_of_le (by omega) (by omega)

-- The number of an integer that was typed is the one of its text, except that the integer zero has no
-- sign.
theorem sameNumber_ofInt {n : Int} (h : readInt? lowestInteger highestInteger typed = some n) :
    SameNumber (some (.ofInt n)) (Binary64.read? typed) := by
  obtain ⟨negative, hneg, hpos, hread⟩ := Binary64.read?_of_readInt? h
  rw [hread, Binary64.ofInt_eq]
  by_cases hsign : decide (n < 0) = negative
  · rw [hsign]
    exact .same _
  · have hzero : n = 0 ∧ negative = true := by
      cases negative with
      | true => exact ⟨by simpa using (le_antisymm (hneg rfl) (by simpa using hsign)), rfl⟩
      | false => simp [hpos rfl] at hsign
    obtain ⟨rfl, rfl⟩ := hzero
    simp only [Int.natAbs_zero, Nat.cast_zero, Binary64.rounded_zero]
    exact .zero

theorem number?_parse (s : String) : SameNumber (parse s).number? (text s).number? := by
  have hview : (CoilValue.text s).number? = Binary64.read? (trim s.toList) := rfl
  rw [hview]
  rcases parse_cases s with ⟨n, hint, hparse⟩ | ⟨x, hread, hparse⟩ | ⟨hread, hparse⟩
  · obtain ⟨-, -, -, -, -, hlow, hhigh⟩ := readInt?_eq_some hint
    rw [hparse, number?, toInt_ofInt hlow hhigh]
    exact sameNumber_ofInt hint
  · rw [hparse, hread]
    exact .rfl
  · rw [hparse, number?, String.toList_ofList, trim_trim]
    exact .rfl

end Parse

section Integers

theorem readInt?_decimalText {lowest highest n : Int} (hlow : lowest ≤ n) (hhigh : n ≤ highest) :
    readInt? lowest highest (decimalText n) = some n := by
  obtain ⟨c, rest, hdigits⟩ := List.exists_cons_of_ne_nil (decimalDigits_ne_nil n.natAbs)
  have hc : c.isDigit := isDigit_of_mem_decimalDigits c (hdigits ▸ List.mem_cons_self)
  have hself : signedInt (decide (n < 0)) n.natAbs = n := by
    by_cases h : n < 0
    · simp only [signedInt, h, decide_true, if_true]
      omega
    · simp only [signedInt, h, decide_false, Bool.false_eq_true, if_false]
      omega
  rw [decimalText_eq, hdigits, readInt?_eq (splitSign_signed hc), ← hdigits,
    readDigits?_of_digits (decimalDigits_ne_nil _) isDigit_of_mem_decimalDigits,
    digitsValue_decimalDigits, Option.bind_some, hself, if_pos ⟨hlow, hhigh⟩]

theorem reread_integer (n : Int64) : reread (.integer n) = .integer n := by
  have htrim : trim (decimalText n.toInt) = decimalText n.toInt := by
    rw [decimalText_eq]
    exact trim_of_not_blank (not_isBlank_of_mem_signed fun c hc =>
      not_isBlank_of_isDigit (isDigit_of_mem_decimalDigits c hc))
  rw [reread, display, parse_of_readInt? (by rw [String.toList_ofList, htrim])
    (readInt?_decimalText (Int64.minValue_le_toInt n) (Int64.toInt_le n)), Int64.ofInt_toInt]

end Integers

section Doubles

open Binary64

variable {x : Binary64}

theorem nan_of_isNaN (hx : x.isNaN) : reread (.float x) = .float .nan := by
  have hdisplay : (CoilValue.float x).display = "NaN" := by
    rw [display, plainText, if_pos hx]
    rfl
  rw [reread, hdisplay]
  rfl

theorem reread_infinity (negative : Bool) :
    reread (.float (.infinity negative)) = .float (.infinity negative) := by
  cases negative <;> rfl

theorem reread_finite (hx : x.rank < infRank) :
    reread (.float x) =
      if x.plainNumeral.fraction = none ∧ lowestInteger ≤ x.shownInt ∧ x.shownInt ≤ highestInteger
      then .integer (Int64.ofInt (x.shownInt)) else .float x := by
  have htrim : trim (CoilValue.float x).display.toList = x.plainText := by
    rw [display, String.toList_ofList, trim_plainText hx]
  split
  · rename_i hshown
    exact parse_of_readInt? htrim (by rw [readInt?_plainText hx, if_pos hshown])
  · rename_i hshown
    exact parse_of_read? htrim (by rw [readInt?_plainText hx, if_neg hshown]) (read?_plainText hx)

theorem infinity_of_rank (hx : x.rank = infRank) : x = .infinity x.negative := ext_rank rfl hx

-- A double that is not shown as an integer comes back as it was, except that all that is not a number
-- is shown alike.
theorem reread_float_cases (x : Binary64) :
    (x.isNaN ∧ reread (.float x) = .float .nan) ∨ reread (.float x) = .float x ∨
      ∃ n, readInt? lowestInteger highestInteger x.plainText = some n ∧
        reread (.float x) = .integer (Int64.ofInt n) ∧ x.rank < infRank := by
  rcases lt_trichotomy x.rank infRank with hlt | heq | hgt
  · by_cases hshown : x.plainNumeral.fraction = none ∧ lowestInteger ≤ x.shownInt ∧
        x.shownInt ≤ highestInteger
    · refine .inr (.inr ⟨x.shownInt, ?_, ?_, hlt⟩)
      · rw [readInt?_plainText hlt, if_pos hshown]
      · rw [reread_finite hlt, if_pos hshown]
    · exact .inr (.inl (by rw [reread_finite hlt, if_neg hshown]))
  · rw [infinity_of_rank heq]
    exact .inr (.inl (reread_infinity _))
  · have hnan : x.isNaN := by simpa [isNaN] using hgt
    exact .inl ⟨hnan, nan_of_isNaN hnan⟩

theorem reread_float_eq_iff (hx : x.rank ≤ infRank) : reread (.float x) = .float x ↔ ¬x.IsShort := by
  rcases Nat.lt_or_eq_of_le hx with hlt | heq
  · rw [reread_finite hlt, isShort_iff hlt, ← lowestInteger_eq, ← highestInteger_eq]
    split
    · rename_i hshown
      exact iff_of_false (by simp) (not_not_intro hshown)
    · rename_i hshown
      exact iff_of_true rfl hshown
  · refine iff_of_true ?_ fun h => ?_
    · rw [infinity_of_rank heq, reread_infinity]
    · have hlt := h.rank_lt
      rw [heq] at hlt
      exact absurd hlt (by decide)

theorem not_isShort_nan : ¬IsShort .nan := fun h => absurd h.rank_lt (by decide)

theorem reread_reread_float (x : Binary64) : reread (reread (.float x)) = reread (.float x) := by
  rcases reread_float_cases x with ⟨-, hread⟩ | hread | ⟨n, -, hread, -⟩
  · rw [hread, nan_of_isNaN (by decide)]
  · rw [hread, hread]
  · rw [hread, reread_integer]

end Doubles

section Values

theorem number?_reread (v : CoilValue) : SameNumber (reread v).number? v.number? := by
  cases v with
  | integer n =>
      rw [reread_integer]
      exact .rfl
  | text s => exact number?_parse s
  | float x =>
      rcases reread_float_cases x with ⟨hnan, hread⟩ | hread | ⟨n, hint, hread, hx⟩
      · rw [hread]
        exact .nan (by decide) hnan
      · rw [hread]
        exact .rfl
      · obtain ⟨-, -, -, -, -, hlow, hhigh⟩ := readInt?_eq_some hint
        have hsame := sameNumber_ofInt hint
        rw [Binary64.read?_plainText hx] at hsame
        rw [hread, number?, toInt_ofInt hlow hhigh]
        exact hsame

-- What was typed is a fixed value, unless it is a double that is shown as an integer.
theorem reread_parse_eq_iff (s : String) :
    reread (parse s) = parse s ↔ ¬∃ x : Binary64, parse s = .float x ∧ x.IsShort := by
  rcases parse_cases s with ⟨n, -, hparse⟩ | ⟨x, hread, hparse⟩ | ⟨-, hparse⟩
  · rw [hparse]
    exact iff_of_true (reread_integer _) (by simp)
  · rw [hparse]
    simp only [float.injEq, exists_eq_left']
    rcases Binary64.rank_of_read? hread with hx | rfl
    · exact reread_float_eq_iff hx
    · exact iff_of_true (nan_of_isNaN (by decide)) not_isShort_nan
  · refine iff_of_true ?_ (by simp [hparse])
    rw [hparse]
    exact (parse_trim s).trans hparse

theorem reread_reread_eq_iff (v : CoilValue) :
    reread (reread v) = reread v ↔
      ¬∃ (s : String) (x : Binary64), v = .text s ∧ reread v = .float x ∧ x.IsShort := by
  cases v with
  | integer n =>
      rw [reread_integer]
      exact iff_of_true (reread_integer n) (by simp)
  | float x => exact iff_of_true (reread_reread_float x) (by simp)
  | text s =>
      simp only [text.injEq, exists_and_left, exists_eq_left']
      exact reread_parse_eq_iff s

-- After the second time nothing changes any more.
theorem reread_reread_reread (v : CoilValue) : reread (reread (reread v)) = reread (reread v) := by
  by_cases h : reread (reread v) = reread v
  · rw [h, h]
  · obtain ⟨s, x, -, hread, -⟩ := not_not.mp (mt (reread_reread_eq_iff v).mpr h)
    rw [hread, reread_reread_float]

-- Showing a value and typing it in keeps its number, and keeps integers as they are. Twice is the same
-- as once but for a text of a double that is whole and below `2 ^ 63`: it becomes that double first, and
-- an integer only the second time, since integers win when something is typed and a double is shown
-- without a point. Three times is the same as twice.
theorem shown_typed_again :
    (∀ v, SameNumber (reread v).number? v.number?) ∧
    (∀ s : String, SameNumber (parse s).number? (text s).number?) ∧
    (∀ n : Int64, reread (.integer n) = .integer n) ∧
    (∀ v, reread (reread v) = reread v ↔
      ¬∃ (s : String) (x : Binary64), v = .text s ∧ reread v = .float x ∧ x.IsShort) ∧
    (∀ v, reread (reread (reread v)) = reread (reread v)) :=
  ⟨number?_reread, number?_parse, reread_integer, reread_reread_eq_iff, reread_reread_reread⟩

-- The text with a point is a double at first and an integer after that.
theorem reread_point_text : reread (reread (.text "5.0")) ≠ reread (.text "5.0") := by decide +kernel

end Values

end CoilValue

end CoilHub
