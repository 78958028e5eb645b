import CoilHub.Proofs.Numbers.Grammar
import CoilHub.Proofs.Values.Reread

namespace CoilHub

namespace CoilValue

-- What a text without blanks at its ends is taken as.
inductive Taken (typed : List Char) : CoilValue → Prop
  | integer {n : Int64} (h : WritesInteger typed n.toInt) : Taken typed (.integer n)
  | float {x : Binary64} (hint : ∀ n : Int64, ¬WritesInteger typed n.toInt)
      (h : Binary64.WritesDouble typed x) : Taken typed (.float x)
  | text {s : String} (hint : ∀ n : Int64, ¬WritesInteger typed n.toInt)
      (hdouble : ∀ x, ¬Binary64.WritesDouble typed x) (h : s.toList = typed) : Taken typed (.text s)

variable {raw : String} {typed : List Char}

theorem readInt?_eq_some_iff_writes {n : Int64} :
    readInt? lowestInteger highestInteger typed = some n.toInt ↔ WritesInteger typed n.toInt := by
  rw [readInt?_eq_some_iff]
  exact and_iff_left ⟨Int64.minValue_le_toInt n, Int64.toInt_le n⟩

-- One text writes one integer.
theorem writesInteger_unique {m n : Int} (hm : WritesInteger typed m) (hn : WritesInteger typed n) :
    m = n := by
  have hmread : readInt? (min m n) (max m n) typed = some m :=
    readInt?_eq_some_iff.mpr ⟨hm, min_le_left .., le_max_left ..⟩
  have hnread : readInt? (min m n) (max m n) typed = some n :=
    readInt?_eq_some_iff.mpr ⟨hn, min_le_right .., le_max_right ..⟩
  exact Option.some.inj (hmread.symm.trans hnread)

theorem readInt?_eq_none_iff_writes :
    readInt? lowestInteger highestInteger typed = none ↔ ∀ n : Int64, ¬WritesInteger typed n.toInt := by
  constructor
  · intro h n hwrites
    rw [readInt?_eq_some_iff_writes.mpr hwrites] at h
    cases h
  · intro h
    rw [Option.eq_none_iff_forall_ne_some]
    intro n hread
    obtain ⟨hwrites, hlow, hhigh⟩ := readInt?_eq_some_iff.mp hread
    exact h (Int64.ofInt n) ((toInt_ofInt hlow hhigh).symm ▸ hwrites)

theorem taken_parse (ht : Trims raw.toList typed) : Taken typed (parse raw) := by
  have htrim := ht.trim_eq
  cases hint : readInt? lowestInteger highestInteger typed with
  | some n =>
      obtain ⟨hwrites, hlow, hhigh⟩ := readInt?_eq_some_iff.mp hint
      rw [parse_of_readInt? htrim hint]
      exact .integer ((toInt_ofInt hlow hhigh).symm ▸ hwrites)
  | none =>
      have hnone := readInt?_eq_none_iff_writes.mp hint
      cases hread : Binary64.read? typed with
      | some x =>
          rw [parse_of_read? htrim hint hread]
          exact .float hnone (Binary64.read?_eq_some_iff.mp hread)
      | none =>
          have hparse : parse raw = .text (String.ofList typed) := by
            rw [parse, htrim, hint, hread]
          rw [hparse]
          refine .text hnone (fun x hwrites => ?_) String.toList_ofList
          rw [Binary64.read?_eq_some_iff.mpr hwrites] at hread
          cases hread

-- A text is taken in one way only, since each reader gives one number at most.
theorem Taken.unique {v w : CoilValue} (hv : Taken typed v) (hw : Taken typed w) : v = w := by
  cases hv with
  | integer h =>
      cases hw with
      | integer h' => rw [Int64.toInt_inj.mp (writesInteger_unique h h')]
      | float hint => exact absurd h (hint _)
      | text hint => exact absurd h (hint _)
  | float hint h =>
      cases hw with
      | integer h' => exact absurd h' (hint _)
      | float _ h' =>
          have hread := Binary64.read?_eq_some_iff.mpr h
          rw [Binary64.read?_eq_some_iff.mpr h', Option.some.injEq] at hread
          rw [hread]
      | text _ hdouble => exact absurd h (hdouble _)
  | text hint hdouble h =>
      cases hw with
      | integer h' => exact absurd h' (hint _)
      | float _ h' => exact absurd h' (hdouble _)
      | text _ _ h' => rw [String.toList_injective (h.trans h'.symm)]

-- An integer that does not fit is read by the reader for doubles, which has no bounds.
theorem taken_beyond {n : Int} (hwrites : WritesInteger typed n) (hn : n < -2 ^ 63 ∨ 2 ^ 63 ≤ n) :
    ∃ x : Binary64, Taken typed (.float x) ∧ x.negative = decide (n < 0) ∧
      Binary64.IsNearest n.natAbs x.rank := by
  have hread : readInt? n n typed = some n := readInt?_eq_some_iff.mpr ⟨hwrites, le_refl n, le_refl n⟩
  obtain ⟨negative, hneg, hpos, hdouble⟩ := Binary64.read?_of_readInt? hread
  have hsign : negative = decide (n < 0) := by
    cases negative with
    | true =>
        have := hneg rfl
        simp only [true_eq_decide_iff]
        omega
    | false =>
        have := hpos rfl
        simp only [false_eq_decide_iff]
        omega
  refine ⟨.rounded negative n.natAbs, .float (fun m hm => ?_) (Binary64.read?_eq_some_iff.mp hdouble),
    hsign, Binary64.isNearest_rounded (Nat.cast_nonneg _) negative⟩
  have hsame := writesInteger_unique hm hwrites
  have hlow := Int64.le_toInt m
  have hhigh := Int64.toInt_lt m
  omega

-- A number that overflows is infinite.
theorem taken_infinity_iff {negative : Bool} {sign body : List Char} {n : Numeral}
    (hsign : SignText negative sign) (hbody : n.Typed body)
    (hint : ∀ m : Int64, ¬WritesInteger (sign ++ body) m.toInt) :
    Taken (sign ++ body) (.float (.infinity negative)) ↔ 2 ^ 1024 - 2 ^ 970 ≤ n.value := by
  have hread := Binary64.read?_of_typed hsign hbody
  rw [← Binary64.rounded_eq_infinity_iff n.value_nonneg negative]
  constructor
  · intro h
    cases h with
    | float _ hdouble =>
        rw [Binary64.read?_eq_some_iff.mpr hdouble, Option.some.injEq] at hread
        exact hread.symm
  · intro h
    rw [h] at hread
    exact .float hint (Binary64.read?_eq_some_iff.mp hread)

-- A typed value is an integer, a double or a text just as the grammar says. What is beyond the integers
-- becomes the nearest double with its sign, and what is beyond the doubles as well becomes infinite.
theorem parse_grammar (ht : Trims raw.toList typed) :
    (∀ v, parse raw = v ↔ Taken typed v) ∧
    (∀ n : Int, WritesInteger typed n → n < -2 ^ 63 ∨ 2 ^ 63 ≤ n →
      ∃ x : Binary64, parse raw = .float x ∧ x.negative = decide (n < 0) ∧
        Binary64.IsNearest n.natAbs x.rank) ∧
    ∀ negative sign body, ∀ n : Numeral, SignText negative sign → n.Typed body → typed = sign ++ body →
      (∀ m : Int64, ¬WritesInteger typed m.toInt) →
        (parse raw = .float (.infinity negative) ↔ 2 ^ 1024 - 2 ^ 970 ≤ n.value) := by
  have htaken : ∀ v, parse raw = v ↔ Taken typed v :=
    fun v => ⟨fun h => h ▸ taken_parse ht, (taken_parse ht).unique⟩
  refine ⟨htaken, fun n hwrites hn => ?_, ?_⟩
  · obtain ⟨x, hx, hsign, hnear⟩ := taken_beyond hwrites hn
    exact ⟨x, (htaken _).mpr hx, hsign, hnear⟩
  · rintro negative sign body n hsign hbody rfl hint
    rw [htaken, taken_infinity_iff hsign hbody hint]

-- One more than the greatest integer, with a sign and with blanks around it.
theorem parse_grammar_beyond :
    Trims " +9223372036854775808\u3000".toList "+9223372036854775808".toList ∧
    ∃ x : Binary64, parse " +9223372036854775808\u3000" = .float x ∧ x.negative = false ∧
      Binary64.IsNearest (2 ^ 63) x.rank := by
  have ht : Trims " +9223372036854775808\u3000".toList "+9223372036854775808".toList :=
    trims_iff.mpr (by decide)
  have hdigits : Numeral.IsDigits "9223372036854775808".toList := ⟨by decide, List.all_eq_true.mp (by decide)⟩
  have hwrites : WritesInteger "+9223372036854775808".toList (2 ^ 63) :=
    ⟨false, "+".toList, "9223372036854775808".toList, .plus, hdigits, rfl, by decide⟩
  have habs : (((2 : Int) ^ 63).natAbs : ℚ) = 2 ^ 63 := by norm_num
  obtain ⟨x, hparse, hsign, hnear⟩ := (parse_grammar ht).2.1 (2 ^ 63) hwrites (.inr (le_refl _))
  exact ⟨ht, x, hparse, hsign, habs ▸ hnear⟩

end CoilValue

end CoilHub
