import CoilHub.Proofs.Json.Legible
import CoilHub.Proofs.Values.Documents
import CoilHub.Proofs.Values.Reread

namespace CoilHub

namespace CoilValue

-- What comes of a text that spells a value.
structure Decodes (o : Outline) (result : Decoded CoilValue) : Prop where
  integer : ∀ i : Int64, result = .ok (.integer i) ↔ ∃ n, o = .number n ∧ n.IsInteger i.toInt
  float : ∀ n, o = .number n → (∀ i : Int64, ¬n.IsInteger i.toInt) → ¬n.Overflows →
    ∃ x, result = .ok (.float x) ∧ n.Reads x
  negativeZero : ∀ n, o = .number n → n.Whole → n.negative = true → n.significand = 0 →
    result = .ok (.float (.zero true))
  beyond : ∀ n, o = .number n → n.Overflows → result = .error .malformed
  text : ∀ s, result = .ok (.text s) ↔ ∃ q, o = .string q ∧ q.Means s
  refused : (∀ n, o ≠ .number n) → (∀ q, o ≠ .string q) → o.Legible 127 → result = .error .mismatch
  -- where numbers begin to overflow
  inRange : ∀ n, o = .number n → n.value ≤ 2 ^ 1024 - 2 ^ 973 → ¬n.Overflows
  outOfRange : ∀ n, o = .number n → 2 ^ 1024 + 2 ^ 973 ≤ n.value → n.Overflows

section Numbers

variable {n : Numeral} {i : Int64}

theorem decode_of_none (h : n.jsonNumber? = none) : decode (.number n) = .error .malformed := by
  simp [decode, Outline.readFully, h]
  rfl

-- An integer in range has no more digits than fit.
theorem whole_of_isInteger (h : n.IsInteger i.toInt) : n.Whole := by
  have hlow := Int64.le_toInt i
  have hhigh := Int64.toInt_lt i
  have hvalue := h.value
  refine ⟨h.fraction, h.exponent, ?_⟩
  rw [show Significand.highest = 2 ^ 64 - 1 from rfl]
  unfold signedInt at hvalue
  split at hvalue <;> omega

theorem decode_isInteger (h : n.IsInteger i.toInt) : decode (.number n) = .ok (.integer i) := by
  have hlow := Int64.le_toInt i
  have hhigh := Int64.toInt_lt i
  have hread := (whole_of_isInteger h).jsonNumber?
  have hvalue := h.value
  cases hsign : n.negative with
  | false =>
      rw [hsign, if_pos rfl] at hread
      rw [signedInt, hsign, if_neg (by decide)] at hvalue
      have hrange : (n.significand : ℤ) ≤ highestInteger := hvalue ▸ Int64.toInt_le i
      rw [decode_number hread, ofNumber, if_pos (by exact_mod_cast hrange), hvalue, Int64.ofInt_toInt]
  | true =>
      have hne := h.sign hsign
      rw [signedInt, hsign, if_pos rfl] at hvalue
      rw [hsign, if_neg (by decide), if_pos ⟨by omega, by omega⟩] at hread
      rw [decode_number hread, ofNumber, hvalue, Int64.ofInt_toInt]

-- A numeral of few digits that is no integer is outside the range of integers, or negative zero.
theorem decode_whole (hwhole : n.Whole) (h : ∀ i : Int64, ¬n.IsInteger i.toInt) :
    decode (.number n) = .ok (.float (if n.negative then (Binary64.ofInt n.significand).neg
      else .ofInt n.significand)) := by
  have hread := hwhole.jsonNumber?
  -- whatever integer in range the digits stood for would be excluded
  have hout : ∀ k : ℤ, signedInt n.negative n.significand = k → lowestInteger ≤ k → k ≤ highestInteger →
      n.negative = true ∧ n.significand = 0 := by
    intro k hk hlow hhigh
    by_contra hsign
    refine h (Int64.ofInt k) ⟨hwhole.fraction, hwhole.exponent, fun hneg hzero => hsign ⟨hneg, hzero⟩, ?_⟩
    rw [toInt_ofInt hlow hhigh, hk]
  have hlowest := lowestInteger_eq
  have hhighest := highestInteger_eq
  cases hsign : n.negative with
  | false =>
      have hlarge : ¬(n.significand : ℤ) ≤ highestInteger := by
        intro hle
        have hnone := hout n.significand (by rw [signedInt, hsign, if_neg (by decide)]) (by omega) hle
        rw [hsign] at hnone
        cases hnone.1
      rw [hsign, if_pos rfl] at hread
      rw [decode_number hread, ofNumber, if_neg hlarge]
      rfl
  | true =>
      have houtside : ¬(0 < n.significand ∧ n.significand ≤ 2 ^ 63) := by
        rintro ⟨hpos, hle⟩
        have hnone := hout (-n.significand) (by rw [signedInt, hsign, if_pos rfl]) (by omega) (by omega)
        omega
      rw [hsign, if_neg (by decide), if_neg houtside] at hread
      rw [decode_number hread, ofNumber]
      rfl

theorem decode_beyond (h : n.Overflows) : decode (.number n) = .error .malformed := by
  refine decode_of_none ?_
  rw [← Option.not_isSome_iff_eq_none, Numeral.isSome_jsonNumber?]
  exact not_not_intro h

theorem decode_not_integer (hn : n.Canonical) (h : ∀ i : Int64, ¬n.IsInteger i.toInt)
    (hrange : ¬n.Overflows) : ∃ x, decode (.number n) = .ok (.float x) ∧ n.Reads x := by
  by_cases hwhole : n.Whole
  · exact ⟨_, decode_whole hwhole h, hwhole.reads⟩
  · obtain ⟨y, hy, hscaled⟩ := JsonNumber.scale?_scaled n.leading_le hrange
    have hread := Numeral.jsonNumber?_scaled hwhole
    rw [hy, Option.map_some] at hread
    exact ⟨_, decode_number hread, Numeral.reads_of_scaled hn hscaled⟩

theorem decode_negative_zero (hwhole : n.Whole) (hsign : n.negative = true) (hzero : n.significand = 0) :
    decode (.number n) = .ok (.float (.zero true)) := by
  have hnone : ∀ i : Int64, ¬n.IsInteger i.toInt := fun i hi => hi.sign hsign hzero
  rw [decode_whole hwhole hnone, hsign, if_pos rfl, hzero]
  rfl

end Numbers

section Others

variable {o : Outline} {q : Quoted} {s : String}

theorem decode_string (q : Quoted) : decode (.string q) = q.read.map .text := by
  simp only [decode, Outline.readFully]
  cases q.read <;> rfl

-- Neither a number nor a text.
theorem decode_other (hnumber : ∀ n, o ≠ .number n) (hstring : ∀ q, o ≠ .string q) :
    decode o = (o.readFully depthLimit).bind fun _ => .error .mismatch := by
  cases o with
  | number n => exact absurd rfl (hnumber n)
  | string q => exact absurd rfl (hstring q)
  | _ => rfl

theorem decode_other_ne_ok (hnumber : ∀ n, o ≠ .number n) (hstring : ∀ q, o ≠ .string q)
    (v : CoilValue) : decode o ≠ .ok v := by
  rw [decode_other hnumber hstring]
  cases o.readFully depthLimit <;> rintro ⟨⟩

end Others

section Spelled

variable {o : Outline} {n : Numeral} {text front back : List Char} {i : Int64} {s : String}

theorem decode_number_ne_text : decode (.number n) ≠ .ok (.text s) := by
  cases h : n.jsonNumber? with
  | none =>
      rw [decode_of_none h]
      rintro ⟨⟩
  | some number =>
      rw [decode_number h, ne_eq, Except.ok.injEq]
      cases number with
      | natural k =>
          rw [ofNumber]
          split <;> rintro ⟨⟩
      | negative k => rintro ⟨⟩
      | float x => rintro ⟨⟩

theorem canonical_of_spells (h : Outline.Spells (.number n) text) : n.Canonical := by
  cases h with
  | number h =>
      obtain ⟨hn, -⟩ := h
      exact hn

theorem decode_eq_integer_iff (h : Outline.Spells o text) :
    decode o = .ok (.integer i) ↔ ∃ n, o = .number n ∧ n.IsInteger i.toInt := by
  constructor
  · intro hdecode
    cases o with
    | number n =>
        refine ⟨n, rfl, ?_⟩
        by_cases hint : ∃ j : Int64, n.IsInteger j.toInt
        · obtain ⟨j, hj⟩ := hint
          rw [decode_isInteger hj] at hdecode
          cases hdecode
          exact hj
        · rw [not_exists] at hint
          by_cases hover : n.Overflows
          · rw [decode_beyond hover] at hdecode
            cases hdecode
          · obtain ⟨x, hx, -⟩ := decode_not_integer (canonical_of_spells h) hint hover
            rw [hx] at hdecode
            cases hdecode
    | string q =>
        rw [decode_string] at hdecode
        obtain ⟨s, -, hs⟩ := map_eq_ok hdecode
        cases hs
    | _ => exact absurd hdecode (decode_other_ne_ok (by rintro n ⟨⟩) (by rintro q ⟨⟩) _)
  · rintro ⟨n, rfl, hn⟩
    exact decode_isInteger hn

theorem decode_eq_text_iff (h : Outline.Spells o text) :
    decode o = .ok (.text s) ↔ ∃ q, o = .string q ∧ q.Means s := by
  constructor
  · intro hdecode
    cases o with
    | number n => exact absurd hdecode decode_number_ne_text
    | string q =>
        rw [decode_string] at hdecode
        obtain ⟨s', hread, hs⟩ := map_eq_ok hdecode
        cases hs
        cases h with
        | string hq => exact ⟨q, rfl, (read_eq_ok_iff hq).mp hread⟩
    | _ => exact absurd hdecode (decode_other_ne_ok (by rintro n ⟨⟩) (by rintro q ⟨⟩) _)
  · rintro ⟨q, rfl, hq⟩
    rw [decode_string, read_of_means hq]
    rfl

theorem decodes_spelled (h : Outline.Spells o text) : Decodes o (decode o) where
  integer _ := decode_eq_integer_iff h
  float n hn hint hrange := by
    subst hn
    exact decode_not_integer (canonical_of_spells h) hint hrange
  negativeZero n hn hwhole hsign hzero := by
    subst hn
    exact decode_negative_zero hwhole hsign hzero
  beyond n hn hover := by
    subst hn
    exact decode_beyond hover
  text _ := decode_eq_text_iff h
  refused hnumber hstring hlegible := by
    rw [decode_other hnumber hstring, depthLimit, hlegible.readFully]
    rfl
  inRange n hn hle := by
    subst hn
    exact Numeral.not_overflows_of_le (canonical_of_spells h) hle
  outOfRange n hn hle := by
    subst hn
    exact Numeral.overflows_of_le (canonical_of_spells h) hle

-- A JSON text of one value, with any blanks around it.
theorem decodeText_grammar (h : Outline.Spells o text) (hfront : Outline.Blanks front)
    (hback : Outline.Blanks back) :
    Decodes o (decodeText decode (String.ofList (front ++ (text ++ back)))) := by
  have hdecode : decodeText decode (String.ofList (front ++ (text ++ back))) = decode o := by
    rw [decodeText, String.toList_ofList, Outline.ofText_spells h hfront hback]
    cases decode o <;> rfl
  rw [hdecode]
  exact decodes_spelled h

-- One more than the greatest integer, with a blank in front of it.
theorem decodeText_grammar_beyond :
    Outline.Spells (.number { whole := "9223372036854775808".toList }) "9223372036854775808".toList ∧
      Outline.Blanks " ".toList ∧ Outline.Blanks [] ∧
      ∃ x, decodeText decode " 9223372036854775808" = .ok (.float x) ∧
        Numeral.Reads { whole := "9223372036854775808".toList } x := by
  have hcanonical : Numeral.Canonical { whole := "9223372036854775808".toList } :=
    ⟨⟨by decide, List.all_eq_true.mp (by decide)⟩, by decide, by simp, by simp⟩
  have hspells : Outline.Spells (.number { whole := "9223372036854775808".toList })
      "9223372036854775808".toList := .number (.numeral hcanonical .none)
  have hblank : Outline.Blanks " ".toList := List.all_eq_true.mp (by decide)
  have hwhole : Numeral.Whole { whole := "9223372036854775808".toList } := ⟨rfl, rfl, by decide⟩
  refine ⟨hspells, hblank, Outline.blanks_nil,
    (decodeText_grammar hspells hblank Outline.blanks_nil).float _ rfl (fun i hi => ?_)
      hwhole.not_overflows⟩
  have hvalue : (9223372036854775808 : ℤ) = i.toInt := hi.value
  have hhigh := Int64.toInt_lt i
  omega

end Spelled

end CoilValue

end CoilHub
