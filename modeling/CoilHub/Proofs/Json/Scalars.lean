import CoilHub.Json.Decoding
import CoilHub.Proofs.Json.Scanning

namespace CoilHub

section Texts

-- The units that escapes are written for are control characters, and none of them is half of a pair.
theorem joinPieces_map_piece (text : List Char) :
    joinPieces none (text.map Outline.piece) = .ok text := by
  induction text with
  | nil => rfl
  | cons c text ih =>
      rw [List.map_cons, Outline.piece]
      split
      · rename_i hcontrol
        have hleading : isLeading c.toNat = false := by simp [isLeading]; omega
        have htrailing : isTrailing c.toNat = false := by simp [isTrailing]; omega
        rw [joinPieces.eq_def]
        simp [hleading, htrailing, ih, Except.map]
      · rw [joinPieces, ih]
        rfl

@[simp] theorem read_quoted (s : String) : (Document.quoted s).read = .ok s := by
  rw [Quoted.read, Document.quoted, joinPieces_map_piece]
  simp [Except.map]

end Texts

section Integers

-- The value so far and the digits to come, before and after one more digit is taken in.
theorem value_cons (value : Nat) (d : Char) (digits : List Char) :
    value * 10 ^ (d :: digits).length + digitsValue (d :: digits) =
      (10 * value + (d.toNat - 48)) * 10 ^ digits.length + digitsValue digits := by
  rw [digitsValue_cons, List.length_cons, pow_succ]
  ring

theorem fits_of_le {value : Nat} {d : Char} {digits : List Char}
    (h : value * 10 ^ (d :: digits).length + digitsValue (d :: digits) ≤ Significand.highest) :
    Significand.fits value d = true := by
  have hpow : 1 ≤ 10 ^ digits.length := Nat.one_le_pow _ _ (by decide)
  rw [value_cons] at h
  rw [Significand.fits, decide_eq_true_eq]
  nlinarith

-- Digits are all taken in as long as their value fits, in front of the point and behind it.
theorem addWhole_of_le {digits : List Char} {value : Nat} (exponent : Int)
    (h : value * 10 ^ digits.length + digitsValue digits ≤ Significand.highest) :
    Significand.addWhole ⟨value, exponent⟩ digits =
      ⟨value * 10 ^ digits.length + digitsValue digits, exponent⟩ := by
  induction digits generalizing value with
  | nil => simp [Significand.addWhole]
  | cons d digits ih =>
      rw [Significand.addWhole, if_pos (fits_of_le h)]
      rw [value_cons] at h ⊢
      exact ih h

theorem addFraction_of_le {digits : List Char} {value : Nat} (exponent : Int)
    (h : value * 10 ^ digits.length + digitsValue digits ≤ Significand.highest) :
    Significand.addFraction ⟨value, exponent⟩ digits =
      ⟨value * 10 ^ digits.length + digitsValue digits, exponent - digits.length⟩ := by
  induction digits generalizing value exponent with
  | nil => simp [Significand.addFraction]
  | cons d digits ih =>
      rw [Significand.addFraction, if_pos (fits_of_le h)]
      rw [value_cons] at h ⊢
      rw [ih _ h, List.length_cons]
      congr 1
      push_cast
      ring

theorem addWhole_decimalDigits {n : Nat} (h : n ≤ Significand.highest) :
    Significand.addWhole ⟨0, 0⟩ (decimalDigits n) = ⟨n, 0⟩ := by
  have hvalue : 0 * 10 ^ (decimalDigits n).length + digitsValue (decimalDigits n) = n := by simp
  rw [addWhole_of_le 0 (by rwa [hvalue]), hvalue]

theorem jsonNumber?_natural {n : Nat} (h : n ≤ Significand.highest) :
    (Document.integerNumeral n).jsonNumber? = some (.natural n) := by
  have hsign : decide ((n : Int) < 0) = false := by simp
  simp [Document.integerNumeral, Numeral.jsonNumber?, hsign, addWhole_decimalDigits h]

theorem jsonNumber?_negative {n : Int} (hneg : n < 0) (h : -2 ^ 63 ≤ n) :
    (Document.integerNumeral n).jsonNumber? = some (.negative n) := by
  have hfits : n.natAbs ≤ Significand.highest := by
    rw [show Significand.highest = 2 ^ 64 - 1 from rfl]
    omega
  have hbound : n.natAbs ≤ 9223372036854775808 := by omega
  have hpos : n ≠ 0 := by omega
  have hself : -|n| = n := by rw [abs_of_neg hneg, neg_neg]
  simp [Document.integerNumeral, Numeral.jsonNumber?, hneg, hpos, addWhole_decimalDigits hfits, hbound,
    hself]

-- A number that fits 64 bits and is not above the bound is taken.
theorem asNatural_integer {highest n : Nat} (hn : n ≤ highest)
    (hhighest : highest ≤ Significand.highest) :
    (Document.integer n).outline.asNatural highest = .ok n := by
  simp only [Document.outline, Outline.asNatural, jsonNumber?_natural (hn.trans hhighest), if_pos hn]

end Integers

section Decoded

variable {α : Type}

theorem asString_string (s : String) : (Document.string s).outline.asString = .ok s := by
  rw [Document.outline, Outline.asString, read_quoted]

theorem asBool_bool (b : Bool) : (Document.bool b).outline.asBool = .ok b := rfl

theorem asOption_string (value : Option String) :
    (Document.ofOption .string value).outline.asOption Outline.asString = .ok value := by
  cases value with
  | none => rfl
  | some s =>
      have hread := asString_string s
      rw [Document.outline] at hread
      simp only [Document.ofOption, Document.outline, Outline.asOption, hread, Except.map]

-- A list of values that are all decoded alike.
theorem decodeEach_map {f : Outline → Decoded α} {document : α → Document}
    (h : ∀ a, f (document a).outline = .ok a) (items : List α) :
    (Document.outlineItems (items.map document)).decodeEach f = .ok items := by
  induction items with
  | nil => rfl
  | cons a items ih =>
      simp only [List.map_cons, Document.outlineItems, Items.decodeEach, h, ih]
      rfl

theorem decodeText_compact (f : Outline → Decoded α) (d : Document) :
    decodeText f d.compact = f d.outline := by
  rw [decodeText, Document.ofText_compact]
  cases f d.outline <;> rfl

end Decoded

end CoilHub
