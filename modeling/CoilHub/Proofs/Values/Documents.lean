import CoilHub.Json.Records
import CoilHub.Proofs.Json.Doubles

namespace CoilHub

namespace CoilValue

-- What a number that was read is made into.
def ofNumber : JsonNumber → CoilValue
  | .natural k => if k ≤ highestInteger then .integer (Int64.ofInt k) else .float (.ofInt k)
  | .negative k => .integer (Int64.ofInt k)
  | .float x => .float x

theorem decode_number {n : Numeral} {number : JsonNumber} (h : n.jsonNumber? = some number) :
    decode (.number n) = .ok (ofNumber number) := by
  simp only [decode, Outline.readFully, h, Option.isSome_some, if_true]
  cases number with
  | natural k => exact apply_ite Except.ok .. |>.symm
  | negative k => rfl
  | float x => rfl

theorem decode_integer (n : Int64) : decode (Document.integer n.toInt).outline = .ok (.integer n) := by
  have hlow := Int64.le_toInt n
  have hhigh := Int64.toInt_lt n
  rw [Document.outline]
  rcases le_or_gt 0 n.toInt with hpos | hneg
  · have hfits : n.toInt.natAbs ≤ Significand.highest := by
      rw [show Significand.highest = 2 ^ 64 - 1 from rfl]
      omega
    have hself : (n.toInt.natAbs : Int) = n.toInt := Int.natAbs_of_nonneg hpos
    have hread := jsonNumber?_natural hfits
    rw [hself] at hread
    have hrange : n.toInt ≤ highestInteger := Int64.toInt_le n
    rw [decode_number hread, ofNumber, hself, if_pos hrange, Int64.ofInt_toInt]
  · have hread := jsonNumber?_negative hneg (by simpa using hlow)
    rw [decode_number hread, ofNumber, Int64.ofInt_toInt]

theorem decode_text (s : String) : decode (Document.string s).outline = .ok (.text s) := by
  simp only [decode, Document.outline, Outline.readFully, read_quoted]
  rfl

section Doubles

open Binary64

variable {x y : Binary64}

-- How many places the double that is read may be off, for the power of ten that is written.
def tolerance (x : Binary64) : ℕ := JsonNumber.places x.documentNumeral.scale

-- What a double that was written and read has in common with the one that it was.
structure Kept (x y : Binary64) : Prop where
  negative : y.negative = x.negative
  finite : y.isFinite
  above : y.rank ≤ x.rank + tolerance x
  below : x.rank ≤ y.rank + tolerance x
  -- digits and power of ten that are doubles themselves are read exactly
  exact : x.documentNumeral.significand < 2 ^ 53 → x.documentNumeral.scale.natAbs ≤ 22 → y = x

theorem kept_of_outcome (hx : x.rank < infRank)
    (h : JsonNumber.Outcome x.documentNumeral.significand x.documentNumeral.scale y) :
    Kept x (if x.negative then y.neg else y) := by
  have hnearest := nearest_documentNumeral hx
  rw [Numeral.value] at hnearest
  have hnegative : (if x.negative then y.neg else y).negative = x.negative := by
    cases hsign : x.negative <;> simp [neg, h.negative]
  have hrank : (if x.negative then y.neg else y).rank = y.rank := by
    cases x.negative <;> rfl
  have hexact : x.documentNumeral.significand < 2 ^ 53 → x.documentNumeral.scale.natAbs ≤ 22 →
      y.rank = x.rank := fun hm he => hnearest ▸ h.exact hm he
  have hboth : y.rank ≤ x.rank + tolerance x ∧ x.rank ≤ y.rank + tolerance x := by
    rcases Nat.eq_zero_or_pos x.documentNumeral.significand with hzero | hpos
    · -- Only a zero is written without any other digit.
      have hrankZero : x.rank = 0 := by
        rw [← hnearest, hzero, Nat.cast_zero, zero_mul, nearest_zero]
      have hscale : x.documentNumeral.scale.natAbs ≤ 22 := by
        rw [documentNumeral, if_pos hrankZero]
        decide
      have hsame := hexact (by omega) hscale
      omega
    · exact ⟨hnearest ▸ h.above hpos, hnearest ▸ h.below hpos⟩
  refine ⟨hnegative, ?_, hrank ▸ hboth.1, hrank ▸ hboth.2, fun hm he => ?_⟩
  · rw [isFinite_iff, hrank]
    exact h.finite
  · exact ext_rank hnegative (hrank.trans (hexact hm he))

theorem decode_float (hx : x.isFinite) :
    ∃ y, decode (Document.float x).outline = .ok (.float y) ∧ Kept x y := by
  have hfinite := isFinite_iff.mp hx
  have hread := readable_documentNumeral hfinite
  obtain ⟨y, hscale, houtcome⟩ := exists_outcome hfinite
  have hnumber : ({ x.documentNumeral with negative := x.negative } : Numeral).jsonNumber? =
      some (.float (if x.negative then y.neg else y)) := by
    rw [jsonNumber?_signed x.negative hread.marked (hread.significand_le.trans (by decide)), hscale]
    rfl
  refine ⟨_, ?_, kept_of_outcome hfinite houtcome⟩
  rw [Document.outline, if_pos hx, decode_number hnumber, ofNumber]

theorem decode_not_finite (hx : x.isFinite = false) :
    (Document.float x).compact = "null" ∧ decode (Document.float x).outline = .error .mismatch := by
  constructor
  · rw [Document.compact, Document.print, Document.floatText_of_not_finite (by simp [hx])]
    rfl
  · rw [Document.outline, if_neg (by simp [hx])]
    rfl

end Doubles

-- Decoding undoes encoding for integers and texts, also for texts of numbers. A finite double comes back
-- as a double and not as an integer, with its sign, and as itself if its digits and its power of ten
-- are small enough. A double that is not finite has no text, and what is written instead is refused.
theorem value_written_and_read :
    (∀ n : Int64, decodeText decode (integer n).document.compact = .ok (.integer n)) ∧
    (∀ s : String, decodeText decode (text s).document.compact = .ok (.text s)) ∧
    (∀ x : Binary64,
      if x.isFinite then
        ∃ y, decodeText decode (float x).document.compact = .ok (.float y) ∧ Kept x y
      else
        (float x).document.compact = "null" ∧
          decodeText decode (float x).document.compact = .error .mismatch) := by
  simp only [decodeText_compact, document]
  refine ⟨decode_integer, decode_text, fun x => ?_⟩
  split
  · rename_i hx
    exact decode_float hx
  · rename_i hx
    exact decode_not_finite (Bool.eq_false_of_not_eq_true hx)

-- A whole double of sixteen digits is written with a zero behind the point, which makes the
-- significand too long for a double. So its neighbour is read.
theorem read_neighbour :
    decodeText decode (float (.ofInt 9007199254740991)).document.compact =
      .ok (.float (.ofInt 9007199254740990)) ∧
    Binary64.ofInt 9007199254740990 ≠ .ofInt 9007199254740991 := by
  constructor
  · rw [decodeText_compact]
    decide +kernel
  · decide +kernel

end CoilValue

end CoilHub
