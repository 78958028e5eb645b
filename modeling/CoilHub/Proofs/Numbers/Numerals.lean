import CoilHub.Proofs.Numbers.Digits

namespace CoilHub

namespace Numeral

def IsDigits (digits : List Char) : Prop := digits ≠ [] ∧ ∀ c ∈ digits, c.isDigit

end Numeral

-- How a sign is written, if at all.
inductive SignText : Bool → List Char → Prop
  | none : SignText false []
  | plus : SignText false ['+']
  | minus : SignText true ['-']

-- What does not begin with a sign of its own.
def Unsigned (text : List Char) : Prop := ∀ c ∈ text.head?, c ≠ '+' ∧ c ≠ '-'

section Signs

variable {negative : Bool} {sign body text : List Char} {c : Char}

theorem splitSign_of_unsigned (h : Unsigned text) : splitSign text = (false, text) := by
  unfold splitSign
  split
  · exact absurd rfl (h '-' rfl).2
  · exact absurd rfl (h '+' rfl).1
  · rfl

theorem splitSign_append (hsign : SignText negative sign) (hbody : Unsigned body) :
    splitSign (sign ++ body) = (negative, body) := by
  cases hsign with
  | none => exact splitSign_of_unsigned hbody
  | plus => rfl
  | minus => rfl

theorem exists_sign (h : splitSign text = (negative, body)) :
    ∃ sign, SignText negative sign ∧ text = sign ++ body := by
  unfold splitSign at h
  split at h
  · cases h
    exact ⟨['-'], .minus, rfl⟩
  · cases h
    exact ⟨['+'], .plus, rfl⟩
  · cases h
    exact ⟨[], .none, rfl⟩

theorem unsigned_of_isDigit (hc : c.isDigit) (rest : List Char) : Unsigned (c :: rest) := by
  intro d hd
  cases hd
  constructor <;> rintro rfl <;> exact absurd hc (by decide)

theorem Numeral.IsDigits.unsigned (h : Numeral.IsDigits text) : Unsigned text := by
  obtain ⟨c, rest, rfl⟩ := List.exists_cons_of_ne_nil h.1
  exact unsigned_of_isDigit (h.2 c List.mem_cons_self) rest

theorem readDigits?_isDigits {n : Nat} :
    readDigits? text = some n ↔ Numeral.IsDigits text ∧ digitsValue text = n := by
  rw [readDigits?_eq_some_iff, Numeral.IsDigits, and_assoc]

end Signs

namespace Numeral

def fractionText (fraction : Option (List Char)) : List Char :=
  fraction.elim [] fun digits => '.' :: digits

def powerText (power : Option (Bool × List Char)) : List Char :=
  power.elim [] fun p => 'e' :: (if p.1 then '-' else '+') :: p.2

-- How a numeral without its sign is written.
def text (n : Numeral) : List Char := n.whole ++ (fractionText n.fraction ++ powerText n.exponent)

-- How an exponent is typed, if there is one.
inductive PowerText : Option (Bool × List Char) → List Char → Prop
  | none : PowerText none []
  | some {letter : Char} {negative : Bool} {sign digits : List Char}
      (hletter : letter = 'e' ∨ letter = 'E') (hsign : SignText negative sign)
      (hdigits : IsDigits digits) : PowerText (some (negative, digits)) (letter :: (sign ++ digits))

-- A numeral as it is typed, without a sign. There may be no digits in front of the point or none behind
-- it, but not both.
structure Typed (n : Numeral) (text : List Char) : Prop where
  text : ∃ power, PowerText n.exponent power ∧ text = n.whole ++ (fractionText n.fraction ++ power)
  whole : ∀ c ∈ n.whole, c.isDigit
  fraction : ∀ digits ∈ n.fraction, ∀ c ∈ digits, c.isDigit
  digit : n.significandDigits ≠ []

variable {text rest : List Char} {power : Option (Bool × List Char)} {n : Numeral}

theorem PowerText.noDigit (h : PowerText power text) : NoDigit text := by
  cases h with
  | none => exact noDigit_nil
  | some hletter => exact noDigit_cons (by rcases hletter with rfl | rfl <;> decide) _

theorem PowerText.noPoint (h : PowerText power text) : ∀ rest, text ≠ '.' :: rest := by
  rintro rest rfl
  cases h with
  | some hletter => rcases hletter with h | h <;> cases h

theorem readExponent?_eq_some_iff : readExponent? text = some power ↔ PowerText power text := by
  constructor
  · intro h
    unfold readExponent? at h
    split at h
    · cases h
      exact .none
    · rename_i letter rest
      rw [Option.ite_none_right_eq_some] at h
      obtain ⟨hletter, h⟩ := h
      obtain ⟨negative, digits, hsplit⟩ : ∃ negative digits, splitSign rest = (negative, digits) :=
        ⟨_, _, rfl⟩
      rw [hsplit] at h
      obtain ⟨m, hread, rfl⟩ := Option.map_eq_some_iff.mp h
      obtain ⟨sign, hsign, rfl⟩ := exists_sign hsplit
      exact .some hletter hsign (readDigits?_isDigits.mp hread).1
  · intro h
    cases h with
    | none => rfl
    | @some letter negative sign digits hletter hsign hdigits =>
        simp [readExponent?, hletter, splitSign_append hsign hdigits.unsigned,
          readDigits?_isDigits.mpr ⟨hdigits, rfl⟩]

theorem exists_spanDigits (text : List Char) :
    ∃ digits rest, spanDigits text = (digits, rest) ∧ text = digits ++ rest ∧
      (∀ c ∈ digits, c.isDigit) ∧ NoDigit rest := by
  refine ⟨text.takeWhile Char.isDigit, text.dropWhile Char.isDigit, ?_, ?_, ?_, ?_⟩
  · rw [spanDigits, List.span_eq_takeWhile_dropWhile]
  · exact (List.takeWhile_append_dropWhile ..).symm
  · exact fun c hc => List.mem_takeWhile_imp hc
  · intro c hc
    have hhead := List.head?_dropWhile_not Char.isDigit text
    rw [Option.mem_def.mp hc] at hhead
    exact hhead

theorem typed_of_read? (h : Numeral.read? text = some n) : n.Typed text ∧ n.negative = false := by
  obtain ⟨whole, rest, hspan, rfl, hwhole, -⟩ := exists_spanDigits text
  simp only [Numeral.read?, hspan] at h
  split at h
  · rename_i rest
    obtain ⟨fraction, rest, hspan, rfl, hfraction, -⟩ := exists_spanDigits rest
    simp only [hspan] at h
    rw [Option.ite_none_left_eq_some] at h
    obtain ⟨hdigit, h⟩ := h
    obtain ⟨exponent, hread, rfl⟩ := Option.map_eq_some_iff.mp h
    refine ⟨⟨⟨rest, readExponent?_eq_some_iff.mp hread, rfl⟩, hwhole, ?_, ?_⟩, rfl⟩
    · rintro digits ⟨⟩
      exact hfraction
    · simpa [significandDigits] using hdigit
  · rw [Option.ite_none_left_eq_some] at h
    obtain ⟨hdigit, h⟩ := h
    obtain ⟨exponent, hread, rfl⟩ := Option.map_eq_some_iff.mp h
    refine ⟨⟨⟨rest, readExponent?_eq_some_iff.mp hread, rfl⟩, hwhole, by simp, ?_⟩, rfl⟩
    simpa [significandDigits] using hdigit

theorem Typed.read? (h : n.Typed text) : Numeral.read? text = some { n with negative := false } := by
  obtain ⟨⟨power, hpower, rfl⟩, hwhole, hfraction, hdigit⟩ := h
  obtain ⟨negative, whole, fraction, exponent⟩ := n
  have hread := readExponent?_eq_some_iff.mpr hpower
  dsimp only at hread hwhole hfraction ⊢
  cases fraction with
  | some digits =>
      have hspan : spanDigits (whole ++ '.' :: (digits ++ power)) = (whole, '.' :: (digits ++ power)) :=
        spanDigits_append hwhole (noDigit_cons (by decide) _)
      have hspan' : spanDigits (digits ++ power) = (digits, power) :=
        spanDigits_append (hfraction digits rfl) hpower.noDigit
      have hsome : ¬(whole = [] ∧ digits = []) := by simpa [significandDigits] using hdigit
      simp [fractionText, Numeral.read?, hspan, hspan', hsome, hread]
  | none =>
      have hspan : spanDigits (whole ++ power) = (whole, power) :=
        spanDigits_append hwhole hpower.noDigit
      have hsome : whole ≠ [] := by simpa [significandDigits] using hdigit
      simp only [fractionText, Option.elim_none, List.nil_append, Numeral.read?, hspan]
      split
      · exact absurd rfl (hpower.noPoint _)
      · rw [if_neg hsome, hread, Option.map_some]

-- A numeral begins with a digit or a point, and so neither with a sign nor with a word.
theorem Typed.exists_cons (h : n.Typed text) : ∃ c rest, text = c :: rest ∧ (c.isDigit ∨ c = '.') := by
  obtain ⟨⟨power, -, rfl⟩, hwhole, -, hdigit⟩ := h
  cases hn : n.whole with
  | cons c whole => exact ⟨c, _, rfl, .inl (hwhole c (by simp [hn]))⟩
  | nil =>
      cases hfraction : n.fraction with
      | none => simp [significandDigits, hn, hfraction] at hdigit
      | some digits => exact ⟨'.', _, rfl, .inr rfl⟩

-- Every part of the numeral is of digits, and no zero stands in front of others.
structure Canonical (n : Numeral) : Prop where
  whole : IsDigits n.whole
  leading : n.whole.head? = some '0' → n.whole.length = 1
  fraction : ∀ digits ∈ n.fraction, IsDigits digits
  power : ∀ power ∈ n.exponent, IsDigits power.2

theorem Canonical.signed {n : Numeral} (h : n.Canonical) (negative : Bool) :
    { n with negative }.Canonical := ⟨h.whole, h.leading, h.fraction, h.power⟩

theorem Canonical.exists_cons {n : Numeral} (h : n.Canonical) :
    ∃ c rest, n.text = c :: rest ∧ c.isDigit := by
  obtain ⟨hne, hdigits⟩ := h.whole
  obtain ⟨c, rest, hwhole⟩ := List.exists_cons_of_ne_nil hne
  exact ⟨c, rest ++ (fractionText n.fraction ++ powerText n.exponent), by simp [text, hwhole],
    hdigits c (by simp [hwhole])⟩

theorem Canonical.powerText (h : n.Canonical) : PowerText n.exponent (powerText n.exponent) := by
  cases hpower : n.exponent with
  | none => exact .none
  | some power =>
      obtain ⟨negative, digits⟩ := power
      have hdigits := h.power _ hpower
      cases negative with
      | true => exact .some (.inl rfl) .minus hdigits
      | false => exact .some (.inl rfl) .plus hdigits

theorem Canonical.typed (h : n.Canonical) : n.Typed n.text where
  text := ⟨_, h.powerText, rfl⟩
  whole := h.whole.2
  fraction := fun digits hdigits => (h.fraction digits hdigits).2
  digit := fun hnone => h.whole.1 (List.append_eq_nil_iff.mp hnone).1

theorem read?_text (h : n.Canonical) : Numeral.read? n.text = some { n with negative := false } :=
  h.typed.read?

end Numeral

end CoilHub
