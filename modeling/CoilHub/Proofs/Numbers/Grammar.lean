import CoilHub.Proofs.Numbers.Nearest
import CoilHub.Proofs.Numbers.Reading

namespace CoilHub

section Integers

variable {text : List Char} {lowest highest n : Int}

-- An integer as it is typed.
def WritesInteger (text : List Char) (n : Int) : Prop :=
  ∃ negative sign digits, SignText negative sign ∧ Numeral.IsDigits digits ∧ text = sign ++ digits ∧
    n = signedInt negative (digitsValue digits)

theorem readInt?_eq_some_iff :
    readInt? lowest highest text = some n ↔ WritesInteger text n ∧ lowest ≤ n ∧ n ≤ highest := by
  constructor
  · intro h
    obtain ⟨negative, digits, hsplit, hdigits, hn, hbounds⟩ := readInt?_eq_some h
    obtain ⟨sign, hsign, htext⟩ := exists_sign hsplit
    exact ⟨⟨negative, sign, digits, hsign, hdigits, htext, hn⟩, hbounds⟩
  · rintro ⟨⟨negative, sign, digits, hsign, hdigits, rfl, rfl⟩, hbounds⟩
    rw [readInt?_eq (splitSign_append hsign hdigits.unsigned),
      readDigits?_isDigits.mpr ⟨hdigits, rfl⟩, Option.bind_some, if_pos hbounds]

end Integers

theorem Numeral.value_nonneg (n : Numeral) : 0 ≤ n.value := by
  rw [Numeral.value]
  positivity

namespace Binary64

-- A double as it is typed. What is no number has no sign of its own.
inductive WritesDouble : List Char → Binary64 → Prop
  | infinity {negative : Bool} {sign word : List Char} (hsign : SignText negative sign)
      (hword : word.map Char.toLower = "inf".toList ∨ word.map Char.toLower = "infinity".toList) :
      WritesDouble (sign ++ word) (.infinity negative)
  | nan {negative : Bool} {sign word : List Char} (hsign : SignText negative sign)
      (hword : word.map Char.toLower = "nan".toList) : WritesDouble (sign ++ word) .nan
  | number {n : Numeral} {sign body : List Char} {x : Binary64} (hsign : SignText x.negative sign)
      (hbody : n.Typed body) (hx : IsNearest n.value x.rank) : WritesDouble (sign ++ body) x

variable {text body word : List Char} {negative : Bool} {x : Binary64}

theorem read?_of_splitSign (h : splitSign text = (negative, body)) :
    Binary64.read? text =
      if body.map Char.toLower = "inf".toList ∨ body.map Char.toLower = "infinity".toList then
        some (.infinity negative)
      else if body.map Char.toLower = "nan".toList then some .nan
      else (Numeral.read? body).map fun n => .rounded negative n.value := by
  simp only [Binary64.read?, h, Numeral.toBinary64_eq]
  rfl

theorem unsigned_of_word {letter : Char} {letters : List Char}
    (h : word.map Char.toLower = letter :: letters) (hletter : letter.isLower) : Unsigned word := by
  cases word with
  | nil => cases h
  | cons c word =>
      intro d hd
      cases hd
      rw [List.map_cons, List.cons.injEq] at h
      constructor <;> rintro rfl <;> exact absurd (h.1 ▸ hletter) (by decide)

theorem toLower_ne_word {letter : Char} {letters : List Char} {n : Numeral} (hbody : n.Typed body)
    (hletter : letter.isLower) : body.map Char.toLower ≠ letter :: letters := by
  intro h
  obtain ⟨c, rest, rfl, hc⟩ := hbody.exists_cons
  rw [List.map_cons, List.cons.injEq] at h
  rcases hc with hc | rfl
  · rw [toLower_of_isDigit hc] at h
    have hbounds := isDigit_bounds hc
    have hlow : 97 ≤ letter.toNat := of_decide_eq_true (Bool.and_eq_true_iff.mp hletter).1
    rw [← h.1] at hlow
    omega
  · exact absurd (h.1 ▸ hletter) (by decide)

theorem read?_of_typed {n : Numeral} {sign : List Char} (hsign : SignText negative sign)
    (hbody : n.Typed body) : Binary64.read? (sign ++ body) = some (.rounded negative n.value) := by
  have hunsigned : Unsigned body := by
    obtain ⟨c, rest, rfl, hc⟩ := hbody.exists_cons
    rcases hc with hc | rfl
    · exact unsigned_of_isDigit hc rest
    · intro d hd
      cases hd
      decide
  rw [read?_of_splitSign (splitSign_append hsign hunsigned), if_neg, if_neg, hbody.read?]
  · rfl
  · exact toLower_ne_word hbody (by decide)
  · rintro (h | h)
    · exact toLower_ne_word hbody (by decide) h
    · exact toLower_ne_word hbody (by decide) h

-- The reader takes exactly what the grammar allows.
theorem read?_eq_some_iff : Binary64.read? text = some x ↔ WritesDouble text x := by
  constructor
  · intro h
    obtain ⟨negative, body, hsplit⟩ : ∃ negative body, splitSign text = (negative, body) := ⟨_, _, rfl⟩
    obtain ⟨sign, hsign, rfl⟩ := exists_sign hsplit
    rw [read?_of_splitSign hsplit] at h
    split at h
    · rename_i hword
      cases h
      exact .infinity hsign hword
    split at h
    · rename_i hword
      cases h
      exact .nan hsign hword
    · obtain ⟨n, hread, rfl⟩ := Option.map_eq_some_iff.mp h
      exact .number (x := .rounded negative n.value) hsign (Numeral.typed_of_read? hread).1
        (isNearest_rounded n.value_nonneg negative)
  · intro h
    cases h with
    | infinity hsign hword =>
        have hunsigned : Unsigned _ := hword.elim (unsigned_of_word · (by decide))
          (unsigned_of_word · (by decide))
        rw [read?_of_splitSign (splitSign_append hsign hunsigned), if_pos hword]
    | nan hsign hword =>
        have hinf : ∀ {word : List Char}, word.map Char.toLower = "nan".toList →
            ¬(word.map Char.toLower = "inf".toList ∨ word.map Char.toLower = "infinity".toList) := by
          intro word hword
          rw [hword]
          decide
        rw [read?_of_splitSign (splitSign_append hsign (unsigned_of_word hword (by decide))),
          if_neg (hinf hword), if_pos hword]
    | @number n sign body x hsign hbody hx =>
        rw [read?_of_typed hsign hbody, ← (isNearest_iff n.value_nonneg x).mp hx]

end Binary64

end CoilHub
