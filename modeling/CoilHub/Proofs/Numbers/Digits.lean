import CoilHub.Decimal.Layout
import CoilHub.Decimal.Reading
import CoilHub.Text.Blank
import CoilHub.Proofs.Numbers.Rounding
import Mathlib.Data.List.TakeDrop
import Mathlib.Data.List.TakeWhile
import Mathlib.Tactic.IntervalCases

namespace CoilHub

section Digits

variable {digits digits' : List Char}

theorem digitsValue_append (digits digits' : List Char) :
    digitsValue (digits ++ digits') =
      digitsValue digits * 10 ^ digits'.length + digitsValue digits' := by
  have hshift : Nat.ofDigitChars 10 digits' (digitsValue digits) =
      10 ^ digits'.length * digitsValue digits + digitsValue digits' :=
    Nat.ofDigitChars_eq_ofDigitChars_zero
  rw [mul_comm]
  exact (Nat.ofDigitChars_append 0).trans hshift

@[simp] theorem digitsValue_nil : digitsValue [] = 0 := rfl

theorem digitsValue_cons (d : Char) (digits : List Char) :
    digitsValue (d :: digits) = (d.toNat - 48) * 10 ^ digits.length + digitsValue digits := by
  rw [show d :: digits = [d] ++ digits from rfl, digitsValue_append]
  simp [digitsValue]

@[simp] theorem digitsValue_replicate (n : Nat) : digitsValue (List.replicate n '0') = 0 := by
  rw [show digitsValue (List.replicate n '0') = Nat.ofDigitChars 10 (List.replicate n '0') 0 from rfl,
    Nat.ofDigitChars_replicate_zero, Nat.mul_zero]

@[simp] theorem digitsValue_decimalDigits (n : Nat) : digitsValue (decimalDigits n) = n :=
  Nat.ofDigitChars_ten_toDigits

theorem isDigit_of_mem_decimalDigits {n : Nat} : ∀ c ∈ decimalDigits n, c.isDigit := fun _ hc =>
  Nat.isDigit_of_mem_toDigits (by decide) (by decide) hc

theorem decimalDigits_ne_nil (n : Nat) : decimalDigits n ≠ [] := Nat.toDigits_ne_nil

theorem length_decimalDigits_le_iff {n k : Nat} (hk : 0 < k) :
    (decimalDigits n).length ≤ k ↔ n < 10 ^ k :=
  Nat.length_toDigits_le_iff (by decide) hk

theorem pow_le_of_length_decimalDigits {n k : Nat} (h : (decimalDigits n).length = k + 1)
    (hk : 0 < k) : 10 ^ k ≤ n := by
  by_contra hlt
  have := (length_decimalDigits_le_iff hk).mpr (not_le.mp hlt)
  omega

theorem head?_decimalDigits {n : Nat} (hn : 0 < n) : (decimalDigits n).head? ≠ some '0' := by
  induction n using Nat.strong_induction_on with
  | _ n ih =>
      rw [decimalDigits, Nat.toDigits_eq_if (by decide)]
      split
      · interval_cases n <;> decide
      · have hhead := ih (n / 10) (by omega) (by omega)
        have hne := decimalDigits_ne_nil (n / 10)
        rw [decimalDigits] at hhead hne
        rw [List.head?_append_of_ne_nil _ hne]
        exact hhead

-- Zeros at the end of a text of digits, taken off.
theorem exists_zeros (digits : List Char) :
    ∃ k, digits = (digits.reverse.dropWhile (· = '0')).reverse ++ List.replicate k '0' := by
  refine ⟨(digits.reverse.takeWhile (· = '0')).length, ?_⟩
  have hzeros : (digits.reverse.takeWhile (· = '0')).reverse =
      List.replicate (digits.reverse.takeWhile (· = '0')).length '0' := by
    refine List.eq_replicate_iff.mpr ⟨List.length_reverse, fun c hc => ?_⟩
    simpa using List.mem_takeWhile_imp (List.mem_reverse.mp hc)
  rw [← hzeros, ← List.reverse_append, List.takeWhile_append_dropWhile, List.reverse_reverse]

end Digits

section Reading

variable {digits rest : List Char}

-- The rest of a text goes on with something else than a digit, if it goes on at all.
def NoDigit (rest : List Char) : Prop := ∀ c ∈ rest.head?, c.isDigit = false

theorem noDigit_nil : NoDigit [] := by simp [NoDigit]

theorem noDigit_cons {c : Char} (h : c.isDigit = false) (rest : List Char) : NoDigit (c :: rest) := by
  simpa [NoDigit] using h

theorem spanDigits_append (hdigits : ∀ c ∈ digits, c.isDigit) (hrest : NoDigit rest) :
    spanDigits (digits ++ rest) = (digits, rest) := by
  have htake : rest.takeWhile Char.isDigit = [] ∧ rest.dropWhile Char.isDigit = rest := by
    cases rest with
    | nil => exact ⟨rfl, rfl⟩
    | cons c rest =>
        have hc : c.isDigit = false := hrest c rfl
        simp [hc]
  rw [spanDigits, List.span_eq_takeWhile_dropWhile, List.takeWhile_append_of_pos hdigits,
    List.dropWhile_append_of_pos hdigits, htake.1, htake.2, List.append_nil]

theorem spanDigits_of_digits (hdigits : ∀ c ∈ digits, c.isDigit) : spanDigits digits = (digits, []) := by
  simpa using spanDigits_append hdigits noDigit_nil

theorem readDigits?_of_digits (hne : digits ≠ []) (hdigits : ∀ c ∈ digits, c.isDigit) :
    readDigits? digits = some (digitsValue digits) := by
  rw [readDigits?, if_pos ⟨hne, List.all_eq_true.mpr hdigits⟩]

theorem readDigits?_eq_some_iff {n : Nat} :
    readDigits? digits = some n ↔
      digits ≠ [] ∧ (∀ c ∈ digits, c.isDigit) ∧ digitsValue digits = n := by
  simp only [readDigits?, List.all_eq_true]
  split <;> simp_all

-- A text that begins with a digit has no sign.
theorem splitSign_of_isDigit {c : Char} (hc : c.isDigit) (rest : List Char) :
    splitSign (c :: rest) = (false, c :: rest) := by
  unfold splitSign
  split
  · rename_i heq
    cases heq
    exact absurd hc (by decide)
  · rename_i heq
    cases heq
    exact absurd hc (by decide)
  · rfl

theorem isDigit_bounds {c : Char} (h : c.isDigit) : 48 ≤ c.toNat ∧ c.toNat ≤ 57 := by
  simp only [Char.isDigit, Bool.and_eq_true, decide_eq_true_eq] at h
  exact ⟨h.1, h.2⟩

theorem digitsValue_lt_pow (h : ∀ c ∈ digits, c.isDigit) : digitsValue digits < 10 ^ digits.length := by
  induction digits with
  | nil => simp
  | cons d digits ih =>
      have hd := isDigit_bounds (h d List.mem_cons_self)
      have hrest := ih fun c hc => h c (List.mem_cons_of_mem _ hc)
      have hdigit : (d.toNat - 48) * 10 ^ digits.length ≤ 9 * 10 ^ digits.length :=
        Nat.mul_le_mul_right _ (by omega)
      rw [digitsValue_cons, List.length_cons, pow_succ]
      omega

theorem not_isBlank_of_isDigit {c : Char} (h : c.isDigit) : isBlank c = false := by
  have hbounds := isDigit_bounds h
  simp only [isBlank, Bool.or_eq_false_iff, Bool.and_eq_false_iff, decide_eq_false_iff_not]
  omega

end Reading

end CoilHub
