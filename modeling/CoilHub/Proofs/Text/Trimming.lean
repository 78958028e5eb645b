import CoilHub.Text.Blank
import Mathlib.Data.List.Basic
import Mathlib.Data.List.TakeWhile

namespace CoilHub

variable {text trimmed front back : List Char}

theorem trimStart_of_head? (h : ∀ c ∈ text.head?, isBlank c = false) : trimStart text = text := by
  cases text with
  | nil => rfl
  | cons c rest => rw [trimStart, List.dropWhile_cons_of_neg (by simp [h c rfl])]

theorem trimEnd_of_getLast? (h : ∀ c ∈ text.getLast?, isBlank c = false) : trimEnd text = text := by
  rw [trimEnd, ← trimStart, trimStart_of_head? (by rwa [List.head?_reverse]), List.reverse_reverse]

theorem trim_of_not_blank (h : ∀ c ∈ text, isBlank c = false) : trim text = text := by
  rw [trim, trimStart_of_head? fun c hc => h c (List.mem_of_mem_head? hc),
    trimEnd_of_getLast? fun c hc => h c (List.mem_of_mem_getLast? hc)]

theorem not_blank_head?_trimStart (text : List Char) :
    ∀ c ∈ (trimStart text).head?, isBlank c = false := by
  intro c hc
  have hhead := List.head?_dropWhile_not isBlank text
  rw [trimStart] at hc
  rw [Option.mem_def.mp hc] at hhead
  exact hhead

theorem trimStart_append (h : ∀ c ∈ front, isBlank c) : trimStart (front ++ text) = trimStart text :=
  List.dropWhile_append_of_pos h

theorem trimEnd_append (h : ∀ c ∈ back, isBlank c) : trimEnd (text ++ back) = trimEnd text := by
  have hback : ∀ c ∈ back.reverse, isBlank c := fun c hc => h c (List.mem_reverse.mp hc)
  rw [trimEnd, List.reverse_append, List.dropWhile_append_of_pos hback, trimEnd]

-- A text, and the part of it between the blanks at its ends.
structure Trims (text trimmed : List Char) : Prop where
  split : ∃ front back, text = front ++ trimmed ++ back ∧
    (∀ c ∈ front, isBlank c) ∧ ∀ c ∈ back, isBlank c
  head : ∀ c ∈ trimmed.head?, isBlank c = false
  last : ∀ c ∈ trimmed.getLast?, isBlank c = false

theorem trims_self (hhead : ∀ c ∈ text.head?, isBlank c = false)
    (hlast : ∀ c ∈ text.getLast?, isBlank c = false) : Trims text text :=
  ⟨⟨[], [], by simp, by simp, by simp⟩, hhead, hlast⟩

theorem trimStart_eq_append (text : List Char) :
    trimStart text = trim text ++ ((trimStart text).reverse.takeWhile isBlank).reverse := by
  rw [trim, trimEnd, ← List.reverse_append, List.takeWhile_append_dropWhile, List.reverse_reverse]

-- What is cut off at the end leaves the start as it is, since it reaches only up to the last character
-- that is not blank.
theorem head?_trim (text : List Char) : (trim text).head? = (trimStart text).head? := by
  have hsplit := trimStart_eq_append text
  by_cases hnil : trim text = []
  · rw [hnil, List.nil_append] at hsplit
    have hblank : trimStart (trimStart text) = [] := by
      rw [hsplit]
      exact List.dropWhile_eq_nil_iff.mpr fun c hc => List.mem_takeWhile_imp (List.mem_reverse.mp hc)
    rw [trimStart_of_head? (not_blank_head?_trimStart text)] at hblank
    rw [hnil, hblank]
  · rw [hsplit, List.head?_append_of_ne_nil _ hnil]

theorem trims_trim (text : List Char) : Trims text (trim text) := by
  have hstart : text = text.takeWhile isBlank ++ trimStart text :=
    (List.takeWhile_append_dropWhile ..).symm
  refine ⟨⟨text.takeWhile isBlank, ((trimStart text).reverse.takeWhile isBlank).reverse, ?_, ?_, ?_⟩,
    ?_, fun c hc => ?_⟩
  · rw [List.append_assoc, ← trimStart_eq_append]
    exact hstart
  · exact fun c hc => List.mem_takeWhile_imp hc
  · exact fun c hc => List.mem_takeWhile_imp (List.mem_reverse.mp hc)
  · rw [head?_trim]
    exact not_blank_head?_trimStart text
  · rw [trim, trimEnd, List.getLast?_reverse] at hc
    exact not_blank_head?_trimStart _ c hc

theorem Trims.trim_eq (h : Trims text trimmed) : trim text = trimmed := by
  obtain ⟨front, back, rfl, hfront, hback⟩ := h.split
  rw [trim, List.append_assoc, trimStart_append hfront]
  cases trimmed with
  | nil =>
      have hall : trimStart back = [] := List.dropWhile_eq_nil_iff.mpr hback
      rw [List.nil_append, hall]
      rfl
  | cons c rest =>
      have hkept : trimStart (c :: rest ++ back) = c :: rest ++ back :=
        trimStart_of_head? fun d hd => h.head d (by simpa using hd)
      rw [hkept, trimEnd_append hback, trimEnd_of_getLast? h.last]

theorem trims_iff : Trims text trimmed ↔ trim text = trimmed :=
  ⟨Trims.trim_eq, fun h => h ▸ trims_trim text⟩

theorem trim_trim (text : List Char) : trim (trim text) = trim text :=
  (trims_self (trims_trim text).head (trims_trim text).last).trim_eq

theorem mem_of_mem_trim {c : Char} (h : c ∈ trim text) : c ∈ text := by
  obtain ⟨front, back, hsplit, -, -⟩ := (trims_trim text).split
  rw [hsplit]
  exact List.mem_append_left _ (List.mem_append_right _ h)

end CoilHub
