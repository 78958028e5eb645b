import CoilHub.Proofs.Json.Grammar
import CoilHub.Proofs.Json.Numerals

namespace CoilHub

-- How a character can stand in a quoted text.
inductive MeansChar : Char → List Piece → Prop
  | plain {c : Char} : MeansChar c [.char c]
  | unit {c : Char} (h : c.toNat < 0x10000) : MeansChar c [.unit c.toNat]
  | pair {c : Char} (h : 0x10000 ≤ c.toNat) : MeansChar c
      [.unit (0xd800 + (c.toNat - 0x10000) / 0x400), .unit (0xdc00 + (c.toNat - 0x10000) % 0x400)]

inductive MeansText : List Char → List Piece → Prop
  | nil : MeansText [] []
  | cons {c : Char} {text : List Char} {front pieces : List Piece} (hc : MeansChar c front)
      (htext : MeansText text pieces) : MeansText (c :: text) (front ++ pieces)

-- What a quoted text means that has its closing quote.
def Quoted.Means (q : Quoted) (s : String) : Prop := q.fault = none ∧ MeansText s.toList q.pieces

section Texts

variable {c : Char} {text : List Char} {front pieces : List Piece} {n m : Nat}

theorem toNat_lt (c : Char) : c.toNat < 0x110000 := by
  have hvalid := c.valid
  simp only [UInt32.isValidChar, Nat.isValidChar] at hvalid
  change c.val.toNat < _
  omega

-- Units that are half of a pair are no characters.
theorem not_half (c : Char) : isLeading c.toNat = false ∧ isTrailing c.toNat = false := by
  have hvalid := c.valid
  simp only [UInt32.isValidChar, Nat.isValidChar] at hvalid
  change isLeading c.val.toNat = false ∧ isTrailing c.val.toNat = false
  simp only [isLeading, isTrailing, Bool.and_eq_false_iff, decide_eq_false_iff_not]
  omega

theorem joinPieces_unit (hl : isLeading n = false) (ht : isTrailing n = false) (pieces : List Piece) :
    joinPieces none (.unit n :: pieces) = (joinPieces none pieces).map (Char.ofNat n :: ·) := by
  rw [joinPieces.eq_def]
  simp [hl, ht]

theorem joinPieces_pair (hl : isLeading n = true) (ht : isTrailing m = true) (pieces : List Piece) :
    joinPieces none (.unit n :: .unit m :: pieces) =
      (joinPieces none pieces).map (Char.ofNat (0x10000 + (n - 0xd800) * 0x400 + (m - 0xdc00)) :: ·) := by
  rw [joinPieces.eq_def]
  simp [hl, ht]

theorem joinPieces_means (h : MeansChar c front) (pieces : List Piece) :
    joinPieces none (front ++ pieces) = (joinPieces none pieces).map (c :: ·) := by
  cases h with
  | plain =>
      rw [List.singleton_append, joinPieces]
  | unit =>
      obtain ⟨hl, ht⟩ := not_half c
      rw [List.singleton_append, joinPieces_unit hl ht, Char.ofNat_toNat]
  | pair hc =>
      have hlt := toNat_lt c
      have hl : isLeading (0xd800 + (c.toNat - 0x10000) / 0x400) = true := by
        simp only [isLeading, Bool.and_eq_true, decide_eq_true_eq]
        omega
      have ht : isTrailing (0xdc00 + (c.toNat - 0x10000) % 0x400) = true := by
        simp only [isTrailing, Bool.and_eq_true, decide_eq_true_eq]
        omega
      have hself : 0x10000 + (0xd800 + (c.toNat - 0x10000) / 0x400 - 0xd800) * 0x400 +
          (0xdc00 + (c.toNat - 0x10000) % 0x400 - 0xdc00) = c.toNat := by omega
      rw [List.cons_append, List.singleton_append, joinPieces_pair hl ht, hself, Char.ofNat_toNat]

theorem joinPieces_of_means (h : MeansText text pieces) : joinPieces none pieces = .ok text := by
  induction h with
  | nil => rfl
  | cons hc _ ih =>
      rw [joinPieces_means hc, ih]
      rfl

theorem map_eq_ok {α β ε : Type} {x : Except ε α} {f : α → β} {b : β} (h : x.map f = .ok b) :
    ∃ a, x = .ok a ∧ f a = b := by
  cases x with
  | error e => cases h
  | ok a => exact ⟨a, rfl, Except.ok.inj h⟩

theorem toNat_ofNat {n : Nat} (h : n.isValidChar) : (Char.ofNat n).toNat = n := by
  rw [Char.ofNat, dif_pos h]
  rfl

theorem means_pair (hl : isLeading n = true) (ht : isTrailing m = true) :
    MeansChar (Char.ofNat (0x10000 + (n - 0xd800) * 0x400 + (m - 0xdc00))) [.unit n, .unit m] := by
  simp only [isLeading, isTrailing, Bool.and_eq_true, decide_eq_true_eq] at hl ht
  have hc := toNat_ofNat (n := 0x10000 + (n - 0xd800) * 0x400 + (m - 0xdc00)) (.inr (by omega))
  have hmeans := MeansChar.pair (c := Char.ofNat (0x10000 + (n - 0xd800) * 0x400 + (m - 0xdc00))) (by omega)
  have hn : 0xd800 + (0x10000 + (n - 0xd800) * 0x400 + (m - 0xdc00) - 0x10000) / 0x400 = n := by omega
  have hm : 0xdc00 + (0x10000 + (n - 0xd800) * 0x400 + (m - 0xdc00) - 0x10000) % 0x400 = m := by omega
  rwa [hc, hn, hm] at hmeans

theorem means_unit (hl : ¬isLeading n = true) (ht : ¬isTrailing n = true) (hn : n < 0x10000) :
    MeansChar (Char.ofNat n) [.unit n] := by
  simp only [isLeading, isTrailing, Bool.and_eq_true, decide_eq_true_eq] at hl ht
  have hvalid : n.isValidChar := by
    simp only [Nat.isValidChar]
    omega
  have hc := toNat_ofNat hvalid
  have hmeans := MeansChar.unit (c := Char.ofNat n) (by omega)
  rwa [hc] at hmeans

-- A text that is read is what its pieces mean, since no escape names more than 16 bits.
theorem means_of_joinPieces (hunits : ∀ n, Piece.unit n ∈ pieces → n < 0x10000)
    (h : joinPieces none pieces = .ok text) : MeansText text pieces := by
  fun_induction joinPieces none pieces generalizing text with
  | case1 =>
      cases h
      exact .nil
  | case2 c rest ih =>
      obtain ⟨tail, htail, rfl⟩ := map_eq_ok h
      exact .cons .plain (ih (fun n hn => hunits n (List.mem_cons_of_mem _ hn)) htail)
  | case3 n hl m rest ht ih =>
      obtain ⟨tail, htail, rfl⟩ := map_eq_ok h
      have hrest : ∀ k, Piece.unit k ∈ rest → k < 0x10000 := fun k hk =>
        hunits k (List.mem_cons_of_mem _ (List.mem_cons_of_mem _ hk))
      exact .cons (means_pair hl ht) (ih hrest htail)
  | case8 n rest hl ht ih =>
      obtain ⟨tail, htail, rfl⟩ := map_eq_ok h
      exact .cons (means_unit hl ht (hunits n List.mem_cons_self))
        (ih (fun k hk => hunits k (List.mem_cons_of_mem _ hk)) htail)
  | case4 | case5 | case6 | case7 => cases h

end Texts

section Quoted

variable {q : Quoted} {text : List Char} {s : String}

theorem hexDigit_unit_lt {a b c d : Char} {p q r s : Nat} (ha : Outline.HexDigit a p)
    (hb : Outline.HexDigit b q) (hc : Outline.HexDigit c r) (hd : Outline.HexDigit d s) :
    ((p * 16 + q) * 16 + r) * 16 + s < 0x10000 := by
  have := ha.1
  have := hb.1
  have := hc.1
  have := hd.1
  omega

theorem units_of_spells {pieces : List Piece} (h : Outline.SpellsPieces pieces text) :
    ∀ n, Piece.unit n ∈ pieces → n < 0x10000 := by
  induction h with
  | nil => simp
  | cons hpiece _ ih =>
      intro n hn
      rcases List.mem_cons.mp hn with rfl | hn
      · cases hpiece with
        | number ha hb hc hd hn => exact hn ▸ hexDigit_unit_lt ha hb hc hd
      · exact ih n hn

theorem read_of_means (h : q.Means s) : q.read = .ok s := by
  rw [Quoted.read, h.1, joinPieces_of_means h.2]
  simp [Except.map]

theorem read_eq_ok_iff (h : Outline.SpellsQuoted q text) : q.read = .ok s ↔ q.Means s := by
  refine ⟨fun hread => ?_, read_of_means⟩
  obtain ⟨hpieces⟩ := h
  obtain ⟨l, hl, rfl⟩ := map_eq_ok hread
  refine ⟨rfl, ?_⟩
  rw [String.toList_ofList]
  exact means_of_joinPieces (units_of_spells hpieces) hl

end Quoted

namespace Outline

-- What is read in full where so many levels of arrays and objects are left.
inductive Legible : Nat → Outline → Prop
  | null {levels : Nat} : Legible levels .null
  | bool {levels : Nat} {b : Bool} : Legible levels (.bool b)
  | number {levels : Nat} {n : Numeral} (h : ¬n.Overflows) : Legible levels (.number n)
  | string {levels : Nat} {q : Quoted} {s : String} (h : q.Means s) : Legible levels (.string q)
  | array {levels : Nat} {values : List Outline} (h : ∀ value ∈ values, Legible levels value) :
      Legible (levels + 1) (.array (.ofList values))
  | object {levels : Nat} {members : List (Quoted × Outline)}
      (hnames : ∀ member ∈ members, ∃ s, member.1.Means s)
      (hvalues : ∀ member ∈ members, Legible levels member.2) :
      Legible (levels + 1) (.ofMembers members)

theorem readItems_ofList {levels : Nat} {values : List Outline}
    (h : ∀ value ∈ values, value.readFully levels = .ok ()) :
    readItems levels (.ofList values) = .ok () := by
  induction values with
  | nil => rfl
  | cons value values ih =>
      obtain ⟨hvalue, hvalues⟩ := List.forall_mem_cons.mp h
      rw [Items.ofList, readItems, hvalue]
      exact ih hvalues

theorem readMembers_prepend {levels : Nat} {members : List (Quoted × Outline)}
    (hnames : ∀ member ∈ members, ∃ s, member.1.Means s)
    (hvalues : ∀ member ∈ members, member.2.readFully levels = .ok ()) :
    readMembers levels (Members.prepend members (.ends none)) = .ok () := by
  induction members with
  | nil => rfl
  | cons member members ih =>
      obtain ⟨⟨s, hname⟩, hnames⟩ := List.forall_mem_cons.mp hnames
      obtain ⟨hvalue, hvalues⟩ := List.forall_mem_cons.mp hvalues
      rw [Members.prepend, List.foldr_cons, readMembers, read_of_means hname, hvalue]
      exact ih hnames hvalues

theorem Legible.readFully {levels : Nat} {o : Outline} (h : o.Legible levels) :
    o.readFully levels = .ok () := by
  induction h with
  | null => rfl
  | bool => rfl
  | number h => rw [Outline.readFully, if_pos (Numeral.isSome_jsonNumber?.mpr h)]
  | string h =>
      rw [Outline.readFully, read_of_means h]
      rfl
  | array _ ih =>
      rw [Outline.readFully, if_neg (Nat.succ_ne_zero _), Nat.add_sub_cancel]
      exact readItems_ofList ih
  | object hnames _ ih =>
      rw [Outline.ofMembers, Outline.readFully, if_neg (Nat.succ_ne_zero _), Nat.add_sub_cancel]
      exact readMembers_prepend hnames ih

end Outline

end CoilHub
