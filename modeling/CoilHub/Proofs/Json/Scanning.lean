import CoilHub.Json.Document
import CoilHub.Proofs.Json.Grammar

namespace CoilHub

namespace Outline

section Quoted

variable {c : Char}

-- What the escape of a character is scanned as. Control characters without a letter of their own are
-- written by number.
def piece (c : Char) : Piece :=
  if c.toNat < 32 ∧ c ≠ '\n' ∧ c ≠ '\r' ∧ c ≠ '\t' ∧ c.toNat ≠ 8 ∧ c.toNat ≠ 12 then .unit c.toNat
  else .char c

theorem hexDigit_digitChar {n : Nat} (h : n < 16) : HexDigit (Nat.digitChar n) n := ⟨h, .inl rfl⟩

theorem char_eq_of_toNat {d : Char} (h : c.toNat = d.toNat) : c = d := Char.toNat_inj.mp h

theorem spells_escape (c : Char) : SpellsPiece (piece c) (Document.escape c) := by
  unfold Document.escape
  split
  · subst c
    exact .letter (by simp [escapes])
  split
  · subst c
    exact .letter (by simp [escapes])
  split
  · subst c
    exact .letter (by simp [escapes])
  split
  · subst c
    exact .letter (by simp [escapes])
  split
  · subst c
    exact .letter (by simp [escapes])
  split
  · rename_i h
    obtain rfl : c = '\x08' := char_eq_of_toNat h
    exact .letter (by simp [escapes])
  split
  · rename_i h
    obtain rfl : c = '\x0c' := char_eq_of_toNat h
    exact .letter (by simp [escapes])
  split
  · rename_i hquote hbackslash hnewline hreturn htab hback hfeed hcontrol
    rw [piece, if_pos ⟨hcontrol, hnewline, hreturn, htab, hback, hfeed⟩]
    have hzero : HexDigit '0' 0 := hexDigit_digitChar (by decide)
    exact .number hzero hzero (hexDigit_digitChar (by omega)) (hexDigit_digitChar (by omega)) (by omega)
  · rename_i hquote hbackslash hnewline hreturn htab hback hfeed hprinted
    rw [piece, if_neg fun h => hprinted h.1]
    exact .plain (Nat.not_lt.mp hprinted) hquote hbackslash

theorem spells_flatMap (text : List Char) :
    SpellsPieces (text.map piece) (text.flatMap Document.escape) := by
  induction text with
  | nil => exact .nil
  | cons c text ih =>
      rw [List.flatMap_cons]
      exact .cons (spells_escape c) ih

end Quoted

theorem spells_text {n : Numeral} (h : n.Canonical) : SpellsNumber n (signed n.negative n.text) :=
  .numeral h h.powerText

end Outline

namespace Document

open Outline

def quoted (s : String) : Quoted := { pieces := s.toList.map piece }

def integerNumeral (n : Int) : Numeral :=
  { negative := decide (n < 0), whole := decimalDigits n.natAbs }

mutual

-- What a document says.
def outline : Document → Outline
  | .null => .null
  | .bool b => .bool b
  | .integer n => .number (integerNumeral n)
  | .float x => if x.isFinite then .number { x.documentNumeral with negative := x.negative } else .null
  | .string s => .string (quoted s)
  | .array items => .array (outlineItems items)
  | .object members => .object (outlineMembers members)

def outlineItems : List Document → Items
  | [] => .ends none
  | item :: items => .item (outline item) (outlineItems items)

def outlineMembers : List (String × Document) → Members
  | [] => .ends none
  | (name, value) :: members => .member (quoted name) (outline value) (outlineMembers members)

end

section Scalars

theorem spells_quote (s : String) : SpellsQuoted (quoted s) (quote s) := .quoted (spells_flatMap s.toList)

theorem canonical_integerNumeral (n : Int) : (integerNumeral n).Canonical := by
  refine ⟨⟨decimalDigits_ne_nil _, isDigit_of_mem_decimalDigits⟩, fun hzero => ?_,
    by simp [integerNumeral], by simp [integerNumeral]⟩
  rcases Nat.eq_zero_or_pos n.natAbs with h0 | hpos
  · simp only [integerNumeral, h0]
    rfl
  · exact absurd hzero (head?_decimalDigits hpos)

theorem decimalText_eq_signed (n : Int) :
    decimalText n = signed (integerNumeral n).negative (integerNumeral n).text := by
  rw [decimalText_eq]
  simp [integerNumeral, Numeral.text, Numeral.fractionText, Numeral.powerText]

theorem spells_integer (n : Int) : Spells (.number (integerNumeral n)) (decimalText n) := by
  rw [decimalText_eq_signed]
  exact .number (spells_text (canonical_integerNumeral n))

theorem floatText_eq {x : Binary64} (hx : x.isFinite) :
    floatText x = signed x.negative x.documentNumeral.text := by
  rw [floatText, Binary64.documentText?_eq (Binary64.isFinite_iff.mp hx), Option.getD_some,
    Binary64.signText]
  cases x.negative <;> rfl

theorem floatText_of_not_finite {x : Binary64} (hx : ¬x.isFinite) : floatText x = "null".toList := by
  rw [floatText, Binary64.documentText?, if_pos (by simpa using hx), Option.getD_none]

theorem spells_float (x : Binary64) : Spells (outline (.float x)) (floatText x) := by
  rw [outline]
  split
  · rename_i hx
    rw [floatText_eq hx]
    exact .number (spells_text
      ((Binary64.canonical_documentNumeral (Binary64.isFinite_iff.mp hx)).signed x.negative))
  · rename_i hx
    rw [floatText_of_not_finite hx]
    exact .null

end Scalars

section Containers

theorem outlineItems_eq (items : List Document) : outlineItems items = .ofList (items.map outline) := by
  induction items with
  | nil => rfl
  | cons item items ih => rw [outlineItems, ih, List.map_cons, Items.ofList]

-- The members of an object with the outlines of their values.
def outlined (members : List (String × Document)) : List (Quoted × Outline) :=
  members.map fun member => (quoted member.1, member.2.outline)

theorem outline_object (members : List (String × Document)) :
    (Document.object members).outline = .ofMembers (outlined members) := by
  have hmembers : outlineMembers members = Members.prepend (outlined members) (.ends none) := by
    induction members with
    | nil => rfl
    | cons member members ih =>
        rw [outlineMembers, ih]
        rfl
  rw [outline, hmembers, ofMembers]

end Containers

mutual

theorem spells_print : ∀ d : Document, Spells d.outline d.print
  | .null => .null
  | .bool true => .yes
  | .bool false => .no
  | .integer n => spells_integer n
  | .float x => spells_float x
  | .string s => .string (spells_quote s)
  | .array [] => .array .nil blanks_nil
  | .object [] => .object .nil blanks_nil
  | .array (item :: items) => by
      obtain ⟨text, hprint, hitems⟩ := spellsItems_print items
      have hspells := SpellsItems.cons (.first blanks_nil) (spells_print item) hitems
      rw [print, hprint, outline, outlineItems_eq]
      have harray := Spells.array hspells blanks_nil
      simpa using harray
  | .object ((name, value) :: members) => by
      obtain ⟨text, hprint, hmembers⟩ := spellsMembers_print members
      have hspells := SpellsMembers.cons (.first blanks_nil) (spells_quote name) blanks_nil blanks_nil
        (spells_print value) hmembers
      rw [print, hprint, outline_object]
      have hobject := Spells.object hspells blanks_nil
      simpa [outlined] using hobject

theorem spellsItems_print : ∀ items : List Document,
    ∃ text, printItems items = text ++ [']'] ∧ SpellsItems false (items.map outline) text
  | [] => ⟨[], rfl, .nil⟩
  | item :: items => by
      obtain ⟨text, hprint, hitems⟩ := spellsItems_print items
      refine ⟨_, ?_, .cons (.next blanks_nil blanks_nil) (spells_print item) hitems⟩
      simp [printItems, hprint]

theorem spellsMembers_print : ∀ members : List (String × Document),
    ∃ text, printMembers members = text ++ ['\x7d'] ∧ SpellsMembers false (outlined members) text
  | [] => ⟨[], rfl, .nil⟩
  | (name, value) :: members => by
      obtain ⟨text, hprint, hmembers⟩ := spellsMembers_print members
      refine ⟨_, ?_, .cons (.next blanks_nil blanks_nil) (spells_quote name) blanks_nil blanks_nil
        (spells_print value) hmembers⟩
      simp [printMembers, hprint]

end

-- The outline of a printed document is the one of the document.
theorem ofText_compact (d : Document) :
    Scanned.ofText d.compact.toList = { root := d.outline, trailing := false } := by
  have hscan := ofText_spells (spells_print d) blanks_nil blanks_nil
  rw [List.nil_append, List.append_nil] at hscan
  rw [compact, String.toList_ofList, hscan]

end Document

end CoilHub
