import CoilHub.Json.Decoding
import CoilHub.Proofs.Numbers.Grammar

namespace CoilHub

-- The items of an array that has its closing bracket.
def Items.ofList : List Outline → Items
  | [] => .ends none
  | value :: values => .item value (ofList values)

-- Members in front of others.
def Members.prepend (front : List (Quoted × Outline)) (members : Members) : Members :=
  front.foldr (fun member rest => .member member.1 member.2 rest) members

-- An object that has its closing brace.
def Outline.ofMembers (members : List (Quoted × Outline)) : Outline :=
  .object (Members.prepend members (.ends none))

namespace Outline

def Blanks (text : List Char) : Prop := ∀ c ∈ text, isSpace c

-- What stands in front of an item or a member: blanks, and a comma among them unless it is the first.
inductive Separates : Bool → List Char → Prop
  | first {blanks : List Char} (hblanks : Blanks blanks) : Separates true blanks
  | next {before after : List Char} (hbefore : Blanks before) (hafter : Blanks after) :
      Separates false (before ++ ',' :: after)

-- What can stand behind a backslash, with what it means there.
def escapes : List (Char × Char) :=
  [('"', '"'), ('\\', '\\'), ('/', '/'), ('b', '\x08'), ('f', '\x0c'), ('n', '\n'), ('r', '\r'), ('t', '\t')]

-- A hexadecimal digit, in either case.
def HexDigit (c : Char) (n : Nat) : Prop :=
  n < 16 ∧ (c = Nat.digitChar n ∨ c = (Nat.digitChar n).toUpper)

-- How one part of a quoted text is spelled: as it is, with the escape that stands for it, or by number.
inductive SpellsPiece : Piece → List Char → Prop
  | plain {c : Char} (hprinted : 32 ≤ c.toNat) (hquote : c ≠ '"') (hescape : c ≠ '\\') :
      SpellsPiece (.char c) [c]
  | letter {c meant : Char} (h : (c, meant) ∈ escapes) : SpellsPiece (.char meant) ['\\', c]
  | number {a b c d : Char} {p q r s n : Nat} (ha : HexDigit a p) (hb : HexDigit b q) (hc : HexDigit c r)
      (hd : HexDigit d s) (hn : n = ((p * 16 + q) * 16 + r) * 16 + s) :
      SpellsPiece (.unit n) ['\\', 'u', a, b, c, d]

inductive SpellsPieces : List Piece → List Char → Prop
  | nil : SpellsPieces [] []
  | cons {piece : Piece} {pieces : List Piece} {text rest : List Char}
      (hpiece : SpellsPiece piece text) (hrest : SpellsPieces pieces rest) :
      SpellsPieces (piece :: pieces) (text ++ rest)

-- A quoted text with both of its quotes.
inductive SpellsQuoted : Quoted → List Char → Prop
  | quoted {pieces : List Piece} {text : List Char} (h : SpellsPieces pieces text) :
      SpellsQuoted { pieces } ('"' :: (text ++ ['"']))

-- A number. The letter of its exponent and a plus sign behind that are free.
inductive SpellsNumber : Numeral → List Char → Prop
  | numeral {n : Numeral} {power : List Char} (hn : n.Canonical)
      (hpower : Numeral.PowerText n.exponent power) :
      SpellsNumber n (signed n.negative (n.whole ++ (Numeral.fractionText n.fraction ++ power)))

mutual

-- How a value is spelled, without blanks around it.
inductive Spells : Outline → List Char → Prop
  | null : Spells .null "null".toList
  | yes : Spells (.bool true) "true".toList
  | no : Spells (.bool false) "false".toList
  | number {n : Numeral} {text : List Char} (h : SpellsNumber n text) : Spells (.number n) text
  | string {q : Quoted} {text : List Char} (h : SpellsQuoted q text) : Spells (.string q) text
  | array {values : List Outline} {text blanks : List Char} (h : SpellsItems true values text)
      (hblanks : Blanks blanks) : Spells (.array (.ofList values)) ('[' :: (text ++ (blanks ++ [']'])))
  | object {members : List (Quoted × Outline)} {text blanks : List Char}
      (h : SpellsMembers true members text) (hblanks : Blanks blanks) :
      Spells (.ofMembers members) ('\x7b' :: (text ++ (blanks ++ ['\x7d'])))

-- The items of an array, each with what stands in front of it.
inductive SpellsItems : Bool → List Outline → List Char → Prop
  | nil {first : Bool} : SpellsItems first [] []
  | cons {first : Bool} {value : Outline} {values : List Outline} {separator text rest : List Char}
      (hseparator : Separates first separator) (hvalue : Spells value text)
      (hrest : SpellsItems false values rest) :
      SpellsItems first (value :: values) (separator ++ (text ++ rest))

-- The members of an object, each with what stands in front of it.
inductive SpellsMembers : Bool → List (Quoted × Outline) → List Char → Prop
  | nil {first : Bool} : SpellsMembers first [] []
  | cons {first : Bool} {name : Quoted} {value : Outline} {members : List (Quoted × Outline)}
      {separator label before after text rest : List Char}
      (hseparator : Separates first separator) (hname : SpellsQuoted name label)
      (hbefore : Blanks before) (hafter : Blanks after) (hvalue : Spells value text)
      (hrest : SpellsMembers false members rest) :
      SpellsMembers first ((name, value) :: members)
        (separator ++ (label ++ (before ++ (':' :: (after ++ (text ++ rest))))))

end

section Blanks

variable {blanks rest : List Char} {c : Char}

theorem blanks_nil : Blanks [] := by simp [Blanks]

theorem skipSpace_cons (hc : isSpace c = false) (text : List Char) :
    skipSpace (c :: text) = c :: text := List.dropWhile_cons_of_neg (by simp [hc])

theorem skipSpace_append (h : Blanks blanks) (rest : List Char) :
    skipSpace (blanks ++ rest) = skipSpace rest := List.dropWhile_append_of_pos h

theorem skipSpace_to (h : Blanks blanks) (hc : isSpace c = false) (rest : List Char) :
    skipSpace (blanks ++ c :: rest) = c :: rest := by
  rw [skipSpace_append h, skipSpace_cons hc]

theorem scanValue_blanks (h : Blanks blanks) (fuel : Nat) (rest : List Char) :
    scanValue fuel (blanks ++ rest) = scanValue fuel rest := by
  cases fuel with
  | zero => rw [scanValue, scanValue]
  | succ fuel => rw [scanValue, scanValue, skipSpace_append h]

-- What does not become part of a number in front of it.
def EndsNumber (rest : List Char) : Prop :=
  ∀ c ∈ rest.head?, c.isDigit = false ∧ c ≠ '.' ∧ c ≠ 'e' ∧ c ≠ 'E'

theorem EndsNumber.noDigit (h : EndsNumber rest) : NoDigit rest := fun c hc => (h c hc).1

theorem endsNumber_nil : EndsNumber [] := by simp [EndsNumber]

theorem endsNumber_cons (h : c.isDigit = false ∧ c ≠ '.' ∧ c ≠ 'e' ∧ c ≠ 'E') :
    EndsNumber (c :: rest) := by
  simpa [EndsNumber] using h

theorem endsNumber_of_isSpace (h : isSpace c) : EndsNumber (c :: rest) := by
  simp only [isSpace, Bool.or_eq_true, decide_eq_true_eq] at h
  rcases h with ((rfl | rfl) | rfl) | rfl <;> exact endsNumber_cons (by decide)

theorem endsNumber_blanks (h : Blanks blanks) (hrest : EndsNumber rest) : EndsNumber (blanks ++ rest) := by
  cases blanks with
  | nil => exact hrest
  | cons c blanks => exact endsNumber_of_isSpace (h c List.mem_cons_self)

theorem Separates.endsNumber (h : Separates false blanks) (rest : List Char) :
    EndsNumber (blanks ++ rest) := by
  cases h with
  | next hbefore hafter =>
      rw [List.append_assoc]
      exact endsNumber_blanks hbefore (endsNumber_cons (by decide))

theorem Separates.endsNumber_quoted {first : Bool} {q : Quoted} {label : List Char}
    (h : Separates first blanks) (hlabel : SpellsQuoted q label) (rest : List Char) :
    EndsNumber (blanks ++ (label ++ rest)) := by
  cases h with
  | first hblanks =>
      obtain ⟨-⟩ := hlabel
      exact endsNumber_blanks hblanks (endsNumber_cons (by decide))
  | next hbefore hafter => exact (Separates.next hbefore hafter).endsNumber _

end Blanks

section Numbers

variable {text digits rest : List Char} {power : Option (Bool × List Char)} {n : Numeral}

theorem noDigit_append (htext : NoDigit text) (hrest : NoDigit rest) : NoDigit (text ++ rest) := by
  cases text with
  | nil => exact hrest
  | cons c text => exact htext

theorem scanDigits_append (h : Numeral.IsDigits digits) (hrest : NoDigit rest) :
    scanDigits (digits ++ rest) = .ok (digits, rest) := by
  obtain ⟨c, digits, rfl⟩ := List.exists_cons_of_ne_nil h.1
  rw [scanDigits, spanDigits_append h.2 hrest]

theorem scanExponent_cons {letter : Char} {negative : Bool} {sign : List Char}
    (hletter : letter = 'e' ∨ letter = 'E') (hsign : SignText negative sign) (htext : Unsigned text) :
    scanExponent (letter :: (sign ++ text)) = (scanDigits text).map fun found =>
      (some (negative, found.1), found.2) := by
  unfold scanExponent
  dsimp only
  rw [if_pos hletter]
  cases hsign with
  | none =>
      rw [List.nil_append]
      split
      · exact absurd rfl (htext '-' rfl).2
      · exact absurd rfl (htext '+' rfl).1
      · rfl
  | plus => rfl
  | minus => rfl

theorem scanExponent_append (h : Numeral.PowerText power text) (hrest : EndsNumber rest) :
    scanExponent (text ++ rest) = .ok (power, rest) := by
  cases h with
  | none =>
      cases rest with
      | nil => rfl
      | cons c rest =>
          obtain ⟨-, -, hlower, hupper⟩ := hrest c rfl
          simp [scanExponent, hlower, hupper]
  | @some letter negative sign digits hletter hsign hdigits =>
      have hunsigned : Unsigned (digits ++ rest) := by
        obtain ⟨c, tail, rfl⟩ := List.exists_cons_of_ne_nil hdigits.1
        exact hdigits.unsigned
      rw [List.cons_append, List.append_assoc, scanExponent_cons hletter hsign hunsigned,
        scanDigits_append hdigits hrest.noDigit]
      rfl

theorem scanUnsigned_append (hn : n.Canonical) (hpower : Numeral.PowerText n.exponent text)
    (hrest : EndsNumber rest) :
    scanUnsigned (n.whole ++ (Numeral.fractionText n.fraction ++ text) ++ rest) =
      .ok ({ n with negative := false }, rest) := by
  obtain ⟨negative, whole, fraction, power⟩ := n
  have hexponent := scanExponent_append hpower hrest
  have hleading := hn.leading
  have hend : NoDigit (text ++ rest) := noDigit_append hpower.noDigit hrest.noDigit
  dsimp only at hexponent hleading ⊢
  cases fraction with
  | some digits =>
      have hwhole : scanDigits (whole ++ '.' :: (digits ++ (text ++ rest))) =
          .ok (whole, '.' :: (digits ++ (text ++ rest))) :=
        scanDigits_append hn.whole (noDigit_cons (by decide) _)
      have hfraction := scanDigits_append (hn.fraction digits rfl) hend
      simp only [Numeral.fractionText, Option.elim_some, List.append_assoc, List.cons_append,
        scanUnsigned, hwhole, bind, Except.bind]
      rw [if_neg fun hzeros => hzeros.2 (hleading hzeros.1)]
      simp [hfraction, hexponent, pure, Except.pure]
  | none =>
      -- What is next is no point: the letter of the exponent, or else what follows the number. This rules
      -- out the branch for a fraction.
      have hpoint : ∀ tail, text ++ rest ≠ '.' :: tail := by
        intro tail htail
        cases text with
        | nil =>
            rw [List.nil_append] at htail
            exact (hrest '.' (htail ▸ rfl)).2.1 rfl
        | cons c text =>
            rw [List.cons_append, List.cons.injEq] at htail
            exact hpower.noPoint text (by rw [htail.1])
      have hwhole := scanDigits_append hn.whole hend
      simp only [Numeral.fractionText, Option.elim_none, List.nil_append, List.append_assoc,
        scanUnsigned, hwhole, bind, Except.bind]
      rw [if_neg fun hzeros => hzeros.2 (hleading hzeros.1)]
      simp only [hexponent, pure, Except.pure]

-- How a number begins.
def StartsNumber (c : Char) : Prop := c = '-' ∨ c.isDigit

theorem StartsNumber.not_isSpace {c : Char} (h : StartsNumber c) : isSpace c = false := by
  rcases h with rfl | h
  · decide
  · have hbounds := isDigit_bounds h
    have hne : ∀ d : Char, d.toNat < 48 → c ≠ d := by
      rintro d hd rfl
      omega
    simp [isSpace, hne]

theorem SpellsNumber.exists_cons (h : SpellsNumber n text) :
    ∃ c tail, text = c :: tail ∧ StartsNumber c := by
  obtain ⟨hn, -⟩ := h
  obtain ⟨c, digits, hwhole⟩ := List.exists_cons_of_ne_nil hn.whole.1
  cases hsign : n.negative with
  | true => exact ⟨'-', _, rfl, .inl rfl⟩
  | false =>
      rw [hwhole]
      exact ⟨c, _, rfl, .inr (hn.whole.2 c (hwhole ▸ List.mem_cons_self))⟩

theorem scanNumber_of_isDigit {c : Char} (hc : c.isDigit) (text : List Char) :
    scanNumber (c :: text) = match scanUnsigned (c :: text) with
      | .ok (n, rest) => (.number n, .ok rest)
      | .error fault => (.broken fault, .error fault) := by
  unfold scanNumber
  split
  · rename_i heq
    cases heq
    exact absurd hc (by decide)
  · rfl

theorem SpellsNumber.scan (h : SpellsNumber n text) (hrest : EndsNumber rest) :
    scanNumber (text ++ rest) = (.number n, .ok rest) := by
  obtain ⟨hn, hpower⟩ := h
  have hscan := scanUnsigned_append hn hpower hrest
  cases hsign : n.negative with
  | true =>
      have hself : { n with negative := true } = n := by rw [← hsign]
      rw [signed, if_pos rfl, List.cons_append]
      simp only [scanNumber, hscan, Except.map, hself]
  | false =>
      have hself : { n with negative := false } = n := by rw [← hsign]
      obtain ⟨c, digits, hwhole⟩ := List.exists_cons_of_ne_nil hn.whole.1
      have hc : c.isDigit := hn.whole.2 c (hwhole ▸ List.mem_cons_self)
      rw [hself, hwhole, List.cons_append, List.cons_append] at hscan
      rw [signed, if_neg (by decide), hwhole, List.cons_append, List.cons_append,
        scanNumber_of_isDigit hc, hscan]

theorem scanValue_of_startsNumber {c : Char} (hc : StartsNumber c) (fuel : Nat) (text : List Char) :
    scanValue (fuel + 1) (c :: text) = scanNumber (c :: text) := by
  rw [scanValue, skipSpace_cons hc.not_isSpace]
  split
  · cases ‹_ = ([] : List Char)›
  case h_8 heq =>
    cases heq
    exact if_pos hc
  all_goals
    rename_i heq
    cases heq
    rcases hc with hc | hc <;> exact absurd hc (by decide)

end Numbers

section Quoted

variable {q : Quoted} {piece : Piece} {text rest : List Char}

theorem escaped?_of_mem {c meant : Char} (h : (c, meant) ∈ escapes) : escaped? c = some meant := by
  have hall : ∀ escape ∈ escapes, escaped? escape.1 = some escape.2 := by
    simp only [escapes, List.forall_mem_cons]
    exact ⟨rfl, rfl, rfl, rfl, rfl, rfl, rfl, rfl, by simp⟩
  exact hall _ h

theorem HexDigit.hexValue?_eq {c : Char} {n : Nat} (h : HexDigit c n) : hexValue? c = some n := by
  have hlower : ∀ n < 16, hexValue? (Nat.digitChar n) = some n := by decide
  have hupper : ∀ n < 16, hexValue? (Nat.digitChar n).toUpper = some n := by decide
  obtain ⟨hn, rfl | rfl⟩ := h
  · exact hlower n hn
  · exact hupper n hn

theorem SpellsPiece.scan (h : SpellsPiece piece text) (rest : List Char) :
    scanQuoted (text ++ rest) = Quoted.cons piece (scanQuoted rest) := by
  cases h with
  | @plain c hprinted hquote hescape =>
      rw [List.singleton_append, scanQuoted, if_neg (by omega)]
      · exact hquote
      all_goals
        intros
        exact absurd ‹c = '\\'› hescape
  | @letter c meant h =>
      have hescaped := escaped?_of_mem h
      have hc : c ≠ 'u' := by
        rintro rfl
        cases hescaped
      simp only [List.cons_append, List.nil_append]
      rw [scanQuoted, hescaped]
      all_goals
        intros
        exact absurd ‹c = 'u'› hc
  | @number a b c d _ _ _ _ n ha hb hc hd hn =>
      have hunit : hexUnit? a b c d = some n := by
        simp [hexUnit?, ha.hexValue?_eq, hb.hexValue?_eq, hc.hexValue?_eq, hd.hexValue?_eq, hn]
      simp only [List.cons_append, List.nil_append, scanQuoted, hunit]

theorem SpellsPieces.scan {pieces : List Piece} (h : SpellsPieces pieces text) (rest : List Char) :
    scanQuoted (text ++ '"' :: rest) = ({ pieces }, rest) := by
  induction h with
  | nil => rfl
  | cons hpiece hrest ih =>
      rw [List.append_assoc, hpiece.scan, ih]
      rfl

theorem SpellsQuoted.scan (h : SpellsQuoted q text) (rest : List Char) :
    ∃ tail, text ++ rest = '"' :: tail ∧ scanQuoted tail = (q, rest) ∧ q.fault = none := by
  obtain ⟨hpieces⟩ := h
  refine ⟨_, rfl, ?_, rfl⟩
  rw [List.append_eq, List.append_assoc]
  exact hpieces.scan rest

end Quoted

section Values

variable {o value : Outline} {q name : Quoted} {n : Numeral} {first : Bool}
  {text blanks separator label before after tail rest : List Char} {fuel : Nat}

theorem scanValue_number (h : SpellsNumber n text) (hrest : EndsNumber rest) (fuel : Nat) :
    scanValue (fuel + 1) (text ++ rest) = (.number n, .ok rest) := by
  have hscan := h.scan hrest
  obtain ⟨c, tail, rfl, hc⟩ := h.exists_cons
  rw [List.cons_append] at hscan ⊢
  rw [scanValue_of_startsNumber hc, hscan]

theorem scanValue_quoted (h : SpellsQuoted q text) (fuel : Nat) (rest : List Char) :
    scanValue (fuel + 1) (text ++ rest) = (.string q, .ok rest) := by
  obtain ⟨tail, htext, hscan, hfault⟩ := h.scan rest
  rw [htext, scanValue, skipSpace_cons (by decide)]
  simp only [hscan, hfault]

-- A value begins with a character that is neither blank nor the end of an array.
theorem Spells.exists_cons (h : Spells o text) :
    ∃ c tail, text = c :: tail ∧ isSpace c = false ∧ c ≠ ']' := by
  cases h with
  | null => exact ⟨_, _, rfl, rfl, by decide⟩
  | yes => exact ⟨_, _, rfl, rfl, by decide⟩
  | no => exact ⟨_, _, rfl, rfl, by decide⟩
  | number h =>
      obtain ⟨c, tail, rfl, hc⟩ := h.exists_cons
      refine ⟨c, tail, rfl, hc.not_isSpace, ?_⟩
      rintro rfl
      rcases hc with hc | hc <;> exact absurd hc (by decide)
  | string h =>
      obtain ⟨h⟩ := h
      exact ⟨_, _, rfl, rfl, by decide⟩
  | array => exact ⟨_, _, rfl, rfl, by decide⟩
  | object => exact ⟨_, _, rfl, rfl, by decide⟩

theorem Spells.length_pos (h : Spells o text) : 0 < text.length := by
  obtain ⟨c, tail, rfl, -, -⟩ := h.exists_cons
  exact Nat.succ_pos _

theorem SpellsItems.endsNumber {values : List Outline} (h : SpellsItems false values text)
    (hrest : EndsNumber rest) : EndsNumber (text ++ rest) := by
  cases h with
  | nil => exact hrest
  | cons hseparator =>
      rw [List.append_assoc]
      exact hseparator.endsNumber _

theorem SpellsMembers.endsNumber {members : List (Quoted × Outline)} (h : SpellsMembers false members text)
    (hrest : EndsNumber rest) : EndsNumber (text ++ rest) := by
  cases h with
  | nil => exact hrest
  | cons hseparator =>
      rw [List.append_assoc]
      exact hseparator.endsNumber _

theorem scanItems_end (h : Blanks blanks) (fuel : Nat) (first : Bool) (rest : List Char) :
    scanItems (fuel + 1) first (blanks ++ ']' :: rest) = (.ends none, .ok rest) := by
  simp only [scanItems, skipSpace_to h (show isSpace ']' = false by decide)]

theorem scanMembers_end (h : Blanks blanks) (fuel : Nat) (first : Bool) (rest : List Char) :
    scanMembers (fuel + 1) first (blanks ++ '\x7d' :: rest) = (.ends none, .ok rest) := by
  simp only [scanMembers, skipSpace_to h (show isSpace '\x7d' = false by decide)]

-- What stands in front of an item or a member is passed over.
theorem scanItems_separated {c : Char} (hseparator : Separates first separator)
    (hspace : isSpace c = false) (hbracket : c ≠ ']') (fuel : Nat) (rest : List Char) :
    scanItems (fuel + 1) first (separator ++ c :: rest) = scanItems (fuel + 1) true (c :: rest) := by
  have hcomma : isSpace ',' = false := by decide
  cases hseparator with
  | first hblanks => simp only [scanItems, skipSpace_to hblanks hspace, skipSpace_cons hspace]
  | next hbefore hafter =>
      rw [List.append_assoc, List.cons_append]
      simp [scanItems, skipSpace_to hbefore hcomma, skipSpace_cons hspace, scanValue_blanks hafter]

theorem scanMembers_separated (hseparator : Separates first separator) (fuel : Nat) (rest : List Char) :
    scanMembers (fuel + 1) first (separator ++ '"' :: rest) = scanMembers (fuel + 1) true ('"' :: rest) := by
  have hcomma : isSpace ',' = false := by decide
  have hquote : isSpace '"' = false := by decide
  cases hseparator with
  | first hblanks => simp only [scanMembers, skipSpace_to hblanks hquote, skipSpace_cons hquote]
  | next hbefore hafter =>
      rw [List.append_assoc, List.cons_append]
      simp [scanMembers, skipSpace_to hbefore hcomma, skipSpace_cons hquote, skipSpace_to hafter hquote]

-- An item, and what is scanned behind it.
theorem scanItems_cons {items : Items} {following : Following} (hseparator : Separates first separator)
    (hvalue : Spells value text) (hscan : scanValue fuel (text ++ tail) = (value, .ok tail))
    (hrest : scanItems fuel false tail = (items, following)) :
    scanItems (fuel + 1) first (separator ++ (text ++ tail)) = (.item value items, following) := by
  obtain ⟨c, text, rfl, hspace, hbracket⟩ := hvalue.exists_cons
  rw [List.cons_append] at hscan ⊢
  rw [scanItems_separated hseparator hspace hbracket, scanItems, skipSpace_cons hspace]
  split
  · cases ‹_ = ([] : List Char)›
  · rename_i heq
    cases heq
    exact absurd rfl hbracket
  · rename_i heq
    cases heq
    simp only [true_or, if_true, hscan, hrest]

-- A member, and what is scanned behind it.
theorem scanMembers_cons {members : Members} {following : Following}
    (hseparator : Separates first separator) (hname : SpellsQuoted name label) (hbefore : Blanks before)
    (hafter : Blanks after) (hscan : scanValue fuel (text ++ tail) = (value, .ok tail))
    (hrest : scanMembers fuel false tail = (members, following)) :
    scanMembers (fuel + 1) first (separator ++ (label ++ (before ++ ':' :: (after ++ (text ++ tail))))) =
      (.member name value members, following) := by
  have hquote : isSpace '"' = false := by decide
  have hcolon : isSpace ':' = false := by decide
  obtain ⟨tail, htext, hname, hfault⟩ := hname.scan (before ++ ':' :: (after ++ (text ++ tail)))
  rw [htext, scanMembers_separated hseparator]
  simp [scanMembers, skipSpace_cons hquote, hname, hfault, skipSpace_to hbefore hcolon,
    scanValue_blanks hafter, hscan, hrest]

-- A member whose name is complete is found, whatever comes then.
theorem exists_scanMembers (hseparator : Separates first separator) (hname : SpellsQuoted name label)
    (fuel : Nat) (rest : List Char) :
    ∃ value members, (scanMembers (fuel + 1) first (separator ++ (label ++ rest))).1 =
      .member name value members := by
  have hquote : isSpace '"' = false := by decide
  obtain ⟨tail, htext, hscan, hfault⟩ := hname.scan rest
  rw [htext, scanMembers_separated hseparator]
  simp only [scanMembers, skipSpace_cons hquote, Char.reduceEq, imp_self, or_false, if_true, hscan, hfault]
  split
  · exact ⟨_, _, rfl⟩
  · exact ⟨_, _, rfl⟩

-- Behind a colon it has what is scanned there.
theorem exists_scanMembers_value (hseparator : Separates first separator) (hname : SpellsQuoted name label)
    (hbefore : Blanks before) (hafter : Blanks after) (fuel : Nat) (rest : List Char) :
    ∃ members, (scanMembers (fuel + 1) first
      (separator ++ (label ++ (before ++ ':' :: (after ++ rest))))).1 =
        .member name (scanValue fuel rest).1 members := by
  have hquote : isSpace '"' = false := by decide
  have hcolon : isSpace ':' = false := by decide
  obtain ⟨tail, htext, hscan, hfault⟩ := hname.scan (before ++ ':' :: (after ++ rest))
  rw [htext, scanMembers_separated hseparator]
  simp only [scanMembers, skipSpace_cons hquote, Char.reduceEq, imp_self, or_false, if_true, hscan, hfault,
    skipSpace_to hbefore hcolon, scanValue_blanks hafter]
  split
  · exact ⟨_, rfl⟩
  · exact ⟨_, rfl⟩

end Values

mutual

-- Each step of the scan has a character to itself, or is followed by one that has.
theorem scanValue_spells : ∀ {o : Outline} {text : List Char}, Spells o text →
    ∀ {rest : List Char}, EndsNumber rest → ∀ {fuel : Nat}, 2 * (text ++ rest).length ≤ fuel + 1 →
      scanValue (fuel + 1) (text ++ rest) = (o, .ok rest)
  | _, _, .null, _, _, _, _ => rfl
  | _, _, .yes, _, _, _, _ => rfl
  | _, _, .no, _, _, _, _ => rfl
  | _, _, .number h, _, hrest, fuel, _ => scanValue_number h hrest fuel
  | _, _, .string h, rest, _, fuel, _ => scanValue_quoted h fuel rest
  | _, _, @Spells.array values text blanks h hblanks, rest, hrest, fuel, hfuel => by
      simp only [List.length_cons, List.length_append, List.length_nil] at hfuel
      obtain ⟨fuel, rfl⟩ : ∃ f, fuel = f + 1 := ⟨fuel - 1, by omega⟩
      have hfits : 2 * (text ++ (blanks ++ ']' :: rest)).length ≤ fuel := by
        simp only [List.length_cons, List.length_append]
        omega
      have hscan := scanItems_spells h hblanks rest hfits
      rw [List.cons_append, List.append_assoc, List.append_assoc, List.singleton_append, scanValue,
        skipSpace_cons (by decide)]
      simp only [hscan]
  | _, _, @Spells.object members text blanks h hblanks, rest, hrest, fuel, hfuel => by
      simp only [List.length_cons, List.length_append, List.length_nil] at hfuel
      obtain ⟨fuel, rfl⟩ : ∃ f, fuel = f + 1 := ⟨fuel - 1, by omega⟩
      have hfits : 2 * (text ++ (blanks ++ '\x7d' :: rest)).length ≤ fuel := by
        simp only [List.length_cons, List.length_append]
        omega
      have hend : EndsNumber (blanks ++ '\x7d' :: rest) :=
        endsNumber_blanks hblanks (endsNumber_cons (by decide))
      obtain ⟨left, -, hscan⟩ := scanMembers_spells h hend hfits
      rw [scanMembers_end hblanks] at hscan
      rw [List.cons_append, List.append_assoc, List.append_assoc, List.singleton_append, scanValue,
        skipSpace_cons (by decide)]
      simp only [hscan, Prod.map, id, ofMembers]

theorem scanItems_spells : ∀ {first : Bool} {values : List Outline} {text : List Char},
    SpellsItems first values text → ∀ {blanks : List Char}, Blanks blanks → ∀ (rest : List Char)
      {fuel : Nat}, 2 * (text ++ (blanks ++ ']' :: rest)).length ≤ fuel →
        scanItems (fuel + 1) first (text ++ (blanks ++ ']' :: rest)) = (.ofList values, .ok rest)
  | first, _, _, .nil, blanks, hblanks, rest, fuel, _ => scanItems_end hblanks fuel first rest
  | first, _, _, @SpellsItems.cons _ value values separator text tail hseparator hvalue hvalues, blanks,
      hblanks, rest, fuel, hfuel => by
      have hlength := hvalue.length_pos
      simp only [List.length_append] at hfuel
      obtain ⟨fuel, rfl⟩ : ∃ f, fuel = f + 1 := ⟨fuel - 1, by omega⟩
      have hfits : 2 * (tail ++ (blanks ++ ']' :: rest)).length ≤ fuel := by
        simp only [List.length_append]
        omega
      have hfits' : 2 * (text ++ (tail ++ (blanks ++ ']' :: rest))).length ≤ fuel + 1 := by
        simp only [List.length_append]
        omega
      have hend : EndsNumber (tail ++ (blanks ++ ']' :: rest)) :=
        hvalues.endsNumber (endsNumber_blanks hblanks (endsNumber_cons (by decide)))
      rw [List.append_assoc, List.append_assoc]
      exact scanItems_cons hseparator hvalue (scanValue_spells hvalue hend hfits')
        (scanItems_spells hvalues hblanks rest hfits)

theorem scanMembers_spells : ∀ {first : Bool} {members : List (Quoted × Outline)} {text : List Char},
    SpellsMembers first members text → ∀ {rest : List Char}, EndsNumber rest → ∀ {fuel : Nat},
      2 * (text ++ rest).length ≤ fuel → ∃ left, 2 * rest.length ≤ left ∧
        scanMembers (fuel + 1) first (text ++ rest) =
          (scanMembers (left + 1) (first && members.isEmpty) rest).map (Members.prepend members) id
  | first, _, _, .nil, rest, _, fuel, hfuel => by
      refine ⟨fuel, hfuel, ?_⟩
      rw [List.isEmpty_nil, Bool.and_true]
      rfl
  | first, _, _, @SpellsMembers.cons _ name value members separator label before after text tail hseparator
      hname hbefore hafter hvalue hmembers, rest, hrest, fuel, hfuel => by
      have hlength := hvalue.length_pos
      simp only [List.length_append, List.length_cons] at hfuel
      obtain ⟨fuel, rfl⟩ : ∃ f, fuel = f + 1 := ⟨fuel - 1, by omega⟩
      have hfits : 2 * (tail ++ rest).length ≤ fuel := by
        simp only [List.length_append]
        omega
      have hfits' : 2 * (text ++ (tail ++ rest)).length ≤ fuel + 1 := by
        simp only [List.length_append]
        omega
      obtain ⟨left, hleft, hscan⟩ := scanMembers_spells hmembers hrest hfits
      refine ⟨left, hleft, ?_⟩
      simp only [List.append_assoc, List.cons_append]
      rw [scanMembers_cons hseparator hname hbefore hafter
        (scanValue_spells hvalue (hmembers.endsNumber hrest) hfits') hscan, List.isEmpty_cons,
        Bool.and_false, Bool.false_and]
      rfl

end

theorem SpellsQuoted.skip {q : Quoted} {text : List Char} (h : SpellsQuoted q text) :
    skipQuoted q = .ok () := by
  obtain ⟨h⟩ := h
  rfl

mutual

-- A value that is spelled out can be skipped.
theorem skip_spells : ∀ {o : Outline} {text : List Char}, Spells o text → o.skip = .ok ()
  | _, _, .null => rfl
  | _, _, .yes => rfl
  | _, _, .no => rfl
  | _, _, .number _ => rfl
  | _, _, .string h => h.skip
  | _, _, .array h _ => by
      rw [skip]
      exact skipItems_spells h
  | _, _, .object h _ => by
      rw [ofMembers, skip]
      exact skipMembers_spells h

theorem skipItems_spells : ∀ {first : Bool} {values : List Outline} {text : List Char},
    SpellsItems first values text → skipItems (.ofList values) = .ok ()
  | _, _, _, .nil => rfl
  | _, _, _, .cons _ hvalue hvalues => by
      rw [Items.ofList, skipItems, skip_spells hvalue]
      exact skipItems_spells hvalues

theorem skipMembers_spells : ∀ {first : Bool} {members : List (Quoted × Outline)} {text : List Char},
    SpellsMembers first members text → skipMembers (Members.prepend members (.ends none)) = .ok ()
  | _, _, _, .nil => rfl
  | _, _, _, .cons _ hname _ _ hvalue hmembers => by
      rw [Members.prepend, List.foldr_cons, skipMembers, hname.skip, skip_spells hvalue]
      exact skipMembers_spells hmembers

end

section Texts

variable {o : Outline} {members : List (Quoted × Outline)} {text front back rest : List Char}

-- An object whose first members are in order.
theorem scanValue_members (h : SpellsMembers true members text) (hrest : EndsNumber rest) {fuel : Nat}
    (hfuel : 2 * (text ++ rest).length + 1 ≤ fuel) :
    ∃ left, 2 * rest.length ≤ left ∧ (scanValue (fuel + 1) ('\x7b' :: (text ++ rest))).1 =
      .object (Members.prepend members (scanMembers (left + 1) members.isEmpty rest).1) := by
  obtain ⟨fuel, rfl⟩ : ∃ f, fuel = f + 1 := ⟨fuel - 1, by omega⟩
  obtain ⟨left, hleft, hscan⟩ := scanMembers_spells h hrest (show 2 * (text ++ rest).length ≤ fuel by omega)
  refine ⟨left, hleft, ?_⟩
  rw [scanValue, skipSpace_cons (by decide)]
  simp only [hscan]
  rfl

theorem root_ofText (hfront : Blanks front) (text : List Char) :
    (Scanned.ofText (front ++ text)).root = (scanValue (2 * (front ++ text).length + 2) text).1 := by
  have hroot : (Scanned.ofText (front ++ text)).root =
      (scanValue (2 * (front ++ text).length + 2) (front ++ text)).1 := rfl
  rw [hroot, scanValue_blanks hfront]

-- A whole text that the grammar allows.
theorem ofText_spells (h : Spells o text) (hfront : Blanks front) (hback : Blanks back) :
    Scanned.ofText (front ++ (text ++ back)) = { root := o, trailing := false } := by
  have hend : EndsNumber back := by
    rw [← List.append_nil back]
    exact endsNumber_blanks hback endsNumber_nil
  have hskip : skipSpace back = [] := List.dropWhile_eq_nil_iff.mpr hback
  have hfits : 2 * (text ++ back).length ≤ 2 * (front ++ (text ++ back)).length + 1 + 1 := by
    simp only [List.length_append]
    omega
  rw [Scanned.ofText, scanValue_blanks hfront, scanValue_spells h hend hfits]
  simp [hskip]

end Texts

end Outline

end CoilHub
