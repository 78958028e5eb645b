import CoilHub.Binary64.Rounding
import CoilHub.Decimal

namespace CoilHub

-- A text that is digits only, and at least one of them.
def readDigits? (text : List Char) : Option Nat :=
  if text ≠ [] ∧ text.all Char.isDigit then some (digitsValue text) else none

-- A sign in front. Without one the number is not negative.
def splitSign (text : List Char) : Bool × List Char :=
  match text with
  | '-' :: rest => (true, rest)
  | '+' :: rest => (false, rest)
  | _ => (false, text)

-- An integer with an optional sign, if it lies between the bounds.
def readInt? (lowest highest : Int) (text : List Char) : Option Int :=
  let (negative, digits) := splitSign text
  (readDigits? digits).bind fun n =>
    let value : Int := if negative then -(n : Int) else n
    if lowest ≤ value ∧ value ≤ highest then some value else none

-- A natural number up to a bound. A plus sign may stand in front, a minus sign may not.
def readNat? (highest : Nat) (text : List Char) : Option Nat :=
  let digits := match text with
    | '+' :: rest => rest
    | _ => text
  (readDigits? digits).bind fun n => if n ≤ highest then some n else none

-- The exponent of a numeral, from its letter on to the end of the text.
def readExponent? (text : List Char) : Option (Option (Bool × List Char)) :=
  match text with
  | [] => some none
  | letter :: rest =>
    if letter = 'e' ∨ letter = 'E' then
      let (negative, digits) := splitSign rest
      (readDigits? digits).map fun _ => some (negative, digits)
    else none

-- A whole text as a numeral without a sign. A point may stand anywhere among the digits, also at
-- their end or start, but there must be a digit somewhere before the exponent.
def Numeral.read? (text : List Char) : Option Numeral :=
  let (whole, rest) := spanDigits text
  match rest with
  | '.' :: rest =>
    let (fraction, rest) := spanDigits rest
    if whole = [] ∧ fraction = [] then none
    else (readExponent? rest).map fun exponent =>
      { whole, fraction := some fraction, exponent }
  | rest =>
    if whole = [] then none
    else (readExponent? rest).map fun exponent => { whole, exponent }

def Numeral.toBinary64 (n : Numeral) : Binary64 :=
  Binary64.ofDecimal n.negative n.significand n.scale

-- A double: a numeral or one of the words for infinity and not a number, with an optional sign.
def Binary64.read? (text : List Char) : Option Binary64 :=
  let (negative, body) := splitSign text
  let word := body.map Char.toLower
  if word = "inf".toList ∨ word = "infinity".toList then some (.infinity negative)
  else if word = "nan".toList then some .nan
  else (Numeral.read? body).map fun n => { n with negative }.toBinary64

end CoilHub
