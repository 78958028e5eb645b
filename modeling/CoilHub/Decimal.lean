namespace CoilHub

def digitsValue (digits : List Char) : Nat :=
  digits.foldl (fun n c => 10 * n + (c.toNat - 48)) 0

def decimalDigits (n : Nat) : List Char := Nat.toDigits 10 n

def decimalText (n : Int) : List Char :=
  if n < 0 then '-' :: decimalDigits n.natAbs else decimalDigits n.natAbs

def spanDigits (text : List Char) : List Char × List Char := text.span Char.isDigit

-- A number written in decimal: a sign, digits, perhaps a point with digits, perhaps an exponent with
-- a sign of its own.
structure Numeral where
  negative : Bool := false
  whole : List Char
  fraction : Option (List Char) := none
  exponent : Option (Bool × List Char) := none
deriving DecidableEq

namespace Numeral

-- All digits before the exponent, with the point left out.
def significandDigits (n : Numeral) : List Char := n.whole ++ n.fraction.getD []

def significand (n : Numeral) : Nat := digitsValue n.significandDigits

def statedExponent (n : Numeral) : Int :=
  match n.exponent with
  | none => 0
  | some (true, digits) => -(digitsValue digits : Int)
  | some (false, digits) => digitsValue digits

-- The power of ten by which the significand is scaled: each digit behind the point takes one off.
def scale (n : Numeral) : Int := n.statedExponent - (n.fraction.getD []).length

end Numeral

end CoilHub
