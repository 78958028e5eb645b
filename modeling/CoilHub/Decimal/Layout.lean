import CoilHub.Decimal.Shortest

namespace CoilHub

-- The digits of a decimal without trailing zeros, and the power of ten of the leading one.
structure Digits where
  digits : List Char
  lead : Int

namespace Digits

def ofDecimal (d : Decimal) : Digits :=
  let all := decimalDigits d.significand
  { digits := (all.reverse.dropWhile (· = '0')).reverse
    lead := d.exponent + all.length - 1 }

-- The digits in front of the point, filled up with zeros if the point lies beyond them.
def whole (d : Digits) : List Char :=
  if d.lead < 0 then ['0']
  else
    let count := d.lead.toNat + 1
    d.digits.take count ++ List.replicate (count - d.digits.length) '0'

def fraction (d : Digits) : List Char :=
  if d.lead < 0 then List.replicate (-d.lead - 1).toNat '0' ++ d.digits
  else d.digits.drop (d.lead.toNat + 1)

def scientific (d : Digits) : List Char :=
  let sign := if d.lead < 0 then '-' else '+'
  let tail := d.digits.drop 1
  d.digits.take 1 ++ (if tail = [] then [] else '.' :: tail) ++
    ['e', sign] ++ decimalDigits d.lead.natAbs

end Digits

namespace Binary64

def signText (x : Binary64) : List Char := if x.negative then ['-'] else []

-- The plain notation, which never has an exponent and writes whole numbers without a point.
def plainText (x : Binary64) : List Char :=
  if x.isNaN then "NaN".toList
  else if x.isInfinite then x.signText ++ "inf".toList
  else if x.rank = 0 then x.signText ++ ['0']
  else
    let d := Digits.ofDecimal (Decimal.shortest .away x.rank)
    x.signText ++ d.whole ++ (if d.fraction = [] then [] else '.' :: d.fraction)

-- The notation of documents, which have no text for a double that is not finite. It keeps a point in every
-- number and goes over to an exponent for very large and very small ones.
def documentText? (x : Binary64) : Option (List Char) :=
  if !x.isFinite then none
  else if x.rank = 0 then some (x.signText ++ "0.0".toList)
  else
    let d := Digits.ofDecimal (Decimal.shortest .even x.rank)
    some <| x.signText ++
      if -5 ≤ d.lead ∧ d.lead ≤ 15 then
        d.whole ++ '.' :: (if d.fraction = [] then ['0'] else d.fraction)
      else d.scientific

end Binary64

end CoilHub
