import CoilHub.Binary64

namespace CoilHub

-- The natural number nearest to a quotient, the even one of two that are equally near. Everything that
-- yields a double is rounded here, and only once.
def roundDiv (num den : Nat) : Nat :=
  let quotient := num / den
  let rest := num % den
  if 2 * rest < den then quotient
  else if den < 2 * rest then quotient + 1
  else quotient + quotient % 2

namespace Binary64

-- The significand keeps 53 bits. What lies beyond them is rounded away, and a carry out of the
-- significand runs into the next range of ranks, which is where it belongs.
def rankOf (num den : Nat) : Nat :=
  let excess := (num / den).log2 - 52
  excess <<< 52 + roundDiv num (den <<< excess)

-- The double nearest to `num / den` units.
def ofUnits (negative : Bool) (num den : Nat) : Binary64 :=
  ofRank negative (rankOf num den)

-- The double nearest to an integer.
def ofInt (n : Int) : Binary64 :=
  ofUnits (n < 0) (n.natAbs * unitsPerOne) 1

-- The double nearest to `significand * 10 ^ exponent`. A numeral with a huge exponent is decided by
-- its size alone: with `b` the position of the leading bit of `significand`, the value is at least
-- `2 ^ (b + 3 * exponent)` for a positive exponent, and less than `2 ^ (b + 1 + 3 * exponent)` for a
-- negative one.
def ofDecimal (negative : Bool) (significand : Nat) (exponent : Int) : Binary64 :=
  if significand = 0 then zero negative
  else
    let bits : Int := significand.log2
    if 0 ≤ exponent then
      if 1024 ≤ bits + 3 * exponent then infinity negative
      else ofUnits negative (significand * Nat.pow 10 exponent.toNat * unitsPerOne) 1
    else
      if bits + 1 + 3 * exponent ≤ -1076 then zero negative
      else ofUnits negative (significand * unitsPerOne) (Nat.pow 10 (-exponent).toNat)

end Binary64

end CoilHub
