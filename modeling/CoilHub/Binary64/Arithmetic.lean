import CoilHub.Binary64.Rounding

namespace CoilHub.Binary64

-- A sum that cancels out is a positive zero, but two negative zeros add up to a negative one.
def add (x y : Binary64) : Binary64 :=
  if x.isNaN || y.isNaN then nan
  else if x.isInfinite then (if y.isInfinite && x.negative != y.negative then nan else x)
  else if y.isInfinite then y
  else
    let sum := x.units + y.units
    if sum = 0 then zero (x.negative && y.negative)
    else ofUnits (sum < 0) sum.natAbs 1

def mul (x y : Binary64) : Binary64 :=
  let negative := x.negative != y.negative
  if x.isNaN || y.isNaN then nan
  else if x.isInfinite || y.isInfinite then
    (if x.rank = 0 || y.rank = 0 then nan else infinity negative)
  else ofUnits negative (magnitude x.rank * magnitude y.rank) unitsPerOne

def div (x y : Binary64) : Binary64 :=
  let negative := x.negative != y.negative
  if x.isNaN || y.isNaN then nan
  else if x.isInfinite then (if y.isInfinite then nan else infinity negative)
  else if y.isInfinite then zero negative
  else if y.rank = 0 then (if x.rank = 0 then nan else infinity negative)
  else ofUnits negative (magnitude x.rank * unitsPerOne) (magnitude y.rank)

-- The nearest whole number, the one away from zero of two that are equally near.
def roundAway (x : Binary64) : Binary64 :=
  if x.isFinite then
    let whole := (2 * magnitude x.rank + unitsPerOne) / (2 * unitsPerOne)
    ofUnits x.negative (whole * unitsPerOne) 1
  else x

end CoilHub.Binary64
