import CoilHub.Binary64.Arithmetic
import CoilHub.Decimal

namespace CoilHub

-- What a number in a document stands for. Integers that fit are exact. For all other numbers the leading
-- digits, as many as fit 64 bits, are turned into a double, which is then multiplied or divided by a power
-- of ten. Each of these steps rounds, so the result may differ from the nearest double by a little.
inductive JsonNumber
  | natural (n : Nat)
  | negative (n : Int)
  | float (x : Binary64)

-- The leading digits under way: their value, and the power of ten that they lack.
structure Significand where
  value : Nat
  exponent : Int

namespace Significand

def highest : Nat := UInt64.size - 1

def fits (value : Nat) (digit : Char) : Bool :=
  10 * value + (digit.toNat - 48) ≤ highest

-- Digits before the point. From the first one on that does not fit, they only count.
def addWhole (s : Significand) : List Char → Significand
  | [] => s
  | d :: digits =>
    if fits s.value d then addWhole { s with value := 10 * s.value + (d.toNat - 48) } digits
    else { s with exponent := s.exponent + (digits.length + 1) }

-- Digits behind the point. From the first one on that does not fit, they are dropped.
def addFraction (s : Significand) : List Char → Significand
  | [] => s
  | d :: digits =>
    if fits s.value d then
      addFraction { value := 10 * s.value + (d.toNat - 48), exponent := s.exponent - 1 } digits
    else s

end Significand

namespace JsonNumber

-- The largest power of ten that a double holds.
def step : Nat := 308

def powerOfTen (n : Nat) : Binary64 := .ofDecimal false 1 n

def divideSteps : Nat → Binary64 → Binary64
  | 0, x => x
  | n + 1, x => if x.rank = 0 then x else divideSteps n (x.div (powerOfTen step))

-- A significand scaled by a power of ten, unless the result is beyond the finite doubles.
def scale? (significand : Nat) (exponent : Int) : Option Binary64 :=
  let x := Binary64.ofInt significand
  if 0 ≤ exponent then
    if exponent ≤ step then
      let y := x.mul (powerOfTen exponent.toNat)
      if y.isInfinite then none else some y
    else if x.rank = 0 then some x else none
  else
    let steps := (exponent.natAbs - 1) / step
    some ((divideSteps steps x).div (powerOfTen (exponent.natAbs - steps * step)))

end JsonNumber

-- A numeral is an integer if it has neither point nor exponent, and fits 64 bits. Negative zero is
-- no integer.
def Numeral.jsonNumber? (n : Numeral) : Option JsonNumber :=
  let whole := Significand.addWhole ⟨0, 0⟩ n.whole
  let signed (x : Binary64) : Binary64 := if n.negative then x.neg else x
  if n.fraction = none ∧ n.exponent = none ∧ whole.exponent = 0 then
    if !n.negative then some (.natural whole.value)
    else if 0 < whole.value ∧ whole.value ≤ 1 <<< 63 then some (.negative (-(whole.value : Int)))
    else some (.float (signed (.ofInt whole.value)))
  else
    let all := whole.addFraction (n.fraction.getD [])
    (JsonNumber.scale? all.value (all.exponent + n.statedExponent)).map fun x =>
      .float (signed x)

end CoilHub
