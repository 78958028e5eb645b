import CoilHub.Binary64.Rounding
import CoilHub.Decimal

namespace CoilHub

-- Which of two decimals is taken when the double lies in the middle between them.
inductive TieRule
  | away
  | even
deriving DecidableEq

-- A decimal in normal form: `significand * 10 ^ exponent`.
structure Decimal where
  significand : Nat
  exponent : Int
deriving DecidableEq

namespace Decimal

-- The exact value of a finite rank: its parts, of which `10 ^ 1074` make one. A double is a whole number of
-- units of `5 ^ 1074` parts, so its decimal expansion is finite, and the decimals with `n` digits on either
-- side of it can be read off it.
def parts (rank : Nat) : Nat := Binary64.magnitude rank * Nat.pow 5 1074

-- The multiples of `step` on either side of a number of parts, as factors, the nearer one first.
def neighbours (tie : TieRule) (parts step : Nat) : List Nat :=
  let below := parts / step
  let rest := parts % step
  if rest = 0 then [below]
  else
    let upFirst : Bool :=
      if 2 * rest = step then
        match tie with
        | .away => true
        | .even => below % 2 == 1
      else step < 2 * rest
    if upFirst then [below + 1, below] else [below, below + 1]

def readsBack (rank : Nat) (d : Decimal) : Bool :=
  (Binary64.ofDecimal false d.significand d.exponent).rank = rank

-- The decimals with at most `count` digits next to a rank that read back as it. `length` is the
-- number of digits of the exact expansion.
def candidate? (tie : TieRule) (rank length count : Nat) : Option Decimal :=
  let dropped := length - count
  ((neighbours tie (parts rank) (Nat.pow 10 dropped)).map fun n =>
    { significand := n, exponent := (dropped : Int) - 1074 : Decimal }).find? (readsBack rank)

-- The shortest decimal that reads back as a rank, the nearest of those of that length.
def shortest (tie : TieRule) (rank : Nat) : Decimal :=
  let length := (decimalDigits (parts rank)).length
  ((List.range' 1 17).findSome? (candidate? tie rank length)).getD ⟨parts rank, -1074⟩

end Decimal

end CoilHub
