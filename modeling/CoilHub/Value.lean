import CoilHub.Decimal.Layout
import CoilHub.Decimal.Reading
import CoilHub.Text.Blank

namespace CoilHub

inductive CoilValue
  | integer (n : Int64)
  | float (x : Binary64)
  | text (s : String)
deriving DecidableEq

namespace CoilValue

def lowestInteger : Int := Int64.minValue.toInt

def highestInteger : Int := Int64.maxValue.toInt

-- A typed value. An integer wins over a double, and what is no number is kept as trimmed text.
def parse (raw : String) : CoilValue :=
  let text := trim raw.toList
  match readInt? lowestInteger highestInteger text with
  | some n => .integer (Int64.ofInt n)
  | none =>
    match Binary64.read? text with
    | some x => .float x
    | none => .text (String.ofList text)

-- A text counts as the number that it holds between blanks, if it holds one.
def number? : CoilValue → Option Binary64
  | .integer n => some (.ofInt n.toInt)
  | .float x => some x
  | .text s => Binary64.read? (trim s.toList)

def display : CoilValue → String
  | .integer n => String.ofList (decimalText n.toInt)
  | .float x => String.ofList x.plainText
  | .text s => s

end CoilValue

end CoilHub
