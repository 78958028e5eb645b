import CoilHub.Decimal

namespace CoilHub

-- How a text stops being JSON. A number that breaks off at the end of the text is told apart,
-- because it is called a sudden end where its value matters and a malformed number where not.
inductive Fault
  | ended
  | malformed
  | cutNumber
deriving DecidableEq

-- A part of a quoted text: a character, or one of the 16 bit units that escapes can name.
inductive Piece
  | char (c : Char)
  | unit (n : Nat)
deriving DecidableEq

-- A quoted text, up to its closing quote or to a fault.
structure Quoted where
  pieces : List Piece
  fault : Option Fault := none
deriving DecidableEq

mutual

-- What a text says, as far as it can be read. One that breaks off or goes wrong has an outline too, with the
-- fault at the place where it shows, so that whoever decodes the outline meets the first problem of the text
-- in reading order.
inductive Outline
  -- the text ended where a value should begin
  | missing
  | broken (fault : Fault)
  | null
  | bool (b : Bool)
  | number (n : Numeral)
  | string (q : Quoted)
  | array (items : Items)
  | object (members : Members)

inductive Items
  | ends (fault : Option Fault)
  | item (value : Outline) (rest : Items)

inductive Members
  | ends (fault : Option Fault)
  | member (name : Quoted) (value : Outline) (rest : Members)
  -- something that is no quoted text stands where a name should
  | unnamed (found : Outline)

end

end CoilHub
