import CoilHub.Decimal.Layout

namespace CoilHub

inductive Document
  | null
  | bool (b : Bool)
  | integer (n : Int)
  | float (x : Binary64)
  | string (s : String)
  | array (items : List Document)
  | object (members : List (String × Document))

namespace Document

-- Only quotes, backslashes and control characters are escaped, five of the latter by a letter.
def escape (c : Char) : List Char :=
  if c = '"' then ['\\', '"']
  else if c = '\\' then ['\\', '\\']
  else if c = '\n' then ['\\', 'n']
  else if c = '\r' then ['\\', 'r']
  else if c = '\t' then ['\\', 't']
  else if c.toNat = 8 then ['\\', 'b']
  else if c.toNat = 12 then ['\\', 'f']
  else if c.toNat < 32 then
    ['\\', 'u', '0', '0', Nat.digitChar (c.toNat / 16), Nat.digitChar (c.toNat % 16)]
  else [c]

def quote (s : String) : List Char := '"' :: s.toList.flatMap escape ++ ['"']

-- A double that is not finite has no text of its own.
def floatText (x : Binary64) : List Char := x.documentText?.getD "null".toList

def ofOption (f : α → Document) : Option α → Document
  | none => null
  | some a => f a

mutual

def print : Document → List Char
  | .null => "null".toList
  | .bool true => "true".toList
  | .bool false => "false".toList
  | .integer n => decimalText n
  | .float x => floatText x
  | .string s => quote s
  | .array [] => "[]".toList
  | .array (item :: items) => '[' :: print item ++ printItems items
  | .object [] => "\x7b\x7d".toList
  | .object ((name, value) :: members) =>
    '{' :: quote name ++ ':' :: print value ++ printMembers members

def printItems : List Document → List Char
  | [] => [']']
  | item :: items => ',' :: print item ++ printItems items

def printMembers : List (String × Document) → List Char
  | [] => ['}']
  | (name, value) :: members => ',' :: quote name ++ ':' :: print value ++ printMembers members

end

-- The compact form.
def compact (d : Document) : String := String.ofList d.print

-- A new line, indented by two blanks for each level.
def newLine (level : Nat) : List Char := '\n' :: List.replicate (2 * level) ' '

mutual

def printWide (level : Nat) : Document → List Char
  | .array (item :: items) =>
    '[' :: newLine (level + 1) ++ printWide (level + 1) item ++ printWideItems level items
  | .object ((name, value) :: members) =>
    '{' :: newLine (level + 1) ++ quote name ++ ':' :: ' ' :: printWide (level + 1) value ++
      printWideMembers level members
  | .null => "null".toList
  | .bool true => "true".toList
  | .bool false => "false".toList
  | .integer n => decimalText n
  | .float x => floatText x
  | .string s => quote s
  | .array [] => "[]".toList
  | .object [] => "\x7b\x7d".toList

def printWideItems (level : Nat) : List Document → List Char
  | [] => newLine level ++ [']']
  | item :: items =>
    ',' :: newLine (level + 1) ++ printWide (level + 1) item ++ printWideItems level items

def printWideMembers (level : Nat) : List (String × Document) → List Char
  | [] => newLine level ++ ['}']
  | (name, value) :: members =>
    ',' :: newLine (level + 1) ++ quote name ++ ':' :: ' ' :: printWide (level + 1) value ++
      printWideMembers level members

end

-- The form for readers, with two blanks of indentation for each level.
def wide (d : Document) : String := String.ofList (d.printWide 0)

end Document

end CoilHub
