import CoilHub.Json.Number
import CoilHub.Json.Scan

namespace CoilHub

-- Why a text is refused: it ended too early, it is no JSON, or it says something else than was asked for.
-- Of several problems the first one in reading order counts.
inductive Refusal
  | ended
  | malformed
  | mismatch
deriving DecidableEq

abbrev Decoded := Except Refusal

def Fault.whenRead : Fault → Refusal
  | .ended => .ended
  | .malformed => .malformed
  | .cutNumber => .ended

def Fault.whenSkipped : Fault → Refusal
  | .ended => .ended
  | .malformed => .malformed
  | .cutNumber => .malformed

-- Whether an array or object has its closing bracket.
def closed : Option Fault → Decoded Unit
  | none => .ok ()
  | some fault => .error fault.whenRead

def isLeading (n : Nat) : Bool := 0xd800 ≤ n && n < 0xdc00

def isTrailing (n : Nat) : Bool := 0xdc00 ≤ n && n < 0xe000

-- A leading unit stands for a character only together with a trailing one right behind it.
def joinPieces (fault : Option Fault) : List Piece → Decoded (List Char)
  | [] => (closed fault).map fun _ => []
  | .char c :: rest => (joinPieces fault rest).map (c :: ·)
  | .unit n :: rest =>
    if isLeading n then
      match rest with
      | .unit m :: rest =>
        if isTrailing m then
          (joinPieces fault rest).map
            (Char.ofNat (0x10000 + (n - 0xd800) * 0x400 + (m - 0xdc00)) :: ·)
        else .error .malformed
      | .char _ :: _ => .error .malformed
      | [] => (closed fault).bind fun _ => .error .malformed
    else if isTrailing n then .error .malformed
    else (joinPieces fault rest).map (Char.ofNat n :: ·)

def Quoted.read (q : Quoted) : Decoded String :=
  (joinPieces q.fault q.pieces).map String.ofList

namespace Outline

-- What is wrong with a value of the wrong kind. A text or number is read to its end first, an
-- array or object is refused at its bracket.
def refusal : Outline → Refusal
  | .missing => .ended
  | .broken fault => fault.whenRead
  | .number n => if n.jsonNumber?.isSome then .mismatch else .malformed
  | .string q =>
    match q.read with
    | .ok _ => .mismatch
    | .error e => e
  | _ => .mismatch

mutual

def skip : Outline → Decoded Unit
  | .missing => .error .ended
  | .broken fault => .error fault.whenSkipped
  | .null | .bool _ | .number _ => .ok ()
  | .string q => skipQuoted q
  | .array items => skipItems items
  | .object members => skipMembers members

def skipItems : Items → Decoded Unit
  | .ends none => .ok ()
  | .ends (some fault) => .error fault.whenSkipped
  | .item value rest => do
    skip value
    skipItems rest

def skipMembers : Members → Decoded Unit
  | .ends none => .ok ()
  | .ends (some fault) => .error fault.whenSkipped
  | .unnamed .missing => .error .ended
  | .unnamed _ => .error .malformed
  | .member name value rest => do
    skipQuoted name
    skip value
    skipMembers rest

def skipQuoted (q : Quoted) : Decoded Unit :=
  match q.fault with
  | none => .ok ()
  | some fault => .error fault.whenSkipped

end

mutual

-- A value that is read in full before anything is made of it. Arrays and objects may be nested
-- only so deep.
def readFully : Nat → Outline → Decoded Unit
  | _, .missing => .error .ended
  | _, .broken fault => .error fault.whenRead
  | _, .null | _, .bool _ => .ok ()
  | _, .number n => if n.jsonNumber?.isSome then .ok () else .error .malformed
  | _, .string q => q.read.map fun _ => ()
  | depth, .array items => if depth = 0 then .error .malformed else readItems (depth - 1) items
  | depth, .object members =>
    if depth = 0 then .error .malformed else readMembers (depth - 1) members

def readItems : Nat → Items → Decoded Unit
  | _, .ends fault => closed fault
  | depth, .item value rest => do
    readFully depth value
    readItems depth rest

def readMembers : Nat → Members → Decoded Unit
  | _, .ends fault => closed fault
  | _, .unnamed .missing => .error .ended
  | _, .unnamed _ => .error .malformed
  | depth, .member name value rest => do
    let _ ← name.read
    readFully depth value
    readMembers depth rest

end

def asString : Outline → Decoded String
  | .string q => q.read
  | o => .error o.refusal

def asBool : Outline → Decoded Bool
  | .bool b => .ok b
  | o => .error o.refusal

-- A natural number up to a bound.
def asNatural (highest : Nat) : Outline → Decoded Nat
  | .number n =>
    match n.jsonNumber? with
    | none => .error .malformed
    | some (.natural k) => if k ≤ highest then .ok k else .error .mismatch
    | some _ => .error .mismatch
  | o => .error o.refusal

def asOption (f : Outline → Decoded α) : Outline → Decoded (Option α)
  | .null => .ok none
  | o => (f o).map some

-- A constant without content.
def asNull : Outline → Decoded Unit
  | .null => .ok ()
  | o => .error o.refusal

end Outline

-- The items of an array, each decoded alike.
def Items.decodeEach (f : Outline → Decoded α) : Items → Decoded (List α)
  | .ends fault => (closed fault).map fun _ => []
  | .item value rest => do
    let a ← f value
    return a :: (← rest.decodeEach f)

-- What may stand where an array should be over: its end, and nothing else.
def Items.atEnd : Items → Decoded Unit
  | .ends fault => closed fault
  | .item .missing _ => .error .ended
  | .item _ _ => .error .malformed

def Outline.asList (f : Outline → Decoded α) : Outline → Decoded (List α)
  | .array items => items.decodeEach f
  | o => .error o.refusal

-- An array of exactly two items.
def Outline.asPair (f : Outline → Decoded α) (g : Outline → Decoded β) : Outline → Decoded (α × β)
  | .array (.item first (.item second rest)) => do
    let a ← f first
    let b ← g second
    rest.atEnd
    return (a, b)
  | .array (.item first (.ends fault)) => do
    let _ ← f first
    closed fault
    throw .mismatch
  | .array (.ends fault) => do
    closed fault
    throw .mismatch
  | o => .error o.refusal

-- One field of a record: its name, and how its value is put into the record.
structure Field (α : Type) where
  name : String
  put : Outline → α → Decoded α

-- How a record is decoded, from an object with its fields by name or from an array with its
-- fields in order.
structure RecordFormat (α : Type) where
  blank : α
  fields : List (Field α)
  -- the fields that an object must have
  required : List String
  -- whether an array may end before the last field
  shortArrays : Bool

namespace RecordFormat

-- Members of an object, in the order in which they stand. A second member of the same field is
-- refused at its name, and a member of no field is skipped.
def putMembers (format : RecordFormat α) (seen : List String) (a : α) : Members → Decoded α
  | .ends (some fault) => .error fault.whenRead
  | .ends none => if format.required.all seen.contains then .ok a else .error .mismatch
  | .unnamed .missing => .error .ended
  | .unnamed _ => .error .malformed
  | .member name value rest => do
    let name ← name.read
    match format.fields.find? (·.name = name) with
    | none =>
      value.skip
      format.putMembers seen a rest
    | some field =>
      if seen.contains name then throw .mismatch
      format.putMembers (name :: seen) (← field.put value a) rest

def putItems (format : RecordFormat α) : List (Field α) → α → Items → Decoded α
  | [], a, items => items.atEnd.map fun _ => a
  | _ :: _, a, .ends fault => do
    closed fault
    if format.shortArrays then return a else throw .mismatch
  | field :: fields, a, .item value rest => do
    format.putItems fields (← field.put value a) rest

def decode (format : RecordFormat α) : Outline → Decoded α
  | .object members => format.putMembers [] format.blank members
  | .array items => format.putItems format.fields format.blank items
  | o => .error o.refusal

end RecordFormat

-- Decodes a whole text. What follows the value is looked at last.
def decodeText (f : Outline → Decoded α) (text : String) : Decoded α := do
  let scanned := Scanned.ofText text.toList
  let a ← f scanned.root
  if scanned.trailing then throw .malformed
  return a

end CoilHub
