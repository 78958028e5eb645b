import CoilHub.Json.Outline

namespace CoilHub

-- What follows on something that has been scanned: the rest of the text, or the fault that there is nothing
-- to go on with. A fault inside a value is also the end of every array and object that the value lies in.
abbrev Following := Except Fault (List Char)

namespace Outline

def isSpace (c : Char) : Bool := c = ' ' || c = '\n' || c = '\t' || c = '\r'

def skipSpace (text : List Char) : List Char := text.dropWhile isSpace

-- A word such as `null`. The text may end within it.
def scanWord (word : List Char) (meaning : Outline) (text : List Char) : Outline × Following :=
  match word, text with
  | [], rest => (meaning, .ok rest)
  | _ :: _, [] => (.broken .ended, .error .ended)
  | w :: word, c :: rest =>
    if w = c then scanWord word meaning rest else (.broken .malformed, .error .malformed)

def hexValue? (c : Char) : Option Nat :=
  if c.isDigit then some (c.toNat - 48)
  else if 'a' ≤ c ∧ c ≤ 'f' then some (c.toNat - 87)
  else if 'A' ≤ c ∧ c ≤ 'F' then some (c.toNat - 55)
  else none

def hexUnit? (a b c d : Char) : Option Nat := do
  return (((← hexValue? a) * 16 + (← hexValue? b)) * 16 + (← hexValue? c)) * 16 + (← hexValue? d)

-- The length of a text in bytes decides whether it is long enough for four hexadecimal digits.
def byteLength (text : List Char) : Nat := text.foldl (fun count c => count + c.utf8Size) 0

def escaped? (c : Char) : Option Char :=
  if c = '"' ∨ c = '\\' ∨ c = '/' then some c
  else if c = 'b' then some '\x08'
  else if c = 'f' then some '\x0c'
  else if c = 'n' then some '\n'
  else if c = 'r' then some '\r'
  else if c = 't' then some '\t'
  else none

def Quoted.cons (piece : Piece) (found : Quoted × List Char) : Quoted × List Char :=
  ({ found.1 with pieces := piece :: found.1.pieces }, found.2)

def Quoted.stop (fault : Fault) : Quoted × List Char := ({ pieces := [], fault := some fault }, [])

-- A quoted text behind its opening quote.
def scanQuoted : List Char → Quoted × List Char
  | [] => Quoted.stop .ended
  | '"' :: rest => ({ pieces := [] }, rest)
  | ['\\'] => Quoted.stop .ended
  | '\\' :: 'u' :: a :: b :: c :: d :: rest =>
    match hexUnit? a b c d with
    | some n => Quoted.cons (.unit n) (scanQuoted rest)
    | none => Quoted.stop .malformed
  | '\\' :: 'u' :: rest => Quoted.stop (if byteLength rest < 4 then .ended else .malformed)
  | '\\' :: c :: rest =>
    match escaped? c with
    | some c => Quoted.cons (.char c) (scanQuoted rest)
    | none => Quoted.stop .malformed
  | c :: rest =>
    if c.toNat < 32 then Quoted.stop .malformed else Quoted.cons (.char c) (scanQuoted rest)

-- At least one digit, where one is due.
def scanDigits (text : List Char) : Except Fault (List Char × List Char) :=
  match spanDigits text with
  | ([], []) => .error .cutNumber
  | ([], _ :: _) => .error .malformed
  | found => .ok found

def scanExponent (text : List Char) : Except Fault (Option (Bool × List Char) × List Char) :=
  match text with
  | [] => .ok (none, [])
  | c :: rest =>
    if c = 'e' ∨ c = 'E' then
      let (negative, rest) : Bool × List Char := match rest with
        | '-' :: rest => (true, rest)
        | '+' :: rest => (false, rest)
        | rest => (false, rest)
      (scanDigits rest).map fun (digits, rest) => (some (negative, digits), rest)
    else .ok (none, text)

-- A number without its sign. A zero in front of other digits is an error.
def scanUnsigned (text : List Char) : Except Fault (Numeral × List Char) := do
  let (whole, rest) ← scanDigits text
  if whole.head? = some '0' ∧ whole.length ≠ 1 then throw .malformed
  match rest with
  | '.' :: rest =>
    let (fraction, rest) ← scanDigits rest
    let (exponent, rest) ← scanExponent rest
    return ({ whole, fraction := some fraction, exponent }, rest)
  | rest =>
    let (exponent, rest) ← scanExponent rest
    return ({ whole, exponent }, rest)

def scanNumber (text : List Char) : Outline × Following :=
  let scanned := match text with
    | '-' :: rest =>
      (scanUnsigned rest).map fun (found : Numeral × List Char) =>
        ({ found.1 with negative := true }, found.2)
    | text => scanUnsigned text
  match scanned with
  | .ok (n, rest) => (.number n, .ok rest)
  | .error fault => (.broken fault, .error fault)

mutual

-- A value with the blanks in front of it.
def scanValue : Nat → List Char → Outline × Following
  | 0, _ => (.broken .malformed, .error .malformed)
  | fuel + 1, text =>
    match skipSpace text with
    | [] => (.missing, .error .ended)
    | '"' :: rest =>
      let (q, rest) := scanQuoted rest
      (.string q, match q.fault with
        | none => .ok rest
        | some fault => .error fault)
    | '[' :: rest =>
      let (items, following) := scanItems fuel true rest
      (.array items, following)
    | '{' :: rest =>
      let (members, following) := scanMembers fuel true rest
      (.object members, following)
    | 'n' :: rest => scanWord "ull".toList .null rest
    | 't' :: rest => scanWord "rue".toList (.bool true) rest
    | 'f' :: rest => scanWord "alse".toList (.bool false) rest
    | c :: rest =>
      if c = '-' ∨ c.isDigit then scanNumber (c :: rest)
      else (.broken .malformed, .error .malformed)

-- What follows the opening bracket or an item of an array.
def scanItems : Nat → Bool → List Char → Items × Following
  | 0, _, _ => (.ends (some .malformed), .error .malformed)
  | fuel + 1, first, text =>
    match skipSpace text with
    | [] => (.ends (some .ended), .error .ended)
    | ']' :: rest => (.ends none, .ok rest)
    | c :: rest =>
      if first ∨ c = ',' then
        let (value, following) := scanValue fuel (if first then c :: rest else rest)
        match following with
        | .error fault => (.item value (.ends (some fault)), .error fault)
        | .ok rest =>
          let (items, following) := scanItems fuel false rest
          (.item value items, following)
      else (.ends (some .malformed), .error .malformed)

-- What follows the opening brace or a member of an object.
def scanMembers : Nat → Bool → List Char → Members × Following
  | 0, _, _ => (.ends (some .malformed), .error .malformed)
  | fuel + 1, first, text =>
    match skipSpace text with
    | [] => (.ends (some .ended), .error .ended)
    | '}' :: rest => (.ends none, .ok rest)
    | c :: rest =>
      if first ∨ c = ',' then
        match skipSpace (if first then c :: rest else rest) with
        | '"' :: rest =>
          let (name, rest) := scanQuoted rest
          let (value, following) : Outline × Following := match name.fault, skipSpace rest with
            | some fault, _ => (.broken fault, .error fault)
            | none, ':' :: rest => scanValue fuel rest
            | none, [] => (.missing, .error .ended)
            | none, _ :: _ => (.broken .malformed, .error .malformed)
          match following with
          | .error fault => (.member name value (.ends (some fault)), .error fault)
          | .ok rest =>
            let (members, following) := scanMembers fuel false rest
            (.member name value members, following)
        | [] => (.unnamed .missing, .error .ended)
        | found => (.unnamed (scanValue fuel found).1, .error .malformed)
      else (.ends (some .malformed), .error .malformed)

end

end Outline

-- A whole text: the outline of the value in it, and whether something other than blanks follows.
structure Scanned where
  root : Outline
  trailing : Bool

-- The outline of a text. Each step of the scan reads a character or is followed by one that does,
-- so twice the length of the text is enough.
def Scanned.ofText (text : List Char) : Scanned :=
  let (root, following) := Outline.scanValue (2 * text.length + 2) text
  { root
    trailing := match following with
      | .ok rest => Outline.skipSpace rest ≠ []
      | .error _ => false }

end CoilHub
