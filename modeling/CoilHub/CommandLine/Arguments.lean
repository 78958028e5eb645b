import CoilHub.Decimal.Reading
import CoilHub.Environment

namespace CoilHub

-- Why a program does not begin its work: it was called wrongly, or it was asked for help.
inductive CallFault
  | usage
  | help
deriving DecidableEq

-- An option, by its name without the hyphens.
structure Switch where
  name : String
  -- which values it takes, if it takes one
  accepts : Option (String → Bool)

-- The options found, with their values. Those without a value have an empty one.
abbrev Settings := List (String × String)

namespace Arguments

-- A hyphen in front makes an option, but a lone hyphen is an operand.
def isOption (arg : String) : Bool := arg.startsWith "-" && arg ≠ "-"

def isHelp (arg : String) : Bool := arg = "--help" || arg = "-h"

-- The name of an option and the value that is attached to it by an equals sign.
def splitOption (arg : String) : String × Option String :=
  match arg.toList.span (· ≠ '=') with
  | (name, _ :: value) => (String.ofList (name.drop 2), some (String.ofList value))
  | (name, []) => (String.ofList (name.drop 2), none)

-- Sorts out the options in front of the first operand. Each one may be given once. The value of
-- an option is attached to it or is the next argument. The first argument that is out of place ends
-- it all.
def options (switches : List Switch) (found : Settings) :
    List String → Except CallFault (Settings × List String)
  | [] => .ok (found, [])
  | arg :: rest =>
    if arg = "--" || !isOption arg then .ok (found, arg :: rest)
    else if isHelp arg then .error .help
    else if !arg.startsWith "--" then .error .usage
    else
      let (name, attached) := splitOption arg
      match switches.find? (·.name = name) with
      | none => .error .usage
      | some switch =>
        if found.any (·.1 = name) then .error .usage
        else
          match switch.accepts, attached, rest with
          | none, none, rest => options switches ((name, "") :: found) rest
          | none, some _, _ => .error .usage
          | some accepts, some value, rest =>
            if accepts value then options switches ((name, value) :: found) rest
            else .error .usage
          | some accepts, none, value :: rest =>
            if !isOption value && accepts value then
              options switches ((name, value) :: found) rest
            else .error .usage
          | some _, none, [] => .error .usage

-- Operands, up to a number of them if there is a limit. Two hyphens alone make operands of everything
-- behind them.
def operands (limit : Option Nat) (found : List String) :
    List String → Except CallFault (List String)
  | [] => .ok found
  | arg :: rest =>
    if arg = "--" then
      let all := found ++ rest
      if limit.any (· < all.length) then .error .usage else .ok all
    else if isHelp arg then .error .help
    else if isOption arg || limit.any (· ≤ found.length) then .error .usage
    else operands limit (found ++ [arg]) rest

-- The value of an option: the one that was given, or else the one in the environment, which
-- must be an acceptable text too.
def valueOf (given : Option String) (preset : Option Content) (accepts : String → Bool) :
    Except CallFault (Option String) :=
  match given, preset with
  | some value, _ => .ok (some value)
  | none, some (.text value) => if accepts value then .ok (some value) else .error .usage
  | none, some (.bytes _ _) => .error .usage
  | none, none => .ok none

end Arguments

-- What a program leaves behind: its exit code, its output and its log.
structure Exit where
  code : Nat
  output : String := ""
  log : List String := []
deriving DecidableEq

namespace Exit

def entry (level message : String) : String := level ++ " " ++ message

def error (message : String) : String := entry "ERROR" message

def info (message : String) : String := entry "INFO" message

-- Environment files with an unusable definition end a program before it has begun.
def crash : Exit := { code := 101 }

def ofFault : CallFault → Exit
  | .usage => { code := 2 }
  | .help => { code := 0 }

end Exit

end CoilHub
