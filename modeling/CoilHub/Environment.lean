import CoilHub.Text.Blank

namespace CoilHub

-- What a variable is set to. That need not be a text.
inductive Content
  | text (value : String)
  | bytes (content : ByteArray) (h : String.fromUTF8? content = none)

namespace Content

instance : Coe String Content := ⟨text⟩

def text? : Content → Option String
  | .text value => some value
  | .bytes _ _ => none

end Content

-- Variables and what they are set to. The first entry of a name counts.
structure Environment where
  vars : List (String × Content)

namespace Environment

def content? (env : Environment) (name : String) : Option Content := env.vars.lookup name

-- The text that a variable is set to. If it is set to something else, that counts as not set.
def get? (env : Environment) (name : String) : Option String :=
  (env.content? name).bind Content.text?

-- The entries with the first one of a name replaced, or with a new one behind them.
def put (name : String) (content : Content) : List (String × Content) → List (String × Content)
  | [] => [(name, content)]
  | entry :: rest =>
    if entry.1 = name then (name, content) :: rest else entry :: put name content rest

def set (env : Environment) (name : String) (content : Content) : Environment :=
  { vars := put name content env.vars }

def sorted (env : Environment) : List (String × Content) :=
  env.vars.mergeSort fun a b => !(b.1 < a.1)

end Environment

-- A line of the form `name = value`, once read.
structure Definition where
  name : String
  value : String
deriving DecidableEq

namespace Definition

-- The text split at every line end, and only there.
def splitLines : List Char → List (List Char)
  | [] => [[]]
  | '\n' :: rest => [] :: splitLines rest
  | c :: rest =>
    match splitLines rest with
    | line :: lines => (c :: line) :: lines
    | [] => [[c]]

-- What lies between two quotes of a kind that enclose the whole text.
def unquoted? (quote : Char) (text : List Char) : Option (List Char) :=
  match text with
  | [] => none
  | first :: rest =>
    if first = quote ∧ rest.getLast? = some quote then some rest.dropLast else none

-- One pair of double quotes is taken off, or else one pair of single quotes.
def unquote (text : List Char) : List Char :=
  ((unquoted? '"' text).or (unquoted? '\'' text)).getD text

-- The definition that a line holds, if it is neither empty nor a comment and has an equals
-- sign.
def ofLine? (line : List Char) : Option Definition :=
  let line := trim line
  if line.head? = some '#' then none
  else
    match line.span (· ≠ '=') with
    | (name, _ :: value) =>
      some { name := String.ofList (trim name), value := String.ofList (unquote (trim value)) }
    | (_, []) => none

def ofText (text : String) : List Definition := (splitLines text.toList).filterMap ofLine?

-- What cannot be put into an environment: a variable without a name, or with a NUL anywhere.
def unusable (d : Definition) : Bool :=
  d.name.isEmpty || d.name.toList.contains '\x00' || d.value.toList.contains '\x00'

end Definition

namespace Environment

-- Adds a definition unless its name is set to a text already. There is no result if a definition is
-- due that cannot be added.
def define? (env : Environment) (d : Definition) : Option Environment :=
  if (env.get? d.name).isSome then some env
  else if d.unusable then none
  else some (env.set d.name d.value)

-- The environment with the gaps filled from a file. A file that is missing or is no text
-- changes nothing.
def load? (env : Environment) (file : Option ByteArray) : Option Environment :=
  match file.bind String.fromUTF8? with
  | none => some env
  | some text => (Definition.ofText text).foldlM define? env

-- A path that goes on with a relative one.
def join (path part : String) : String :=
  if path.endsWith "/" then path ++ part else path ++ "/" ++ part

-- Where the configuration file is looked for: below the directory that the environment names,
-- if its path is absolute, and else below the home directory.
def configPath (env : Environment) : String :=
  let directory :=
    match env.get? "XDG_CONFIG_HOME" with
    | some path =>
      if path.startsWith "/" then path else join ((env.get? "HOME").getD "") ".config"
    | none => join ((env.get? "HOME").getD "") ".config"
  join (join directory "heatpump-bridge") "config.json"

end Environment

end CoilHub
