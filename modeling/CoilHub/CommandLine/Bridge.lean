import CoilHub.CommandLine.Arguments
import CoilHub.Json.Records

namespace CoilHub

namespace Bridge

def acceptsPath (s : String) : Bool := !s.isEmpty

def acceptsSeconds (s : String) : Bool := (readNat? (UInt64.size - 1) s.toList).isSome

def switches : List Switch :=
  [{ name := "config", accepts := some acceptsPath },
   { name := "all-entities", accepts := none },
   { name := "report-every", accepts := some acceptsSeconds }]

-- The path of the configuration file, if one is asked for. Paths are texts here.
def call (args : List String) (env : Environment) : Except CallFault (Option String) := do
  let (found, rest) ← Arguments.options switches [] args
  let _ ← Arguments.operands (some 0) [] rest
  let preset := (env.get? "NIBE_CONFIG").map Content.text
  Arguments.valueOf (found.lookup "config") preset acceptsPath

def fileFaultMessage : FileFault → String
  | .notFound => "No such file or directory (os error 2)"
  | .notText => "stream did not contain valid UTF-8"
  | .refused .ended => "the text ends too early"
  | .refused .malformed => "the text is malformed"
  | .refused .mismatch => "the text is of another kind"

-- What comes of the attempt to load the configuration, and what is logged about it.
inductive Start
  | accepted (config : Config)
  | refused (exit : Exit)

-- Loads the configuration. `files` is the content of each file that there is.
def load (path : Option String) (env : Environment) (files : String → Option ByteArray) : Start :=
  let starting := [Exit.info "Starting heat pump bridge"]
  let refuse (log : List String) (reason : String) : Start :=
    .refused { code := 1, log := log ++ [Exit.error ("Invalid configuration: " ++ reason)] }
  let judge (log : List String) (config : Config) : Start :=
    match config.fault? with
    | none => .accepted config
    | some fault => refuse log fault.message
  let path := path.or (some env.configPath |>.filter fun p => (files p).isSome)
  match path with
  | none => judge starting (({} : Config).override env)
  | some path =>
    let loading := starting ++ [Exit.info ("Loading configuration from " ++ path)]
    match Config.ofFile (files path) with
    | .error fault => refuse loading (fileFaultMessage fault)
    | .ok config => judge loading (config.override env)

-- The start of the program. There is no exit yet if the configuration is accepted.
def run (args : List String) (env : Environment) (file : Option ByteArray)
    (files : String → Option ByteArray) : Start :=
  match env.load? file with
  | none => .refused .crash
  | some env =>
    match call args env with
    | .error fault => .refused (.ofFault fault)
    | .ok path => load path env files

end Bridge

end CoilHub
