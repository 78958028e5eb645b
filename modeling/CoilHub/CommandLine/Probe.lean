import CoilHub.CommandLine.Arguments
import CoilHub.Hub.Schedule
import CoilHub.Json.Records

namespace CoilHub

namespace Probe

inductive Request
  | list
  | read (keys : List String)
  | write (key value : String)
deriving DecidableEq

structure Call where
  model : Option Model
  retries : Option UInt32
  request : Request
deriving DecidableEq

-- A number that may have a sign, but must not be negative.
def readRetries? (s : String) : Option UInt32 :=
  (readInt? 0 (UInt32.size - 1) s.toList).map fun n => UInt32.ofNat n.toNat

def acceptsModel (s : String) : Bool := (Model.read? s).isSome

def acceptsRetries (s : String) : Bool := (readRetries? s).isSome

def switches : List Switch :=
  [{ name := "model", accepts := some acceptsModel },
   { name := "retries", accepts := some acceptsRetries }]

def request : List String → Except CallFault Request
  | [] => .error .usage
  | "list" :: rest => (Arguments.operands (some 0) [] rest).map fun _ => .list
  | "read" :: rest => do
    match ← Arguments.operands none [] rest with
    | [] => throw .usage
    | keys => return .read keys
  | "write" :: rest => do
    match ← Arguments.operands (some 2) [] rest with
    | [key, value] => return .write key value
    | _ => throw .usage
  | ["help"] => .error .help
  | ["help", topic] =>
    .error (if ["list", "read", "write", "help"].contains topic then .help else .usage)
  | _ :: _ => .error .usage

-- What the arguments and the environment ask for.
def call (args : List String) (env : Environment) : Except CallFault Call := do
  let (found, rest) ← Arguments.options switches [] args
  let request ← request rest
  let model ← Arguments.valueOf (found.lookup "model") (env.content? "NIBE_MODEL") acceptsModel
  let retries ←
    Arguments.valueOf (found.lookup "retries") (env.content? "NIBE_READ_RETRIES") acceptsRetries
  return { model := model.bind Model.read?, retries := retries.bind readRetries?, request }

-- One line of output: a coil and the value that it was found to have.
def row (coil : Coil) (value : Option CoilValue) : Document :=
  .object
    [("address", .integer coil.address.toNat),
     ("name", .string coil.name),
     ("value", .ofOption CoilValue.document value),
     ("unit", .ofOption .string coil.unit)]

def print (d : Document) : Exit := { code := 0, output := d.wide ++ "\n" }

def unknownCoil (model : Model) (key : String) : Exit :=
  { code := 2, log := [Exit.error ("Unknown coil for " ++ model.name ++ ": " ++ key)] }

def failed (e : HubError) : Exit := { code := 1, log := [Exit.error e.message] }

-- All coils of the keys, or the first key that names none.
def findCoils (model : Model) : List String → Except String (List Coil)
  | [] => .ok []
  | key :: keys =>
    match model.findCoil? key with
    | none => .error key
    | some coil => (findCoils model keys).map (coil :: ·)

-- Reads all coils in one refresh cycle.
def read (system : System) (model : Model) (keys : List String) : Exit :=
  match findCoils model keys with
  | .error key => unknownCoil model key
  | .ok coils =>
    let listening := system.mapHub (·.listen "probe" (coils.map Coil.address) [])
    match listening.run .refresh with
    | (some (.ok _), refreshed) =>
      print (.array (coils.map fun coil => row coil (refreshed.hub.cache.get? coil.address)))
    | (some (.error e), _) => failed e
    | (none, _) => failed .cancelled

def write (system : System) (model : Model) (key raw : String) : Exit :=
  match model.findCoil? key with
  | none => unknownCoil model key
  | some coil =>
    match system.run (.write coil.address (CoilValue.parse raw)) with
    | (some (.ok (.acknowledged value)), _) => print (row coil (some value))
    | (some (.error e), _) => failed e
    | _ => failed .cancelled

def answer (call : Call) (env : Environment) : Exit :=
  let config := ({} : Config).override env
  let model := call.model.getD config.gateway.model
  let settings := { config.hub with readRetries := call.retries.getD config.hub.readRetries }
  let system : System :=
    { hub := { settings, model, gateway := { source := .pump (.ofModel model) } } }
  let started := (system.run .start).2
  match call.request with
  | .list => print (.array (model.coils.map Coil.document))
  | .read keys => read started model keys
  | .write key value => write started model key value

-- The whole program, with the content of the environment file.
def run (args : List String) (env : Environment) (file : Option ByteArray) : Exit :=
  match env.load? file with
  | none => .crash
  | some env =>
    match call args env with
    | .error fault => .ofFault fault
    | .ok call => answer call env

end Probe

end CoilHub
