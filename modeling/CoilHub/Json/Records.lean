import CoilHub.Coil
import CoilHub.Config
import CoilHub.Description
import CoilHub.Json.Decoding
import CoilHub.Json.Document
import CoilHub.Value

namespace CoilHub

namespace CoilValue

def document : CoilValue → Document
  | .integer n => .integer n.toInt
  | .float x => .float x
  | .text s => .string s

-- How deep arrays and objects may lie within each other in a text that is read as a value.
def depthLimit : Nat := 127

-- The whole text is read before its kind is looked at. Integers beyond 64 bits count as doubles.
def decode (o : Outline) : Decoded CoilValue := do
  o.readFully depthLimit
  match o with
  | .string q => return .text (← q.read)
  | .number n =>
    match n.jsonNumber? with
    | none => throw .malformed
    | some (.natural k) =>
      if k ≤ highestInteger then return .integer (Int64.ofInt k) else return .float (.ofInt k)
    | some (.negative k) => return .integer (Int64.ofInt k)
    | some (.float x) => return .float x
  | _ => throw .mismatch

end CoilValue

namespace Model

def document (m : Model) : Document := .string m.name

-- The name of a model, or an object with that name for its one member and nothing in it.
def decode : Outline → Decoded Model
  | .string q => do
    match named? (← q.read) with
    | some m => return m
    | none => throw .mismatch
  | .object (.member name value rest) => do
    let some m := named? (← name.read) | throw .mismatch
    value.asNull
    match rest with
    | .ends fault => closed fault
    | _ => throw .malformed
    return m
  | .object (.unnamed found) => .error found.refusal
  | .object (.ends none) => .error .malformed
  | .object (.ends (some fault)) => .error fault.whenRead
  | .missing => .error .ended
  | _ => .error .malformed

end Model

namespace Coil

def document (coil : Coil) : Document :=
  .object
    [("address", .integer coil.address.toNat),
     ("name", .string coil.name),
     ("title", .string coil.title),
     ("unit", .ofOption .string coil.unit),
     ("writable", .bool coil.writable)]

def format : RecordFormat Coil where
  blank := { address := 0, name := "", title := "" }
  fields :=
    [⟨"address", fun o coil => do
        return { coil with address := UInt16.ofNat (← o.asNatural 65535) }⟩,
     ⟨"name", fun o coil => return { coil with name := ← o.asString }⟩,
     ⟨"title", fun o coil => return { coil with title := ← o.asString }⟩,
     ⟨"unit", fun o coil => return { coil with unit := ← o.asOption Outline.asString }⟩,
     ⟨"writable", fun o coil => return { coil with writable := ← o.asBool }⟩]
  required := ["address", "name", "title", "writable"]
  shortArrays := false

end Coil

namespace DeviceInfo

def document (info : DeviceInfo) : Document :=
  .object
    [("identifiers",
        .array (info.identifiers.map fun pair => .array [.string pair.1, .string pair.2])),
     ("manufacturer", .string info.manufacturer),
     ("model", .string info.model),
     ("name", .string info.name)]

def format : RecordFormat DeviceInfo where
  blank := { identifiers := [], manufacturer := "", model := "", name := "" }
  fields :=
    [⟨"identifiers", fun o info => do
        let pairs ← o.asList (Outline.asPair Outline.asString Outline.asString)
        return { info with identifiers := pairs }⟩,
     ⟨"manufacturer", fun o info => return { info with manufacturer := ← o.asString }⟩,
     ⟨"model", fun o info => return { info with model := ← o.asString }⟩,
     ⟨"name", fun o info => return { info with name := ← o.asString }⟩]
  required := ["identifiers", "manufacturer", "model", "name"]
  shortArrays := false

end DeviceInfo

def Description.document (d : Description) : Document :=
  .object
    [("key", .string d.key),
     ("name", .ofOption .string d.name),
     ("unit", .ofOption .string d.unit),
     ("device_class", .ofOption (.string ·.title) d.deviceClass),
     ("state_class", .ofOption (.string ·.title) d.stateClass),
     ("icon", .ofOption .string d.icon),
     ("entity_category", .ofOption (.string ·.title) d.category),
     ("enabled_by_default", .bool d.enabledByDefault)]

namespace GatewayConfig

def document (c : GatewayConfig) : Document :=
  .object
    [("connection_type", .string c.connectionType),
     ("ip_address", .string c.ipAddress),
     ("remote_read_port", .integer c.readPort.toNat),
     ("remote_write_port", .integer c.writePort.toNat),
     ("listening_port", .integer c.listeningPort.toNat),
     ("word_swap", .bool c.wordSwap),
     ("model", c.model.document)]

def asPort (o : Outline) : Decoded UInt16 := return UInt16.ofNat (← o.asNatural 65535)

def format : RecordFormat GatewayConfig where
  blank := {}
  fields :=
    [⟨"connection_type", fun o c => return { c with connectionType := ← o.asString }⟩,
     ⟨"ip_address", fun o c => return { c with ipAddress := ← o.asString }⟩,
     ⟨"remote_read_port", fun o c => return { c with readPort := ← asPort o }⟩,
     ⟨"remote_write_port", fun o c => return { c with writePort := ← asPort o }⟩,
     ⟨"listening_port", fun o c => return { c with listeningPort := ← asPort o }⟩,
     ⟨"word_swap", fun o c => return { c with wordSwap := ← o.asBool }⟩,
     ⟨"model", fun o c => return { c with model := ← Model.decode o }⟩]
  required := []
  shortArrays := true

end GatewayConfig

namespace HubConfig

def document (c : HubConfig) : Document :=
  .object
    [("name", .string c.name),
     ("unique_id", .string c.uniqueId),
     ("update_interval_secs", .integer c.updateInterval.toNat),
     ("read_retries", .integer c.readRetries.toNat)]

def format : RecordFormat HubConfig where
  blank := {}
  fields :=
    [⟨"name", fun o c => return { c with name := ← o.asString }⟩,
     ⟨"unique_id", fun o c => return { c with uniqueId := ← o.asString }⟩,
     ⟨"update_interval_secs", fun o c => do
        return { c with updateInterval := UInt64.ofNat (← o.asNatural (UInt64.size - 1)) }⟩,
     ⟨"read_retries", fun o c => do
        return { c with readRetries := UInt32.ofNat (← o.asNatural (UInt32.size - 1)) }⟩]
  required := []
  shortArrays := true

end HubConfig

namespace Config

def document (c : Config) : Document :=
  .object [("gateway", c.gateway.document), ("coordinator", c.hub.document)]

def format : RecordFormat Config where
  blank := {}
  fields :=
    [⟨"gateway", fun o c => return { c with gateway := ← GatewayConfig.format.decode o }⟩,
     ⟨"coordinator", fun o c => return { c with hub := ← HubConfig.format.decode o }⟩]
  required := []
  shortArrays := true

-- The configuration that a file holds.
def ofFile (file : Option ByteArray) : Except FileFault Config :=
  match file with
  | none => .error .notFound
  | some bytes =>
    match String.fromUTF8? bytes with
    | none => .error .notText
    | some text => (decodeText format.decode text).mapError .refused

end Config

end CoilHub
