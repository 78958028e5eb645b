import CoilHub.Address
import CoilHub.Decimal
import CoilHub.Json.Decoding

namespace CoilHub

-- Failure of one read or write of a coil.
inductive FetchError
  -- the device has no such coil
  | notFound (address : Address)
  -- another attempt may succeed
  | transient (text : String)
  -- no other attempt will
  | fatal (text : String)
deriving DecidableEq

namespace FetchError

def isTransient : FetchError → Bool
  | transient _ => true
  | _ => false

def message : FetchError → String
  | notFound address => "Coil " ++ String.ofList (decimalDigits address.toNat) ++ " not found"
  | transient text => "Transient coil error: " ++ text
  | fatal text => "Fatal coil error: " ++ text

end FetchError

-- What one read or write of a coil comes to.
abbrev FetchResult (α : Type) := Except FetchError α

inductive HubError
  | refreshFailed (address : Address) (cause : FetchError)
  | writeFailed (address : Address) (cause : FetchError)
  | startFailed (cause : FetchError)
  | cancelled
deriving DecidableEq

def HubError.message : HubError → String
  | refreshFailed address cause =>
    "Failed to update coil " ++ String.ofList (decimalDigits address.toNat) ++ ": " ++ cause.message
  | writeFailed address cause =>
    "Failed to write coil " ++ String.ofList (decimalDigits address.toNat) ++ ": " ++ cause.message
  | startFailed cause => "Failed to start coil source: " ++ cause.message
  | cancelled => "Coordinator was shut down"

inductive ConfigFault
  | connectionType (kind : String)
  | equalPorts
  | noListeningPort
  | noInterval
  | noRetries
deriving DecidableEq

namespace ConfigFault

def unsupported (kind : String) : String := "Connection type " ++ kind ++ " is not supported"

def invalid (reason : String) : String := "Invalid configuration: " ++ reason

def message : ConfigFault → String
  | connectionType kind => unsupported kind
  | equalPorts => invalid "remote read and write ports must differ"
  | noListeningPort => invalid "listening port must be non-zero"
  | noInterval => invalid "update interval must be at least one second"
  | noRetries => invalid "read retries must be at least one"

end ConfigFault

-- Why a configuration file cannot be used.
inductive FileFault
  | notFound
  | notText
  | refused (reason : Refusal)
deriving DecidableEq

end CoilHub
