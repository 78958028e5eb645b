import CoilHub.Decimal.Reading
import CoilHub.Environment
import CoilHub.Error
import CoilHub.Model

namespace CoilHub

-- How the gateway of the heat pump is reached.
structure GatewayConfig where
  connectionType : String := "nibegw"
  ipAddress : String := "192.168.1.50"
  readPort : UInt16 := 9999
  writePort : UInt16 := 10000
  listeningPort : UInt16 := 9999
  wordSwap : Bool := true
  model : Model := .f1255
deriving DecidableEq

structure HubConfig where
  name : String := "Nibe Heat Pump"
  -- identifies the installation, and the entities by what they add to it
  uniqueId : String := "nibe-heatpump"
  updateInterval : UInt64 := 60
  readRetries : UInt32 := 5
deriving DecidableEq

structure Config where
  gateway : GatewayConfig := {}
  hub : HubConfig := {}
deriving DecidableEq

namespace Config

-- The only connection that there is a driver for.
def knownConnection : String := "nibegw"

def readUInt16? (text : List Char) : Option UInt16 := (readNat? 65535 text).map UInt16.ofNat

def readUInt32? (text : List Char) : Option UInt32 := (readNat? (UInt32.size - 1) text).map UInt32.ofNat

def readUInt64? (text : List Char) : Option UInt64 := (readNat? (UInt64.size - 1) text).map UInt64.ofNat

def readBool? (text : List Char) : Option Bool :=
  if text = "true".toList then some true
  else if text = "false".toList then some false
  else none

def readModel? (text : List Char) : Option Model := Model.read? (String.ofList text)

-- A variable that is set to something that cannot be read counts as not set.
def setting? (env : Environment) (read : List Char → Option α) (name : String) : Option α :=
  (env.get? name).bind fun value => read (trim value.toList)

def variableNames : List String :=
  ["NIBE_CONNECTION_TYPE", "NIBE_IP_ADDRESS", "NIBE_REMOTE_READ_PORT", "NIBE_REMOTE_WRITE_PORT",
    "NIBE_LISTENING_PORT", "NIBE_WORD_SWAP", "NIBE_MODEL", "NIBE_UNIQUE_ID",
    "NIBE_UPDATE_INTERVAL", "NIBE_READ_RETRIES"]

-- The configuration with each setting replaced that the environment gives.
def override (config : Config) (env : Environment) : Config where
  gateway :=
    { connectionType := (env.get? "NIBE_CONNECTION_TYPE").getD config.gateway.connectionType
      ipAddress := (env.get? "NIBE_IP_ADDRESS").getD config.gateway.ipAddress
      readPort := (setting? env readUInt16? "NIBE_REMOTE_READ_PORT").getD config.gateway.readPort
      writePort :=
        (setting? env readUInt16? "NIBE_REMOTE_WRITE_PORT").getD config.gateway.writePort
      listeningPort :=
        (setting? env readUInt16? "NIBE_LISTENING_PORT").getD config.gateway.listeningPort
      wordSwap := (setting? env readBool? "NIBE_WORD_SWAP").getD config.gateway.wordSwap
      model := (setting? env readModel? "NIBE_MODEL").getD config.gateway.model }
  hub :=
    { name := config.hub.name
      uniqueId := (env.get? "NIBE_UNIQUE_ID").getD config.hub.uniqueId
      updateInterval :=
        (setting? env readUInt64? "NIBE_UPDATE_INTERVAL").getD config.hub.updateInterval
      readRetries :=
        (setting? env readUInt32? "NIBE_READ_RETRIES").getD config.hub.readRetries }

def fault? (config : Config) : Option ConfigFault :=
  if config.gateway.connectionType ≠ knownConnection then
    some (.connectionType config.gateway.connectionType)
  else if config.gateway.readPort = config.gateway.writePort then some .equalPorts
  else if config.gateway.listeningPort = 0 then some .noListeningPort
  else if config.hub.updateInterval = 0 then some .noInterval
  else if config.hub.readRetries = 0 then some .noRetries
  else none

end Config

end CoilHub
