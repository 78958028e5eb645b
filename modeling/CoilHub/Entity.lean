import CoilHub.Description
import CoilHub.Hub.Basic

namespace CoilHub

-- A single coil, as it is presented. An entity listens for the address of its coil and takes over the
-- cached value whenever it is called.
structure Entity where
  coil : Coil
  uniqueId : String
  -- which of the hub's displays is its own
  index : Nat
deriving DecidableEq

structure EntityView where
  entityId : String
  uniqueId : String
  name : String
  available : Bool
  value : Option CoilValue
  version : UInt32

namespace Entity

def handle (e : Entity) : Handle := .entity e.index

-- The platform, and the machine name with underscores for hyphens.
def entityId (e : Entity) : String :=
  e.coil.platform.label ++ "." ++ e.coil.name.map fun c => if c = '-' then '_' else c

def attach (hub : Hub) (coil : Coil) : Entity × Hub :=
  let index := hub.displays.length
  let uniqueId := hub.settings.uniqueId ++ "-" ++ String.ofList (decimalDigits coil.address.toNat)
  ({ coil, uniqueId, index },
    { hub with displays := hub.displays ++ [({} : Display)] }.register
      { handle := .entity index
        interest := .ofList [coil.address]
        reaction := { looksAt := [coil.address], effect := .display index coil.address } })

-- Entities for those of the coils that are enabled by default, or for all of them.
def attachEach (hub : Hub) (coils : List Coil) (includeDisabled : Bool) : List Entity × Hub :=
  (coils.filter fun coil => includeDisabled || coil.description.enabledByDefault).foldl
    (fun (entities, hub) coil =>
      let (e, hub) := attach hub coil
      (entities ++ [e], hub))
    ([], hub)

def detach (hub : Hub) (e : Entity) : Hub := hub.deregister e.handle

def display (hub : Hub) (e : Entity) : Display := hub.displays[e.index]?.getD {}

def view (hub : Hub) (e : Entity) : EntityView where
  entityId := e.entityId
  uniqueId := e.uniqueId
  name := e.coil.title
  available := hub.available e.coil.address
  value := (e.display hub).value
  version := (e.display hub).version

end Entity

end CoilHub
