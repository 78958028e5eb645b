import CoilHub.Entity
import CoilHub.Hub.Schedule

namespace CoilHub

-- Commands to a hub are carried out one after another, and between two of them all other tasks run until
-- each of them waits.
structure Session where
  system : System
  -- calls under way, by name
  calls : List (String × TaskId) := []
  entities : List (String × Entity) := []
  updateLoop : Option TaskId := none
  driftLoop : Option TaskId := none

namespace Session

inductive Command
  | act (action : Action)
  | call (job : Job)
  | value (a : Address)
  | data
  | info
  | failStart (e : FetchError)
  | scriptAck (a : Address) (value : CoilValue)
  | pumpRead (a : Address) (times : Nat)
  | pumpWrite (a : Address) (value : CoilValue)
  | pumpValue (a : Address)
  | pumpCoil (a : Address)
  | pumpCoils
  | pumpTable
  | pumpStart
  | pumpStop
  | readLog
  | clearReadLog
  | attach (id : String) (a : Address)
  | attachCoil (id : String) (coil : Coil)
  | setup (stem : String) (includeDisabled : Bool) (coils : Option (List Coil))
  | entity (id : String)
  | entities
  | entityWrite (id : String) (value : CoilValue)
  | drop (id : String)
  | sleep (duration : Nat)
  | spawn (id : String) (job : Job)
  | isFinished (id : String)
  | join (id : String)
  | startUpdates (period : Nat)
  | updatesRun
  | startDrift (period : Nat)
  | stopDrift

structure Info where
  name : String
  uniqueId : String
  model : Model
  device : DeviceInfo
  shutDown : Bool
  running : Bool

inductive Reply
  | nothing
  | flag (b : Bool)
  | outcome (o : Outcome)
  | cached (a : Address) (value : Option CoilValue)
  | data (values : List (Address × CoilValue))
  | info (i : Info)
  | fetched (result : FetchResult CoilValue)
  | value (value : Option CoilValue)
  | coil (coil : Option Coil)
  | addresses (l : List Address)
  | table (rows : List (Coil × CoilValue))
  | attached (view : EntityView) (coil : Coil) (device : DeviceInfo)
  | names (l : List String)
  | view (view : EntityView)
  | views (l : List (String × EntityView))

-- What a command came to, and how the hub stands after it.
structure Report where
  reply : Reply
  events : List Event
  success : Bool
  listeners : Nat
  cached : Nat
  hasData : Bool

def hub (s : Session) : Hub := s.system.hub

def mapHub (s : Session) (f : Hub → Hub) : Session := { s with system := s.system.mapHub f }

def pump (s : Session) : Pump := s.hub.gateway.pump?.getD { model := s.hub.model }

def device (s : Session) : DeviceInfo := .ofModel s.hub.settings.uniqueId s.hub.model

def unbind (id : String) (l : List (String × α)) : List (String × α) := l.filter (·.1 ≠ id)

-- Keeps an entity under a name. The one that had the name is dropped.
def keep (s : Session) (id : String) (e : Entity) : Session :=
  let s := match s.entities.lookup id with
    | some old => s.mapHub old.detach
    | none => s
  { s with entities := (id, e) :: unbind id s.entities }

def attachCoil (s : Session) (id : String) (coil : Coil) : Reply × Session :=
  let (e, hub) := Entity.attach s.hub coil
  let s := (s.mapHub fun _ => hub).keep id e
  (.attached (e.view s.hub) coil s.device, s)

def setup (s : Session) (stem : String) (includeDisabled : Bool) (coils : List Coil) :
    Reply × Session :=
  let (entities, hub) := Entity.attachEach s.hub coils includeDisabled
  let kept := entities.foldl
    (fun s e => s.keep (stem ++ String.ofList (decimalDigits e.coil.address.toNat)) e)
    (s.mapHub fun _ => hub)
  (.names (entities.map Entity.entityId), kept)

def call (s : Session) (job : Job) : Reply × Session :=
  let (outcome, system) := s.system.run job
  (match outcome with
    | some o => .outcome o
    | none => .nothing, { s with system })

-- A read past the hub. It takes as long as any read of the pump.
def pumpRead (s : Session) (a : Address) : FetchResult CoilValue × Session :=
  let begun := s.mapHub fun hub => hub.mapPump (·.beginRead a)
  let waited := { begun with system := begun.system.sleep begun.pump.readDelay }
  let (result, hub) := waited.hub.finishRead a
  (result, waited.mapHub fun _ => hub)

def pumpReads (s : Session) (a : Address) : Nat → Reply × Session
  | 0 => (.nothing, s)
  | n + 1 =>
    let (result, s) := s.pumpRead a
    if n = 0 then (.fetched result, s) else s.pumpReads a n

def pumpWrite (s : Session) (a : Address) (value : CoilValue) : Reply × Session :=
  let (result, pump) := s.pump.write a value
  (.fetched result, s.mapHub fun hub => hub.mapPump fun _ => pump)

def join (s : Session) (id : String) : Reply × Session :=
  match s.calls.lookup id with
  | none => (.nothing, s)
  | some task =>
    let system := s.system.join task
    (match system.outcome? task with
      | some o => .outcome o
      | none => .nothing, { s with system, calls := unbind id s.calls })

def spawn (s : Session) (job : Job) : TaskId × Session :=
  (s.system.tasks.length, { s with system := s.system.spawn job })

def perform (s : Session) : Command → Reply × Session
  | .act (.unlisten name) =>
    (.flag (s.hub.registry.contains (.named name)), s.mapHub (·.deregister (.named name)))
  | .act action => (.nothing, s.mapHub (·.act action))
  | .call job => s.call job
  | .value a => (.cached a (s.hub.cache.get? a), s)
  | .data => (.data s.hub.cache.values, s)
  | .info =>
    (.info
      { name := s.hub.settings.name
        uniqueId := s.hub.settings.uniqueId
        model := s.hub.model
        device := s.device
        shutDown := s.hub.cancelled
        running := s.pump.running }, s)
  | .failStart e =>
    (.nothing, s.mapHub fun hub => { hub with gateway.startFault := some e })
  | .scriptAck a value =>
    (.nothing, s.mapHub fun hub => { hub with gateway := hub.gateway.scriptAck a value })
  | .pumpRead a times => s.pumpReads a times
  | .pumpWrite a value => s.pumpWrite a value
  | .pumpValue a => (.value (s.pump.value? a), s)
  | .pumpCoil a => (.coil (s.pump.coil? a), s)
  | .pumpCoils => (.addresses (s.pump.allCoils.map Coil.address), s)
  | .pumpTable => (.table (s.pump.coils.entries.map Prod.snd), s)
  | .pumpStart => (.nothing, s.mapHub (·.mapPump fun p => { p with running := true }))
  | .pumpStop => (.nothing, s.mapHub (·.mapPump fun p => { p with running := false }))
  | .readLog => (.addresses s.pump.readLog, s)
  | .clearReadLog => (.nothing, s.mapHub (·.mapPump fun p => { p with readLog := [] }))
  | .attach id a =>
    match s.pump.coil? a with
    | none => (.nothing, s)
    | some coil => s.attachCoil id coil
  | .attachCoil id coil => s.attachCoil id coil
  | .setup stem includeDisabled coils =>
    s.setup stem includeDisabled (coils.getD s.pump.allCoils)
  | .entity id =>
    match s.entities.lookup id with
    | none => (.nothing, s)
    | some e => (.view (e.view s.hub), s)
  | .entities =>
    (.views ((s.entities.map fun (id, e) => (id, e.view s.hub)).mergeSort fun x y =>
      !(y.1 < x.1)), s)
  | .entityWrite id value =>
    match s.entities.lookup id with
    | none => (.nothing, s)
    | some e => s.call (.write e.coil.address value)
  | .drop id =>
    match s.entities.lookup id with
    | none => (.flag false, s)
    | some e =>
      (.flag true, { s.mapHub e.detach with entities := unbind id s.entities })
  | .sleep duration => (.nothing, { s with system := s.system.sleep duration })
  | .spawn id job =>
    let (task, s) := s.spawn job
    (.nothing, { s with calls := (id, task) :: unbind id s.calls })
  | .isFinished id => (.flag ((s.calls.lookup id).any s.system.isFinished), s)
  | .join id => s.join id
  | .startUpdates period =>
    let (task, s) := s.spawn (.updates period)
    (.nothing, { s with updateLoop := some task })
  | .updatesRun => (.flag (s.updateLoop.any fun task => !s.system.isFinished task), s)
  | .startDrift period =>
    let (task, s) := s.spawn (.drift period)
    (.nothing, { s with driftLoop := some task })
  | .stopDrift =>
    (.nothing, match s.driftLoop with
      | some task => { s with system := s.system.stop task }
      | none => s)

-- Carries out a command and lets all other tasks run.
def step (s : Session) (command : Command) : Report × Session :=
  let (reply, s) := s.perform command
  let s := { s with system := s.system.settle }
  ({ reply
     events := s.hub.history.reverse
     success := s.hub.lastSuccess
     listeners := s.hub.registry.size
     cached := s.hub.cache.size
     hasData := !s.hub.cache.isEmpty },
    s.mapHub fun hub => { hub with history := [] })

def run (s : Session) : List Command → List Report
  | [] => []
  | command :: rest =>
    let (report, s) := s.step command
    report :: s.run rest

def start (settings : HubConfig) (model : Model) (source : Source) : Session where
  system := { hub := { settings, model, gateway := { source } } }

-- The session of a hub on an echoing line, with one listener for two addresses.
def ofEcho (settings : HubConfig) (model : Model) : Session :=
  (start settings model .echo).mapHub (·.listen "listener" [1, 3] [])

-- It is started, refreshed and shut down, and then once more refreshed and started.
def echoCommands : List Command :=
  [.call .start, .call .refresh, .call .shutdown, .call .refresh, .call .start]

end Session

end CoilHub
