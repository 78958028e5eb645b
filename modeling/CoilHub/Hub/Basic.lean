import CoilHub.Cache
import CoilHub.Config
import CoilHub.Gateway
import CoilHub.Registry

namespace CoilHub

abbrev TaskId := Nat

-- Who a listener is: one that was given a name, or the entity of a number.
inductive Handle
  | named (name : String)
  | entity (index : Nat)
deriving DecidableEq

-- What a listener can be told to do when it is called. An action with a number is done only on
-- the call of that number.
inductive Action
  | listen (name : String) (interest : List Address) (actions : List (Option Nat × Action))
  | unlisten (name : String)
  | setValue (a : Address) (value : CoilValue)
  | failRead (a : Address) (e : FetchError) (times : Nat)
  | failWrite (a : Address) (e : FetchError) (times : Nat)
  | cancel
  | requestRefresh
  | notify

-- How a listener reacts: an entity takes over the cached value of its coil, anybody else works
-- off a list of actions. Calls are counted by the counter of that index.
inductive Effect
  | display (index : Nat) (a : Address)
  | script (counter : Nat) (actions : List (Option Nat × Action))

-- A reaction, and the addresses whose values it looks at.
structure Reaction where
  looksAt : List Address
  effect : Effect

abbrev HubListener := Listener Handle Reaction

-- What an entity shows: the value of its coil at the latest call, and how often it was taken
-- over.
structure Display where
  value : Option CoilValue := none
  version : UInt32 := 0
deriving DecidableEq

inductive Event
  | read (a : Address)
  | write (a : Address) (value : CoilValue)
  -- a listener was called, and saw these values
  | called (handle : Handle) (seen : List (Option CoilValue))
deriving DecidableEq

-- The bell by which a refresh is asked for. One ring is kept if nobody waits for it, and one
-- that reached a waiter stays with it until it is answered.
structure Doorbell where
  kept : Bool := false
  waiting : List TaskId := []
  reached : List TaskId := []

-- Whatever is done to a hub here takes place at once.
structure Hub where
  settings : HubConfig
  model : Model
  gateway : Gateway
  cache : Cache := {}
  registry : Registry Handle Reaction := {}
  lastSuccess : Bool := true
  cancelled : Bool := false
  doorbell : Doorbell := {}
  displays : List Display := []
  counters : List Nat := []
  -- latest first
  history : List Event := []
  -- tasks that have something to go on with, in the order in which they got it
  woken : List TaskId := []
  -- how many calls deep listeners may notify one another
  nesting : Nat := 255

namespace Hub

def emit (hub : Hub) (e : Event) : Hub := { hub with history := e :: hub.history }

def mapPump (hub : Hub) (f : Pump → Pump) : Hub := { hub with gateway := hub.gateway.mapPump f }

def wake (hub : Hub) (task : TaskId) : Hub := { hub with woken := hub.woken ++ [task] }

-- Asks for a refresh. The task that has waited longest hears it.
def requestRefresh (hub : Hub) : Hub :=
  match hub.doorbell.waiting with
  | [] => { hub with doorbell.kept := true }
  | task :: waiting =>
    let reached := hub.doorbell.reached ++ [task]
    wake { hub with doorbell.waiting := waiting, doorbell.reached := reached } task

def register (hub : Hub) (l : HubListener) : Hub :=
  { hub with registry := hub.registry.register l }

def deregister (hub : Hub) (handle : Handle) : Hub :=
  { hub with registry := hub.registry.deregister handle }

-- Registers a named listener. Its calls are counted anew.
def listen (hub : Hub) (name : String) (interest : List Address)
    (actions : List (Option Nat × Action)) : Hub :=
  { hub with counters := hub.counters ++ [0] }.register
    { handle := .named name
      interest := .ofList interest
      reaction := { looksAt := interest, effect := .script hub.counters.length actions } }

-- An entity whose coil has no cached value stays as it is.
def refreshDisplay (hub : Hub) (index : Nat) (a : Address) : Hub :=
  match hub.cache.get? a with
  | none => hub
  | some value =>
    { hub with displays := hub.displays.modify index fun d =>
        { value := some value, version := d.version + 1 } }

-- Carries out an action, given what notifying all listeners means.
def perform (notify : Hub → Hub) (hub : Hub) : Action → Hub
  | .listen name interest actions => hub.listen name interest actions
  | .unlisten name => hub.deregister (.named name)
  | .setValue a value => hub.mapPump (·.setValue a value)
  | .failRead a e times => hub.mapPump fun p => times.repeat (·.failRead a e) p
  | .failWrite a e times => hub.mapPump fun p => times.repeat (·.failWrite a e) p
  | .cancel => { hub with cancelled := true }
  | .requestRefresh => hub.requestRefresh
  | .notify => notify hub

def react (notify : Hub → Hub) (hub : Hub) : Effect → Hub
  | .display index a => hub.refreshDisplay index a
  | .script counter actions =>
    let count := hub.counters[counter]?.getD 0 + 1
    let hub := { hub with counters := hub.counters.set counter count }
    actions.foldl (fun hub (on, action) =>
      if on.all (· = count) then perform notify hub action else hub) hub

-- Calls a listener. A listener may notify all others in turn, who may do so as well, but only to this
-- depth.
def callWithin : Nat → Hub → HubListener → Hub
  | 0, hub, _ => hub
  | depth + 1, hub, l =>
    let seen := l.reaction.looksAt.map hub.cache.get?
    react (fun hub => hub.registry.listeners.foldl (callWithin depth) hub)
      (hub.emit (.called l.handle seen)) l.reaction.effect

-- Whatever the depth is, listeners that are called by somebody else are reached.
def call (hub : Hub) (l : HubListener) : Hub := callWithin (hub.nesting + 1) hub l

def callEach (hub : Hub) (ls : List HubListener) : Hub := ls.foldl call hub

-- Calls all listeners that are registered now.
def notifyAll (hub : Hub) : Hub := hub.callEach hub.registry.listeners

-- An action of somebody who is not a listener.
def act (hub : Hub) (action : Action) : Hub := perform notifyAll hub action

def recordSuccess (hub : Hub) : Hub := { hub with lastSuccess := true }

def beginRead (hub : Hub) (a : Address) : Hub :=
  { hub with gateway := hub.gateway.beginRead a }.emit (.read a)

def finishRead (hub : Hub) (a : Address) : FetchResult CoilValue × Hub :=
  let (result, gateway) := hub.gateway.finishRead a
  (result, { hub with gateway })

def beginWrite (hub : Hub) (a : Address) (value : CoilValue) : Hub := hub.emit (.write a value)

def finishWrite (hub : Hub) (a : Address) (value : CoilValue) : FetchResult CoilValue × Hub :=
  let (result, gateway) := hub.gateway.write a value
  (result, { hub with gateway })

def nextRevision (hub : Hub) : UInt64 × Hub :=
  let (revision, cache) := hub.cache.nextRevision
  (revision, { hub with cache })

def start (hub : Hub) : Except HubError Unit × Hub :=
  let (result, gateway) := hub.gateway.start
  (result.mapError .startFailed, { hub with gateway })

-- Cancels everything that waits or reads, and closes the connection.
def shutdown (hub : Hub) : Hub :=
  { hub with cancelled := true, gateway := hub.gateway.stop }

-- Whether the entity of an address has something to show that is up to date.
def available (hub : Hub) (a : Address) : Bool := hub.lastSuccess && hub.cache.contains a

end Hub

end CoilHub
