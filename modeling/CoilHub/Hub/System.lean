import CoilHub.Hub.Cycle
import CoilHub.Hub.Lock
import CoilHub.Retry

namespace CoilHub

abbrev HubCycle := Cycle Handle Reaction

inductive Job
  | refresh
  -- a refresh whose success or failure is kept
  | cycle
  | write (a : Address) (value : CoilValue)
  | start
  | shutdown
  -- cycles at regular times and on request, until the hub is shut down
  | updates (period : Nat)
  -- the pump's temperatures drift at regular times
  | drift (period : Nat)

inductive Yield
  | refreshed (values : AddressMap CachedValue)
  | counted (n : Nat)
  | acknowledged (value : CoilValue)
  | started
  | stopped

abbrev Outcome := Except HubError Yield

-- Where a task stands between two steps.
inductive Stage
  | fresh
  -- has asked for the cycle lock
  | awaitingCycle
  -- holds the cycle lock and has asked for the transport, to read the next address
  | awaitingTransport (cycle : HubCycle)
  -- holds both, and a read attempt is under way that will be answered at the time `due`
  | reading (cycle : HubCycle) (revision : UInt64) (attempt due : Nat)
  -- has asked for the transport in order to write
  | awaitingWrite (a : Address) (value : CoilValue)
  -- holds the transport, and a write is under way
  | writing (a : Address) (value : CoilValue) (revision : UInt64) (hadData : Bool)
  -- waits for the next tick or a request
  | idle
  | finished (outcome : Outcome)

structure Task where
  job : Job
  stage : Stage := .fresh
  -- when a task that works at regular times is due again
  nextTick : Nat := 0
  ticks : Nat := 0

inductive Deed
  -- a refresh began with these listeners
  | begins (listeners : List HubListener)
  -- a call of the pump got this revision
  | reserves (revision : UInt64)
  -- a read attempt began
  | asks (a : Address)
  -- a read attempt was answered
  | hears (a : Address) (result : FetchResult CoilValue)
  -- a write began
  | sends (a : Address) (value : CoilValue)
  -- a write was answered
  | receives (a : Address) (result : FetchResult CoilValue)
  -- a value was offered to the cache, which stored it or not
  | offers (revision : UInt64) (a : Address) (value : CoilValue) (stored : Bool)
  -- an address of a refresh was settled
  | settles (a : Address)
  -- a refresh was given up
  | abandons
  -- listeners were called, and the first of them found the hub like this
  | calls (hub : Hub) (listeners : List HubListener)
  -- a refresh came to its end
  | returns (result : Except HubError (AddressMap CachedValue))

-- Tasks that share a hub. Two locks order them: one is held by a refresh cycle from its beginning to its
-- end, the other one by whoever talks to the pump. No task reads the journal.
structure System where
  hub : Hub
  -- in milliseconds
  now : Nat := 0
  cycleLock : Lock := {}
  transport : Lock := {}
  tasks : List Task := []
  -- latest first
  journal : List (TaskId × Deed) := []

namespace System

def stage? (s : System) (id : TaskId) : Option Stage := s.tasks[id]?.map (·.stage)

def job? (s : System) (id : TaskId) : Option Job := s.tasks[id]?.map (·.job)

def mapHub (s : System) (f : Hub → Hub) : System := { s with hub := f s.hub }

def mapTask (s : System) (id : TaskId) (f : Task → Task) : System :=
  { s with tasks := s.tasks.modify id f }

def setStage (s : System) (id : TaskId) (stage : Stage) : System :=
  s.mapTask id fun t => { t with stage }

def note (s : System) (id : TaskId) (deed : Deed) : System :=
  { s with journal := (id, deed) :: s.journal }

def callEach (s : System) (id : TaskId) (ls : List HubListener) : System :=
  (s.note id (.calls s.hub ls)).mapHub (·.callEach ls)

-- A task takes the next revision for a call of the pump.
def reserve (s : System) (id : TaskId) : UInt64 × System :=
  let (revision, hub) := s.hub.nextRevision
  (revision, { s with hub }.note id (.reserves revision))

-- A task offers a value to the cache. Yields what was stored, if it was.
def store (s : System) (id : TaskId) (revision : UInt64) (a : Address) (value : CoilValue) :
    Option CachedValue × System :=
  match s.hub.cache.store? revision a value with
  | some cache =>
    (some { address := a, value },
      { s with hub.cache := cache }.note id (.offers revision a value true))
  | none => (none, s.note id (.offers revision a value false))

-- A ring for a task that waits no longer goes to the next one.
def leaveDoorbell (s : System) (id : TaskId) : System :=
  let bell := s.hub.doorbell
  let left : System :=
    { s with
      hub.doorbell :=
        { bell with waiting := bell.waiting.erase id, reached := bell.reached.erase id } }
  if id ∈ bell.reached then left.mapHub Hub.requestRefresh else left

def isRung (s : System) (id : TaskId) : Bool :=
  s.hub.doorbell.kept || s.hub.doorbell.reached.contains id

-- The ring is used up by the task that answers it.
def answerBell (s : System) (id : TaskId) : System :=
  let bell := s.hub.doorbell
  if id ∈ bell.reached then
    { s with hub.doorbell.reached := bell.reached.erase id }
  else { s with hub.doorbell.kept := false }

def enabled (s : System) (id : TaskId) : Bool :=
  match s.tasks[id]? with
  | none => false
  | some t =>
    match t.stage with
    | .fresh => true
    | .awaitingCycle => s.cycleLock.isHeldBy id
    | .awaitingTransport _ => s.transport.isHeldBy id
    | .awaitingWrite _ _ => s.transport.isHeldBy id
    | .reading _ _ _ due => s.hub.cancelled || due ≤ s.now
    | .writing _ _ _ _ => true
    | .idle =>
      match t.job with
      | .updates _ => s.hub.cancelled || t.nextTick ≤ s.now || s.isRung id
      | _ => t.nextTick ≤ s.now
    | .finished _ => false

def wakeHolder (hub : Hub) (lock : Lock) : Hub :=
  match lock.holder with
  | none => hub
  | some task => hub.wake task

def requestCycle (s : System) (id : TaskId) : System :=
  { s with cycleLock := s.cycleLock.request id }.setStage id .awaitingCycle

def releaseCycle (s : System) : System :=
  let cycleLock := s.cycleLock.release
  { s with cycleLock, hub := wakeHolder s.hub cycleLock }

def requestTransport (s : System) (id : TaskId) (stage : Stage) : System :=
  { s with transport := s.transport.request id }.setStage id stage

def releaseTransport (s : System) : System :=
  let transport := s.transport.release
  { s with transport, hub := wakeHolder s.hub transport }

def finish (s : System) (id : TaskId) (outcome : Outcome) : System :=
  s.setStage id (.finished outcome)

-- Lets an update loop wait. If there is nothing for it to do, it listens to the bell.
def rest (s : System) (id : TaskId) : System :=
  let s := s.setStage id .idle
  if s.enabled id then s
  else { s with hub.doorbell.waiting := s.hub.doorbell.waiting ++ [id] }

-- Listeners hear of the first failure after a success.
def recordFailure (s : System) (id : TaskId) : System :=
  if s.hub.lastSuccess then
    let s := s.mapHub fun hub => { hub with lastSuccess := false }
    s.callEach id s.hub.registry.listeners
  else s

-- How a refresh went is kept, unless it was abandoned.
def keepOutcome (s : System) (id : TaskId) : Except HubError (AddressMap CachedValue) → System
  | .ok _ => s.mapHub Hub.recordSuccess
  | .error .cancelled => s
  | .error _ => s.recordFailure id

-- A refresh has come to its end and holds no lock any more.
def conclude (s : System) (id : TaskId) (result : Except HubError (AddressMap CachedValue)) :
    System :=
  let s := s.note id (.returns result)
  match s.job? id with
  | some .cycle =>
    (s.keepOutcome id result).finish id (result.map fun values => .counted values.size)
  | some (.updates _) =>
    let s := s.keepOutcome id result
    match result with
    | .error .cancelled => s.finish id (.ok .stopped)
    | _ => s.rest id
  | _ => s.finish id (result.map .refreshed)

-- Goes on to the next address of a cycle, or ends the cycle if there is none.
def proceed (s : System) (id : TaskId) (cycle : HubCycle) : System :=
  match cycle.pending with
  | [] => s.releaseCycle.conclude id (.ok cycle.result)
  | _ :: _ => s.requestTransport id (.awaitingTransport cycle)

-- Ends a cycle early. Listeners that wait for an address but have seen another one refreshed are
-- called first.
def abort (s : System) (id : TaskId) (cycle : HubCycle) (error : HubError) : System :=
  (((s.note id .abandons).callEach id cycle.waiting).releaseTransport.releaseCycle).conclude id
    (.error error)

-- The cycle lock has been obtained. The listeners that are registered now are those of the
-- cycle.
def beginCycle (s : System) (id : TaskId) : System :=
  if s.hub.cancelled then s.releaseCycle.conclude id (.error .cancelled)
  else
    let listeners := s.hub.registry.listeners
    (s.note id (.begins listeners)).proceed id (Cycle.plan listeners)

-- Begins an attempt at an address, which is the next one of the cycle.
def beginAttempt (s : System) (id : TaskId) (cycle : HubCycle) (a : Address) (revision : UInt64)
    (attempt : Nat) : System :=
  if s.hub.cancelled then s.abort id cycle .cancelled
  else
    ((s.mapHub (·.beginRead a)).note id (.asks a)).setStage id
      (.reading cycle revision attempt (s.now + s.hub.gateway.readDelay))

-- The transport has been obtained for the next address of a cycle.
def beginRead (s : System) (id : TaskId) (cycle : HubCycle) (a : Address) : System :=
  let (revision, s) := s.reserve id
  s.beginAttempt id cycle a revision 1

-- Settles an address, calls the listeners that this completes, and gives the transport up.
def settleAddress (s : System) (id : TaskId) (cycle : HubCycle) (a : Address)
    (stored : Option CachedValue) : System :=
  let (cycle, completed) := cycle.settle stored
  ((s.note id (.settles a)).callEach id completed).releaseTransport.proceed id cycle

def readAnswered (s : System) (id : TaskId) (cycle : HubCycle) (a : Address) (revision : UInt64)
    (attempt : Nat) (result : FetchResult CoilValue) : System :=
  match Retry.conclude? attempt (Retry.limit s.hub.settings.readRetries - attempt) result with
  | none => s.beginAttempt id cycle a revision (attempt + 1)
  | some (.ok value) =>
    let (stored, s) := s.store id revision a value
    s.settleAddress id cycle a stored
  | some (.error (.rejected (.notFound _))) => s.settleAddress id cycle a none
  | some (.error .cancelled) => s.abort id cycle .cancelled
  | some (.error (.rejected e)) => s.abort id cycle (.refreshFailed a e)
  | some (.error (.exhausted _ e)) => s.abort id cycle (.refreshFailed a e)

def beginWrite (s : System) (id : TaskId) (a : Address) (value : CoilValue) : System :=
  let (revision, s) := s.reserve id
  ((s.mapHub (·.beginWrite a value)).note id (.sends a value)).setStage id
    (.writing a value revision (!s.hub.cache.isEmpty))

-- A write has been answered. Listeners hear of it only if there was any data before it.
def writeAnswered (s : System) (id : TaskId) (a : Address) (revision : UInt64) (hadData : Bool) :
    FetchResult CoilValue → System
  | .error e => s.releaseTransport.finish id (.error (.writeFailed a e))
  | .ok ack =>
    let (_, s) := s.store id revision a ack
    let s := if hadData then s.callEach id (s.hub.registry.watching a) else s
    s.releaseTransport.finish id (.ok (.acknowledged ack))

-- A tick that comes more than 5 ms late moves all later ones.
def tickAfter (due now period : Nat) : Nat := if due + 5 < now then now + period else due + period

-- What an update loop does when it can go on. A shutdown comes before a tick, and a tick before a
-- request.
def update (s : System) (id : TaskId) (period : Nat) (nextTick : Nat) : System :=
  if s.hub.cancelled then (s.leaveDoorbell id).finish id (.ok .stopped)
  else if nextTick ≤ s.now then
    ((s.leaveDoorbell id).mapTask id fun t =>
      { t with nextTick := tickAfter nextTick s.now period }).requestCycle id
  else (s.answerBell id).requestCycle id

def begin (s : System) (id : TaskId) : Job → System
  | .refresh | .cycle => s.requestCycle id
  | .write a value =>
    if s.hub.cancelled then s.finish id (.error .cancelled)
    else s.requestTransport id (.awaitingWrite a value)
  | .start =>
    let (result, hub) := s.hub.start
    { s with hub }.finish id (result.map fun _ => .started)
  | .shutdown => (s.mapHub Hub.shutdown).finish id (.ok .stopped)
  | .updates period =>
    if period = 0 then s.finish id (.ok .stopped)
    else (s.mapTask id fun t => { t with nextTick := s.now }).rest id
  | .drift period =>
    if period = 0 then s.finish id (.ok .stopped)
    else (s.mapTask id fun t => { t with nextTick := s.now }).setStage id .idle

def driftOnce (s : System) (id : TaskId) (t : Task) (period : Nat) : System :=
  (s.mapHub (·.mapPump (·.drift (t.ticks + 1)))).mapTask id fun t =>
    { t with nextTick := t.nextTick + period, ticks := t.ticks + 1 }

-- One step of a task, from one point where it may have to wait to the next. Nobody gets in between, not even
-- with several threads, which is an assumption about what the tasks run on. A task that cannot go on stays
-- where it is.
def step (s : System) (id : TaskId) : System :=
  match s.tasks[id]? with
  | none => s
  | some t =>
    if !s.enabled id then s
    else
      match t.stage with
      | .fresh => s.begin id t.job
      | .awaitingCycle => s.beginCycle id
      -- a cycle that talks to the pump has an address left
      | .awaitingTransport cycle =>
        match cycle.pending with
        | [] => s
        | (a, _) :: _ => s.beginRead id cycle a
      | .reading cycle revision attempt _ =>
        match cycle.pending with
        | [] => s
        | (a, _) :: _ =>
          if s.hub.cancelled then s.abort id cycle .cancelled
          else
            let (result, hub) := s.hub.finishRead a
            ({ s with hub }.note id (.hears a result)).readAnswered id cycle a revision attempt
              result
      | .awaitingWrite a value => s.beginWrite id a value
      | .writing a value revision hadData =>
        let (result, hub) := s.hub.finishWrite a value
        ({ s with hub }.note id (.receives a result)).writeAnswered id a revision hadData result
      | .idle =>
        match t.job with
        | .updates period => s.update id period t.nextTick
        | .drift period => s.driftOnce id t period
        | _ => s
      | .finished _ => s

def spawn (s : System) (job : Job) : System :=
  { s with tasks := s.tasks ++ [{ job }], hub := s.hub.wake s.tasks.length }

def stop (s : System) (id : TaskId) : System := s.finish id (.ok .stopped)

end System

end CoilHub
