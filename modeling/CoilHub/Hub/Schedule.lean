import CoilHub.Hub.System

namespace CoilHub.System

-- When a task waits for a moment that is still to come.
def Task.timer? (t : Task) : Option Nat :=
  match t.stage with
  | .reading _ _ _ due => some due
  | .idle => some t.nextTick
  | _ => none

def nextTimer? (s : System) : Option Nat :=
  ((s.tasks.filterMap Task.timer?).filter (s.now < ·)).min?

-- Tasks that were given something to go on with come first, in that order, and then those whose
-- time has come. The task in the foreground waits until no other one can go on.
def next? (s : System) (foreground : Option TaskId) : Option TaskId :=
  let candidates := s.hub.woken ++ List.range s.tasks.length
  (candidates.find? fun id => some id ≠ foreground && s.enabled id).or
    (foreground.filter (s.enabled ·))

-- A task that takes its turn is no longer waiting for it.
def takeTurn (s : System) (id : TaskId) : System :=
  { s with hub.woken := s.hub.woken.erase id }

-- `current` is the task that has the only thread. It keeps the thread until it has to wait. Time stands still
-- while any task can go on, and then moves to the next moment at which one can.
def runWithin (foreground : Option TaskId) : Nat → Option TaskId → System → System
  | 0, _, s => s
  | fuel + 1, current, s =>
    match current.filter (s.enabled ·) with
    | some id => runWithin foreground fuel (some id) (s.step id)
    | none =>
      match s.next? foreground with
      | none => { s with hub.woken := [] }
      | some id => runWithin foreground fuel (some id) (s.takeTurn id)

-- How many steps may be made at one moment. Only listeners that keep asking for more cycles can
-- use them up.
def patience : Nat := 1000000

-- Lets all tasks run until each of them waits.
def settle (s : System) (foreground : Option TaskId := none) : System :=
  runWithin foreground patience none s

-- Lets time pass until the condition holds, but only as long as a given moment is still to come.
def waitWithin (foreground : Option TaskId) (done : System → Bool) (deadline : Option Nat) :
    Nat → System → System
  | 0, s => s
  | fuel + 1, s =>
    let s := s.settle foreground
    if done s then s
    else
      match s.nextTimer? with
      | some time =>
        if deadline.any (· ≤ time) then s
        else waitWithin foreground done deadline fuel { s with now := time }
      | none => s

-- Lets a number of milliseconds pass. Tasks whose time comes at the very end of them have yet to
-- run.
def sleep (s : System) (duration : Nat) : System :=
  let deadline := s.now + duration
  { waitWithin none (fun _ => false) (some deadline) (duration + 1) s with now := deadline }

def outcome? (s : System) (id : TaskId) : Option Outcome :=
  match s.stage? id with
  | some (.finished outcome) => some outcome
  | _ => none

def isFinished (s : System) (id : TaskId) : Bool := (s.outcome? id).isSome

def join (s : System) (id : TaskId) (foreground : Option TaskId := none) : System :=
  waitWithin foreground (·.isFinished id) none patience s

-- Runs a job in the foreground. It begins at once, and others run while it waits.
def run (s : System) (job : Job) : Option Outcome × System :=
  let id := s.tasks.length
  let s := { s with tasks := s.tasks ++ [{ job }] }
  let s := runWithin (some id) patience (some id) s
  let s := s.join id (some id)
  (s.outcome? id, s)

end CoilHub.System
