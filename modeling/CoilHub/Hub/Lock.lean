import CoilHub.Hub.Basic

namespace CoilHub

-- A lock that serves its waiters in the order in which they came. When it is given up it passes to the first
-- of them at once, so that nobody can get in between.
structure Lock where
  holder : Option TaskId := none
  waiting : List TaskId := []
deriving DecidableEq

namespace Lock

def isHeldBy (l : Lock) (task : TaskId) : Bool := l.holder = some task

-- Takes the lock if it is free, and queues for it otherwise.
def request (l : Lock) (task : TaskId) : Lock :=
  match l.holder with
  | none => { l with holder := some task }
  | some _ => { l with waiting := l.waiting ++ [task] }

def release (l : Lock) : Lock :=
  match l.waiting with
  | [] => { l with holder := none }
  | task :: waiting => { holder := some task, waiting }

-- The tasks at a lock: the holder, and then those that wait.
def queue (l : Lock) : List TaskId := l.holder.toList ++ l.waiting

-- Nobody waits for a free lock.
def Fair (l : Lock) : Prop := l.holder = none → l.waiting = []

theorem queue_request {l : Lock} (h : l.Fair) (task : TaskId) :
    (l.request task).queue = l.queue ++ [task] := by
  cases hl : l.holder with
  | none => simp [request, queue, hl, h hl]
  | some other => simp [request, queue, hl]

theorem queue_release {l : Lock} (h : l.Fair) : l.release.queue = l.queue.tail := by
  cases hl : l.holder with
  | none => simp [release, queue, hl, h hl]
  | some other => cases hw : l.waiting <;> simp [release, queue, hl, hw]

theorem fair_request {l : Lock} (task : TaskId) : (l.request task).Fair := by
  cases hl : l.holder <;> simp [request, Fair, hl]

theorem fair_release {l : Lock} : l.release.Fair := by
  cases hw : l.waiting <;> simp [release, Fair, hw]

end Lock

end CoilHub
