import CoilHub.Error

namespace CoilHub

-- Why there is no value after the last attempt.
inductive RetryError
  | exhausted (attempts : Nat) (last : FetchError)
  | rejected (cause : FetchError)
  | cancelled
deriving DecidableEq

def RetryError.cause? : RetryError → Option FetchError
  | exhausted _ last => some last
  | rejected cause => some cause
  | cancelled => none

namespace Retry

-- There is always a first attempt.
def limit (retries : UInt32) : Nat := max 1 retries.toNat

-- What follows from the result of an attempt: an end, or nothing if there is to be another one.
-- `left` is the number of attempts that are still allowed.
def conclude? (attempt left : Nat) : FetchResult α → Option (Except RetryError α)
  | .ok a => some (.ok a)
  | .error e =>
    if !e.isTransient then some (.error (.rejected e))
    else if left = 0 then some (.error (.exhausted attempt e))
    else none

-- How an attempt goes: what it yields, after how much time, and whether it cancels everything as it
-- starts or as it ends.
structure Attempt (α : Type) where
  result : FetchResult α
  delay : Nat := 0
  cancels : Bool := false
  cancelsAtEnd : Bool := false

structure Course (α : Type) where
  started : List Nat
  outcome : Except RetryError α

def Course.after (attempt : Nat) (later : Course α) : Course α :=
  { later with started := attempt :: later.started }

-- What comes of an attempt: the end of the course, or another attempt at that time.
inductive Turn (α : Type)
  | ends (course : Course α)
  | again (now : Nat) (cancelled : Bool)

-- Whether the time has come at which somebody else cancels, which is after all that happens at the
-- same time.
def timeUp (cancelAt : Option Nat) (now : Nat) : Bool := cancelAt.any (· < now)

-- Nothing starts once all is cancelled, and an attempt that takes time is given up at once. Any other
-- attempt comes to its end, even if it cancels everything itself.
def turn (cancelAt : Option Nat) (left attempt now : Nat) (cancelled : Bool) (this : Attempt α) :
    Turn α :=
  if cancelled || timeUp cancelAt now then .ends { started := [], outcome := .error .cancelled }
  else if this.delay ≠ 0 && (this.cancels || timeUp cancelAt (now + this.delay)) then
    .ends { started := [attempt], outcome := .error .cancelled }
  else
    match conclude? attempt left this.result with
    | some outcome => .ends { started := [attempt], outcome }
    | none => .again (now + this.delay) (this.cancels || this.cancelsAtEnd)

-- The attempts from number `attempt` on, of which `left` more are allowed after this one.
def run (attempts : Nat → Attempt α) (cancelAt : Option Nat) :
    (left attempt now : Nat) → (cancelled : Bool) → Course α
  | 0, attempt, now, cancelled =>
    match turn cancelAt 0 attempt now cancelled (attempts attempt) with
    | .ends course => course
    -- with no attempt left the result has been conclusive
    | .again _ _ => { started := [attempt], outcome := .error .cancelled }
  | left + 1, attempt, now, cancelled =>
    match turn cancelAt (left + 1) attempt now cancelled (attempts attempt) with
    | .ends course => course
    | .again now cancelled =>
      (run attempts cancelAt left (attempt + 1) now cancelled).after attempt

theorem toNat_next {count : UInt32} (h : count.toNat + 1 < UInt32.size) :
    (count + 1).toNat = count.toNat + 1 := by
  rw [UInt32.toNat_add, UInt32.toNat_one]
  exact Nat.mod_eq_of_lt h

-- The attempts after number `count`, as they are counted: the number has 32 bits and goes up before
-- anything else is looked at. Nothing comes of it if the number overflows.
def countUp (limit : Nat) (attempts : Nat → Attempt α) (cancelAt : Option Nat) (count : UInt32)
    (now : Nat) (cancelled : Bool) : Option (Course α) :=
  if _ : count.toNat + 1 < UInt32.size then
    let attempt := (count + 1).toNat
    match turn cancelAt (limit - attempt) attempt now cancelled (attempts attempt) with
    | .ends course => some course
    | .again now cancelled =>
      (countUp limit attempts cancelAt (count + 1) now cancelled).map (·.after attempt)
  else none
termination_by UInt32.size - count.toNat
decreasing_by
  have hnext := toNat_next ‹_›
  omega

-- All attempts, from the first one on.
def perform (retries : UInt32) (attempts : Nat → Attempt α) (cancelAt : Option Nat)
    (cancelled : Bool) : Option (Course α) :=
  countUp (limit retries) attempts cancelAt 0 0 cancelled

end Retry

end CoilHub
