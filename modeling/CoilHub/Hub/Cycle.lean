import CoilHub.Cache
import CoilHub.InterestMap
import CoilHub.Registry

namespace CoilHub

-- A refresh cycle. It works on the listeners as they were when it began, goes through the addresses that
-- they watch, and tells which of them are to be called: each one once, as soon as the last of its addresses
-- is settled, and only if one of them was refreshed.
structure Cycle (η κ : Type) where
  listeners : List (Listener η κ)
  -- the addresses still to be read, with the positions of their watchers
  pending : List (Address × List Nat)
  -- for each listener, how many of its addresses are still to be settled
  unresolved : List Nat
  -- for each listener, whether one of its addresses was refreshed
  refreshed : List Bool
  result : AddressMap CachedValue := .empty

namespace Cycle

variable {η κ : Type}

def plan (listeners : List (Listener η κ)) : Cycle η κ where
  listeners := listeners
  pending := (InterestMap.build (listeners.map (·.interest))).entries
  unresolved := listeners.map (·.interest.size)
  refreshed := listeners.map fun _ => false

-- One address of a listener is settled.
def countDown (unresolved : List Nat) (watchers : List Nat) : List Nat :=
  watchers.foldl (fun counts w => counts.modify w (· - 1)) unresolved

def mark (refreshed : List Bool) (watchers : List Nat) : List Bool :=
  watchers.foldl (fun marks w => marks.set w true) refreshed

-- The listener at a position, if it has a refreshed address and the test holds for the number of
-- those that are unsettled.
def listenerIf (c : Cycle η κ) (test : Nat → Bool) (w : Nat) : Option (Listener η κ) :=
  if c.refreshed[w]?.getD false && test (c.unresolved[w]?.getD 0) then c.listeners[w]? else none

-- Settles the next address, with the value stored for it if it was refreshed. Yields the
-- listeners that this completes, in their order.
def settle (c : Cycle η κ) (stored : Option CachedValue) : Cycle η κ × List (Listener η κ) :=
  match c.pending with
  | [] => (c, [])
  | (a, watchers) :: pending =>
    let next : Cycle η κ :=
      { c with
        pending
        unresolved := countDown c.unresolved watchers
        refreshed := if stored.isSome then mark c.refreshed watchers else c.refreshed
        result := match stored with
          | some cached => c.result.insert a cached
          | none => c.result }
    (next, watchers.filterMap (next.listenerIf (· = 0)))

-- The listeners to call when the cycle ends early: those that have a refreshed address and were
-- not called yet, because they wait for another one.
def waiting (c : Cycle η κ) : List (Listener η κ) :=
  (List.range c.listeners.length).filterMap (c.listenerIf (0 < ·))

-- The same bookkeeping as it is carried out, one watcher after another. It fails where a position is
-- past the end of a list, and where one is to be taken from a count of zero.
def countOff? (counts : List Nat) (w : Nat) : Option (List Nat) :=
  match counts[w]? with
  | some (count + 1) => some (counts.set w count)
  | _ => none

def mark? (marks : List Bool) : List Nat → Option (List Bool)
  | [] => some marks
  | w :: rest => if w < marks.length then mark? (marks.set w true) rest else none

def listenerIf? (c : Cycle η κ) (test : Nat → Bool) (w : Nat) : Option (Option (Listener η κ)) :=
  match c.unresolved[w]?, c.refreshed[w]?, c.listeners[w]? with
  | some count, some marked, some l => some (if marked && test count then some l else none)
  | _, _, _ => none

-- Each watcher is called before the next one is counted down.
def countDown? (c : Cycle η κ) : List Nat → Option (Cycle η κ × List (Listener η κ))
  | [] => some (c, [])
  | w :: rest =>
    (countOff? c.unresolved w).bind fun unresolved =>
      let next := { c with unresolved }
      (next.listenerIf? (· = 0) w).bind fun called =>
        (countDown? next rest).map fun (last, later) => (last, called.toList ++ later)

def settle? (c : Cycle η κ) (stored : Option CachedValue) :
    Option (Cycle η κ × List (Listener η κ)) :=
  match c.pending with
  | [] => some (c, [])
  | (a, watchers) :: pending =>
    (if stored.isSome then mark? c.refreshed watchers else some c.refreshed).bind fun refreshed =>
      let result :=
        match stored with
        | some cached => c.result.insert a cached
        | none => c.result
      countDown? { c with pending, refreshed, result } watchers

def listenersIf? (c : Cycle η κ) (test : Nat → Bool) : List Nat → Option (List (Listener η κ))
  | [] => some []
  | w :: rest =>
    (c.listenerIf? test w).bind fun l => (listenersIf? c test rest).map (l.toList ++ ·)

def waiting? (c : Cycle η κ) : Option (List (Listener η κ)) :=
  c.listenersIf? (0 < ·) (List.range c.listeners.length)

-- A cycle as far as these outcomes go, and the listeners that were called on the way. An outcome is
-- the value that was stored, or nothing if there was none to store.
def run? (listeners : List (Listener η κ)) (outcomes : List (Option CachedValue)) :
    Option (Cycle η κ × List (Listener η κ)) :=
  outcomes.foldlM (fun (c, called) stored =>
    (c.settle? stored).map fun (next, completed) => (next, called ++ completed))
    (plan listeners, [])

end Cycle

end CoilHub
