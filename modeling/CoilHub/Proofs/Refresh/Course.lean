import CoilHub.Proofs.Interleaving.Turn
import CoilHub.Proofs.Refresh.Progress

namespace CoilHub

open CoilHub.System (Obtains)

def settledIn (deeds : List Deed) : List Address :=
  deeds.filterMap fun
    | .settles a => some a
    | _ => none

def storedIn (deeds : List Deed) : List Address :=
  deeds.filterMap fun
    | .offers _ a _ true => some a
    | _ => none

def calledIn (deeds : List Deed) : List HubListener :=
  deeds.flatMap fun
    | .calls _ ls => ls
    | _ => []

@[simp] theorem settledIn_append (deeds more : List Deed) :
    settledIn (deeds ++ more) = settledIn deeds ++ settledIn more := List.filterMap_append

@[simp] theorem storedIn_append (deeds more : List Deed) :
    storedIn (deeds ++ more) = storedIn deeds ++ storedIn more := List.filterMap_append

@[simp] theorem calledIn_append (deeds more : List Deed) :
    calledIn (deeds ++ more) = calledIn deeds ++ calledIn more := List.flatMap_append

-- The cycle that a task is working at.
def Stage.cycle? : Stage → Option HubCycle
  | .awaitingTransport cycle | .reading cycle _ _ _ => some cycle
  | _ => none

-- The deeds since the beginning of a refresh of these listeners, and the stage that they lead to.
-- There are at most `limit` attempts at an address.
inductive Going (limit : Nat) (ls : List HubListener) : List Deed → Stage → Prop
  | begins (hp : (Cycle.plan ls).pending ≠ []) :
    Going limit ls [] (.awaitingTransport (Cycle.plan ls))
  | asks {deeds : List Deed} {cycle : HubCycle} {a : Address} {watchers : List Nat}
    {rest : List (Address × List Nat)} {revision : UInt64} {due : Nat}
    (h : Going limit ls deeds (.awaitingTransport cycle))
    (hp : cycle.pending = (a, watchers) :: rest) :
    Going limit ls (deeds ++ [.reserves revision, .asks a]) (.reading cycle revision 1 due)
  | asksAgain {deeds : List Deed} {cycle : HubCycle} {a : Address} {watchers : List Nat}
    {rest : List (Address × List Nat)} {revision : UInt64} {attempt due due' : Nat}
    {result : FetchResult CoilValue}
    (h : Going limit ls deeds (.reading cycle revision attempt due))
    (hp : cycle.pending = (a, watchers) :: rest)
    (hresult : Retry.conclude? attempt (limit - attempt) result = none) :
    Going limit ls (deeds ++ [.hears a result, .asks a])
      (.reading cycle revision (attempt + 1) due')
  | settles {deeds offers : List Deed} {cycle : HubCycle} {a : Address} {watchers : List Nat}
    {rest : List (Address × List Nat)} {revision : UInt64} {attempt due : Nat}
    {result : FetchResult CoilValue} {cache next : Cache} {stored : Option CachedValue} {hub : Hub}
    (h : Going limit ls deeds (.reading cycle revision attempt due))
    (hp : cycle.pending = (a, watchers) :: rest) (hrest : rest ≠ [])
    (hobtains : Obtains cache revision a result next offers stored) :
    Going limit ls
      (deeds ++ (.hears a result :: offers ++ [.settles a, .calls hub (cycle.settle stored).2]))
      (.awaitingTransport (cycle.settle stored).1)

-- The deeds of a whole refresh of these listeners, and its result.
inductive Course (limit : Nat) (ls : List HubListener) : List Deed → RefreshResult → Prop
  | beginsNothing (hp : (Cycle.plan ls).pending = []) : Course limit ls [] (.ok .empty)
  | settlesLast {deeds offers : List Deed} {cycle : HubCycle} {a : Address}
    {watchers : List Nat} {revision : UInt64} {attempt due : Nat} {result : FetchResult CoilValue}
    {cache next : Cache} {stored : Option CachedValue} {hub : Hub}
    (h : Going limit ls deeds (.reading cycle revision attempt due))
    (hp : cycle.pending = [(a, watchers)])
    (hobtains : Obtains cache revision a result next offers stored) :
    Course limit ls
      (deeds ++ (.hears a result :: offers ++ [.settles a, .calls hub (cycle.settle stored).2]))
      (.ok (cycle.settle stored).1.result)
  | withdraws {deeds : List Deed} {cycle : HubCycle} {revision : UInt64} {hub : Hub}
    (h : Going limit ls deeds (.awaitingTransport cycle)) :
    Course limit ls (deeds ++ [.reserves revision, .abandons, .calls hub cycle.waiting])
      (.error .cancelled)
  | givesUp {deeds : List Deed} {cycle : HubCycle} {revision : UInt64} {attempt due : Nat}
    {hub : Hub} (h : Going limit ls deeds (.reading cycle revision attempt due)) :
    Course limit ls (deeds ++ [.abandons, .calls hub cycle.waiting]) (.error .cancelled)
  | fails {deeds : List Deed} {cycle : HubCycle} {a : Address} {watchers : List Nat}
    {rest : List (Address × List Nat)} {revision : UInt64} {attempt due : Nat} {e : FetchError}
    {hub : Hub} (h : Going limit ls deeds (.reading cycle revision attempt due))
    (hp : cycle.pending = (a, watchers) :: rest)
    (hresult : ∃ reason, Retry.conclude? attempt (limit - attempt) (.error e) =
      some (.error reason : Except RetryError CoilValue))
    (hfound : ∀ b, e ≠ .notFound b) :
    Course limit ls (deeds ++ [.hears a (.error e), .abandons, .calls hub cycle.waiting])
      (.error (.refreshFailed a e))

theorem Going.cycle?_ne_none {limit : Nat} {ls : List HubListener} {deeds : List Deed}
    {stage : Stage} (h : Going limit ls deeds stage) : stage.cycle? ≠ none := by
  cases h <;> simp [Stage.cycle?]

end CoilHub
