import CoilHub.Address.Map

namespace CoilHub

-- The interests of listeners turned round. Addresses stand in the order in which the listeners
-- bring them up.
structure InterestMap where
  interests : List AddressSet
  entries : List (Address × List Nat)

namespace InterestMap

-- One more watcher of an address, which comes last if nobody watched it before.
def addWatcher (watcher : Nat) (a : Address) :
    List (Address × List Nat) → List (Address × List Nat)
  | [] => [(a, [watcher])]
  | (b, watchers) :: rest =>
    if a = b then (b, watchers ++ [watcher]) :: rest
    else (b, watchers) :: addWatcher watcher a rest

-- All addresses of one listener, in rising order.
def addListener (entries : List (Address × List Nat)) (interest : AddressSet) (watcher : Nat) :
    List (Address × List Nat) :=
  interest.elems.foldl (fun entries a => addWatcher watcher a entries) entries

def addAll (entries : List (Address × List Nat)) :
    List AddressSet → Nat → List (Address × List Nat)
  | [], _ => entries
  | interest :: rest, watcher => addAll (addListener entries interest watcher) rest (watcher + 1)

def build (interests : List AddressSet) : InterestMap where
  interests := interests
  entries := addAll [] interests 0

def addresses (m : InterestMap) : List Address := m.entries.map Prod.fst

def size (m : InterestMap) : Nat := m.entries.length

def isEmpty (m : InterestMap) : Bool := m.entries.isEmpty

-- The entries so far, and a table of the places where they stand, so that none has to be searched for.
structure Draft where
  entries : List (Address × List Nat) := []
  places : AddressMap Nat := .empty

namespace Draft

-- The place of an address. A new one comes last, and has no watchers yet.
def place (d : Draft) (a : Address) : Nat × Draft :=
  match d.places.get? a with
  | some place => (place, d)
  | none =>
    (d.entries.length,
      { entries := d.entries ++ [(a, [])], places := d.places.insert a d.entries.length })

-- This fails if nothing stands at the place that the table tells.
def addWatcher (watcher : Nat) (a : Address) (d : Draft) : Option Draft :=
  let (place, placed) := d.place a
  placed.entries[place]?.map fun entry =>
    { placed with entries := placed.entries.set place (entry.1, entry.2 ++ [watcher]) }

def addListener (watcher : Nat) : List Address → Draft → Option Draft
  | [], d => some d
  | a :: rest, d => (d.addWatcher watcher a).bind (addListener watcher rest)

def addAll : List AddressSet → Nat → Draft → Option Draft
  | [], _, d => some d
  | interest :: rest, watcher, d =>
    (addListener watcher interest.elems d).bind (addAll rest (watcher + 1))

end Draft

-- The map built with a table of places.
def tabulate? (interests : List AddressSet) : Option InterestMap :=
  (Draft.addAll interests 0 {}).map fun d => { interests, entries := d.entries }

end InterestMap

end CoilHub
