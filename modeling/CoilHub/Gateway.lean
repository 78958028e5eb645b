import CoilHub.Pump

namespace CoilHub

inductive Source
  | pump (p : Pump)
  -- reads every address as its own number and acknowledges every write
  | echo

-- What the hub talks to. A gateway passes calls on to its source, and can be told to refuse a start or to
-- acknowledge something else than was written.
structure Gateway where
  source : Source
  startFault : Option FetchError := none
  acks : AddressMap (List CoilValue) := .empty

namespace Gateway

def mapPump (g : Gateway) (f : Pump → Pump) : Gateway :=
  match g.source with
  | .pump p => { g with source := .pump (f p) }
  | .echo => g

def pump? (g : Gateway) : Option Pump :=
  match g.source with
  | .pump p => some p
  | .echo => none

def readDelay (g : Gateway) : Nat :=
  match g.source with
  | .pump p => p.readDelay
  | .echo => 0

def beginRead (g : Gateway) (a : Address) : Gateway := g.mapPump (·.beginRead a)

def finishRead (g : Gateway) (a : Address) : FetchResult CoilValue × Gateway :=
  match g.source with
  | .pump p =>
    let (result, p) := p.finishRead a
    (result, { g with source := .pump p })
  | .echo => (.ok (.integer (Int64.ofNat a.toNat)), g)

-- The value that is acknowledged in place of the one written.
def acknowledge (g : Gateway) (a : Address) (value : CoilValue) : CoilValue × Gateway :=
  match g.acks.get? a with
  | some (ack :: rest) => (ack, { g with acks := g.acks.insert a rest })
  | _ => (value, g)

def write (g : Gateway) (a : Address) (value : CoilValue) : FetchResult CoilValue × Gateway :=
  match g.source with
  | .pump p =>
    match p.write a value with
    | (.ok value, p) =>
      let (ack, g) := { g with source := .pump p }.acknowledge a value
      (.ok ack, g)
    | (.error e, p) => (.error e, { g with source := .pump p })
  | .echo => (.ok value, g)

def scriptAck (g : Gateway) (a : Address) (value : CoilValue) : Gateway :=
  { g with acks := g.acks.insert a ((g.acks.get? a).getD [] ++ [value]) }

-- Opens the connection, unless a refusal is due, which then is no longer due.
def start (g : Gateway) : FetchResult Unit × Gateway :=
  match g.startFault with
  | some e => (.error e, { g with startFault := none })
  | none => (.ok (), g.mapPump fun p => { p with running := true })

def stop (g : Gateway) : Gateway := g.mapPump fun p => { p with running := false }

end Gateway

end CoilHub
