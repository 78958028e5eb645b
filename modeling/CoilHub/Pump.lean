import CoilHub.Address.Map
import CoilHub.Binary64.Arithmetic
import CoilHub.Coil
import CoilHub.Error
import CoilHub.Value

namespace CoilHub

-- A heat pump that lives in memory. Failures can be scripted: they wait in a queue for each address, one for
-- reads and one for writes.
structure Pump where
  model : Model
  coils : AddressMap (Coil × CoilValue) := .empty
  readFaults : AddressMap (List FetchError) := .empty
  writeFaults : AddressMap (List FetchError) := .empty
  -- the latest read attempts, oldest first
  readLog : List Address := []
  -- how long each read takes
  readDelay : Nat := 0
  running : Bool := false

namespace Pump

def logCapacity : Nat := 1024

-- A winter's day.
def initialValue (a : Address) : CoilValue :=
  if a = Coil.outdoorTemperature then .float (.ofDecimal false 45 (-1))
  else if a = Coil.supplyTemperature then .float (.ofDecimal false 352 (-1))
  else if a = Coil.returnTemperature then .float (.ofDecimal false 298 (-1))
  else if a = Coil.hotWaterTop then .float (.ofDecimal false 481 (-1))
  else if a = Coil.degreeMinutes then .float (.ofDecimal true 120 0)
  else if a = Coil.compressorStarts then .integer 1843
  else if a = Coil.compressorOperatingTime then .integer 9120
  else if a = Coil.hotWaterComfortMode then .integer 1
  else .integer 0

def withCoil (p : Pump) (coil : Coil) (value : CoilValue) : Pump :=
  { p with coils := p.coils.insert coil.address (coil, value) }

def ofModel (model : Model) : Pump :=
  model.coils.foldl (fun p coil => p.withCoil coil (initialValue coil.address)) { model }

def coil? (p : Pump) (a : Address) : Option Coil := (p.coils.get? a).map Prod.fst

def value? (p : Pump) (a : Address) : Option CoilValue := (p.coils.get? a).map Prod.snd

def allCoils (p : Pump) : List Coil := p.coils.entries.map (·.2.1)

-- A change of a value by the device itself. A coil that it does not have stays away.
def setValue (p : Pump) (a : Address) (value : CoilValue) : Pump :=
  match p.coils.get? a with
  | none => p
  | some (coil, _) => { p with coils := p.coils.insert a (coil, value) }

def queue (faults : AddressMap (List FetchError)) (a : Address) (e : FetchError) :
    AddressMap (List FetchError) :=
  faults.insert a ((faults.get? a).getD [] ++ [e])

def failRead (p : Pump) (a : Address) (e : FetchError) : Pump :=
  { p with readFaults := queue p.readFaults a e }

def failWrite (p : Pump) (a : Address) (e : FetchError) : Pump :=
  { p with writeFaults := queue p.writeFaults a e }

-- The next scripted failure of an address, if there is one left.
def takeFault (faults : AddressMap (List FetchError)) (a : Address) :
    Option (FetchError × AddressMap (List FetchError)) :=
  match faults.get? a with
  | some (e :: rest) => some (e, faults.insert a rest)
  | _ => none

-- The log forgets its oldest entry when it is full.
def logRead (log : List Address) (a : Address) : List Address :=
  (if log.length = logCapacity then log.drop 1 else log) ++ [a]

def beginRead (p : Pump) (a : Address) : Pump := { p with readLog := logRead p.readLog a }

-- A read attempt comes to its end, which is when a scripted failure is taken.
def finishRead (p : Pump) (a : Address) : FetchResult CoilValue × Pump :=
  match takeFault p.readFaults a with
  | some (e, readFaults) => (.error e, { p with readFaults })
  | none =>
    match p.value? a with
    | some value => (.ok value, p)
    | none => (.error (.notFound a), p)

def readOnly (a : Address) : FetchError :=
  .fatal ("coil " ++ String.ofList (decimalDigits a.toNat) ++ " is read-only")

-- A write. A scripted failure comes before everything else.
def write (p : Pump) (a : Address) (value : CoilValue) : FetchResult CoilValue × Pump :=
  match takeFault p.writeFaults a with
  | some (e, writeFaults) => (.error e, { p with writeFaults })
  | none =>
    match p.coil? a with
    | none => (.error (.notFound a), p)
    | some coil =>
      if coil.writable then (.ok value, p.setValue a value) else (.error (readOnly a), p)

theorem value?_setValue (p : Pump) (a b : Address) (value : CoilValue) :
    (p.setValue a value).value? b
      = if b = a ∧ (p.coil? a).isSome then some value else p.value? b := by
  cases h : p.coils.get? a with
  | none => simp [setValue, coil?, h]
  | some entry =>
    obtain ⟨coil, old⟩ := entry
    simp only [setValue, coil?, value?, h, AddressMap.get?_insert]
    split <;> simp_all

theorem coil?_setValue (p : Pump) (a b : Address) (value : CoilValue) :
    (p.setValue a value).coil? b = p.coil? b := by
  cases h : p.coils.get? a with
  | none => simp [setValue, h]
  | some entry =>
    obtain ⟨coil, old⟩ := entry
    simp only [setValue, coil?, h, AddressMap.get?_insert]
    split <;> simp_all

-- Two temperatures drift, down by two tenths and up by three in turn, and stay whole tenths.
def driftDelta (step : Nat) : Binary64 :=
  if step % 2 = 0 then .ofDecimal false 3 (-1) else .ofDecimal true 2 (-1)

def drifted (x delta : Binary64) : Binary64 :=
  (((x.add delta).mul (.ofInt 10)).roundAway).div (.ofInt 10)

def driftCoil (p : Pump) (step : Nat) (a : Address) : Pump :=
  match (p.value? a).bind CoilValue.number? with
  | some x => p.setValue a (.float (drifted x (driftDelta step)))
  | none => p

-- One step of the drift. Steps are counted from one.
def drift (p : Pump) (step : Nat) : Pump :=
  (p.driftCoil step Coil.outdoorTemperature).driftCoil step Coil.supplyTemperature

end Pump

end CoilHub
