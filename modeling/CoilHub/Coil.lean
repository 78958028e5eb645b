import CoilHub.Address
import CoilHub.Decimal.Reading
import CoilHub.Model

namespace CoilHub

structure Coil where
  address : Address
  -- the name for machines
  name : String
  -- the name for people
  title : String
  unit : Option String := none
  writable : Bool := false
deriving DecidableEq

namespace Coil

def outdoorTemperature : Address := 40004
def supplyTemperature : Address := 40008
def returnTemperature : Address := 40012
def hotWaterTop : Address := 40013
def degreeMinutes : Address := 43005
def compressorStarts : Address := 43416
def compressorOperatingTime : Address := 43420
def heatOffset : Address := 47011
def hotWaterComfortMode : Address := 47041

-- Celsius, hours and degree minutes are the only units in the catalogue.
def celsius : String := "°C"

-- The coils of every model, below and above the addresses of those that a compressor adds.
def lowerCoils : List Coil :=
  [{ address := outdoorTemperature, name := "bt1-outdoor-temperature-40004",
     title := "BT1 Outdoor Temperature", unit := some celsius },
   { address := supplyTemperature, name := "bt2-supply-temp-s1-40008",
     title := "BT2 Supply temp S1", unit := some celsius },
   { address := returnTemperature, name := "bt3-return-temp-40012",
     title := "BT3 Return temp", unit := some celsius },
   { address := hotWaterTop, name := "bt7-hw-top-40013",
     title := "BT7 HW Top", unit := some celsius },
   { address := degreeMinutes, name := "degree-minutes-43005",
     title := "Degree Minutes", unit := some "DM", writable := true }]

def compressorCoils : List Coil :=
  [{ address := compressorStarts, name := "compressor-starts-eb100-ep14-43416",
     title := "Compressor starts EB100-EP14" },
   { address := compressorOperatingTime, name := "compressor-operating-time-eb100-ep14-43420",
     title := "Compressor operating time EB100-EP14", unit := some "h" }]

def upperCoils : List Coil :=
  [{ address := heatOffset, name := "heat-offset-s1-47011",
     title := "Heat Offset S1", writable := true },
   { address := hotWaterComfortMode, name := "hot-water-comfort-mode-47041",
     title := "Hot water comfort mode", writable := true }]

end Coil

namespace Model

def coils (m : Model) : List Coil :=
  Coil.lowerCoils ++ (if m.hasCompressor then Coil.compressorCoils else []) ++ Coil.upperCoils

-- The coil of a key, which is an address or a machine name.
def findCoil? (m : Model) (key : String) : Option Coil :=
  let address := readNat? 65535 key.toList
  m.coils.find? fun coil => some coil.address.toNat = address || coil.name = key

theorem sorted_coils (m : Model) : (m.coils.map Coil.address).Pairwise (· < ·) := by
  cases m <;> decide

end Model

end CoilHub
