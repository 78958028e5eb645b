import CoilHub.Coil

namespace CoilHub

inductive Platform
  | sensor
  | number
deriving DecidableEq

inductive DeviceClass
  | temperature
  | duration
deriving DecidableEq

inductive StateClass
  | measurement
  | totalIncreasing
deriving DecidableEq

inductive EntityCategory
  | config
  | diagnostic
deriving DecidableEq

-- Each of these has a label, by which it is shown and typed, and a title in documents.

namespace Platform

def all : List Platform := [sensor, number]

def label : Platform → String
  | sensor => "sensor"
  | number => "number"

def title : Platform → String
  | sensor => "Sensor"
  | number => "Number"

def read? (s : String) : Option Platform := all.find? (·.label = s)

end Platform

namespace DeviceClass

def all : List DeviceClass := [temperature, duration]

def label : DeviceClass → String
  | temperature => "temperature"
  | duration => "duration"

def title : DeviceClass → String
  | temperature => "Temperature"
  | duration => "Duration"

def read? (s : String) : Option DeviceClass := all.find? (·.label = s)

end DeviceClass

namespace StateClass

def all : List StateClass := [measurement, totalIncreasing]

def label : StateClass → String
  | measurement => "measurement"
  | totalIncreasing => "total_increasing"

def title : StateClass → String
  | measurement => "Measurement"
  | totalIncreasing => "TotalIncreasing"

def read? (s : String) : Option StateClass := all.find? (·.label = s)

end StateClass

namespace EntityCategory

def all : List EntityCategory := [config, diagnostic]

def label : EntityCategory → String
  | config => "config"
  | diagnostic => "diagnostic"

def title : EntityCategory → String
  | config => "Config"
  | diagnostic => "Diagnostic"

def read? (s : String) : Option EntityCategory := all.find? (·.label = s)

end EntityCategory

structure Description where
  key : String
  name : Option String := none
  unit : Option String := none
  deviceClass : Option DeviceClass := none
  stateClass : Option StateClass := none
  icon : Option String := none
  category : Option EntityCategory := none
  -- the catalogue is large, so entities are asked for one by one
  enabledByDefault : Bool := false
deriving DecidableEq

namespace Coil

def platform (coil : Coil) : Platform := if coil.writable then .number else .sensor

-- What the unit of a coil says about its values.
def deviceClass (coil : Coil) : Option DeviceClass :=
  if coil.unit = some celsius then some .temperature
  else if coil.unit = some "h" then some .duration
  else none

-- Two coils count or measure although their unit does not say so.
def stateClass (coil : Coil) : Option StateClass :=
  if coil.address = degreeMinutes then some .measurement
  else if coil.address = compressorStarts then some .totalIncreasing
  else if coil.unit = some celsius then some .measurement
  else if coil.unit = some "h" then some .totalIncreasing
  else none

def icon (coil : Coil) : Option String :=
  if coil.address = outdoorTemperature then some "mdi:thermometer"
  else if coil.address = degreeMinutes then some "mdi:thermometer-lines"
  else if coil.address = compressorStarts then some "mdi:counter"
  else none

def category (coil : Coil) : Option EntityCategory :=
  if coil.address = compressorStarts ∨ coil.address = compressorOperatingTime then some .diagnostic
  else if coil.writable then some .config
  else none

def description (coil : Coil) : Description where
  key := coil.name
  name := some coil.title
  unit := coil.unit
  deviceClass := coil.deviceClass
  stateClass := coil.stateClass
  icon := coil.icon
  category := coil.category
  enabledByDefault := coil.address = outdoorTemperature

end Coil

end CoilHub
