namespace CoilHub

inductive Model
  | f1145
  | f1155
  | f1245
  | f1255
  | f1345
  | f1355
  | f370
  | f470
  | f730
  | f750
  | smo20
  | smo40
  | vvm225
  | vvm310
  | vvm320
  | vvm325
  | vvm500
deriving DecidableEq

namespace Model

def all : List Model :=
  [f1145, f1155, f1245, f1255, f1345, f1355, f370, f470, f730, f750, smo20, smo40,
    vvm225, vvm310, vvm320, vvm325, vvm500]

def name : Model → String
  | f1145 => "F1145"
  | f1155 => "F1155"
  | f1245 => "F1245"
  | f1255 => "F1255"
  | f1345 => "F1345"
  | f1355 => "F1355"
  | f370 => "F370"
  | f470 => "F470"
  | f730 => "F730"
  | f750 => "F750"
  | smo20 => "SMO20"
  | smo40 => "SMO40"
  | vvm225 => "VVM225"
  | vvm310 => "VVM310"
  | vvm320 => "VVM320"
  | vvm325 => "VVM325"
  | vvm500 => "VVM500"

def named? (s : String) : Option Model := all.find? (·.name = s)

-- A name without regard to the case of its letters.
def lowered (s : String) : List Char := s.toList.map Char.toLower

-- A typed model name, in any case.
def read? (s : String) : Option Model := all.find? fun m => lowered m.name = lowered s

-- The SMO modules drive a compressor of another maker and know nothing about it.
def hasCompressor : Model → Bool
  | smo20 | smo40 => false
  | _ => true

end Model

structure DeviceInfo where
  -- pairs of a domain and a name within it
  identifiers : List (String × String)
  manufacturer : String
  model : String
  name : String
deriving DecidableEq

namespace DeviceInfo

def domain : String := "nibe_heatpump"

def manufacturerName : String := "NIBE Energy Systems"

def ofModel (uniqueId : String) (model : Model) : DeviceInfo where
  identifiers := [(domain, uniqueId)]
  manufacturer := manufacturerName
  model := model.name
  name := model.name

end DeviceInfo

end CoilHub
