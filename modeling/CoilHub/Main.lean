import CoilHub.CommandLine.Probe

namespace CoilHub.Program

-- A file of the working directory. One that cannot be read counts as missing.
def readFile (name : String) : IO (Option ByteArray) := do
  try return some (← IO.FS.readBinFile name) catch _ => return none

-- The environment, as far as the program or the file of definitions names variables.
def readEnvironment (file : Option ByteArray) : IO Environment := do
  let defined := match file.bind String.fromUTF8? with
    | some text => (Definition.ofText text).map Definition.name
    | none => []
  let vars ← (Config.variableNames ++ defined).filterMapM fun name => do
    return (← IO.getEnv name).map fun value => (name, .text value)
  return { vars }

-- Runs the probe with its arguments, and says how the program is to exit.
def run (args : List String) : IO UInt32 := do
  let file ← readFile ".env"
  let exit := Probe.run args (← readEnvironment file) file
  exit.log.forM fun line => IO.eprintln line
  IO.print exit.output
  return UInt32.ofNat exit.code

end CoilHub.Program

def main (args : List String) : IO UInt32 := CoilHub.Program.run args
