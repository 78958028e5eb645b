import CoilHub.Proofs.CommandLine.Reading

namespace CoilHub

namespace Arguments

variable {n : Int} {key text : String}

end Arguments

namespace Probe

variable {opts : List String} {env loaded : Environment} {file : Option ByteArray} {model : Model}
  {retries : UInt32} {s : System} {coil : Coil} {key text raw : String} {n : Int64}

-- The pump takes any value for a coil that can be written.
theorem Ready.write (h : Ready model s) (hcoil : coil ∈ model.coils) (value : CoilValue) :
    (s.hub.gateway.write coil.address value).1 =
      if coil.writable then .ok value else .error (Pump.readOnly coil.address) := by
  let p : Pump := { Pump.ofModel model with running := true }
  have hfault : Pump.takeFault p.writeFaults coil.address = none := by
    show Pump.takeFault (Pump.ofModel model).writeFaults coil.address = none
    rw [(Pump.fresh_ofModel model).writeFaults]
    rfl
  have hfound : p.coil? coil.address = some coil := by
    show (Pump.ofModel model).coil? coil.address = some coil
    rw [Pump.coil?, Pump.get?_ofModel hcoil]
    rfl
  have hwrite : p.write coil.address value =
      if coil.writable then (.ok value, p.setValue coil.address value)
      else (.error (Pump.readOnly coil.address), p) := by
    rw [Pump.write, hfault]
    dsimp only
    rw [hfound]
  rw [h.gateway, Gateway.write]
  dsimp only
  rw [hwrite]
  cases coil.writable <;> rfl

end Probe

end CoilHub
