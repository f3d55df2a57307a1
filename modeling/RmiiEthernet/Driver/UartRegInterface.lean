import RmiiEthernet.Apb.RegisterMap
import RmiiEthernet.Driver.MdioComp
import RmiiEthernet.Driver.RmiiMacComp

/-!
# Registers behind a serial port

`uart_reg_interface` is the `reg_interface` of the example. A read sends the address with the top
bit clear and waits for a word; a write sends the address with the top bit set and the data, waits
for a word, and throws if this is not the data again.

`Process` is what such a function does with the serial port, `Calls` what the driver above does
with a `reg_interface`. The functions of `rmii_mac_comp` and `mdio_comp` are of this kind
(`run_setMac`, `run_mdio`).
-/

namespace RmiiEthernet.Driver

open RegisterMap

variable {α β σ : Type*}

/-! ## The serial port -/

/-- What a function does with the serial port until it returns or throws. Both calls of the system
give the number of bytes transferred; the bytes read are a word of the little-endian host. -/
inductive Process (α : Type*)
  | returned (a : α)
  | thrown (what : String)
  | write (bytes : List (BitVec 8)) (next : ℤ → Process α)
  | read (next : ℤ → BitVec 32 → Process α)

namespace Process

/-- One function after another; what is thrown ends both. -/
def bind : Process α → (α → Process β) → Process β
  | returned a, f => f a
  | thrown what, _ => thrown what
  | write bytes next, f => write bytes fun ret => (next ret).bind f
  | read next, f => read fun ret response => (next ret response).bind f

end Process

namespace UartRegInterface

/-- The word that asks for a register. -/
def readAddress (address : BitVec 32) : BitVec 32 := 0#32 ||| (address &&& (0xFFFFFFFF#32 >>> 1))

/-- The word that announces data for a register. -/
def writeAddress (address : BitVec 32) : BitVec 32 := (1#32 <<< 31) ||| address

/-- What `read` does with the response. -/
def takeResponse (ret : ℤ) (response : BitVec 32) : Process (BitVec 32) :=
  if ret ≠ 4 then .thrown "Failed to read response" else .returned response

/-- `uart_reg_interface::read`. -/
def read (address : BitVec 32) : Process (BitVec 32) :=
  .write (bytesOf (readAddress address)) fun ret =>
    if ret ≠ 4 then .thrown "Failed to write read address" else .read takeResponse

/-- What `write` does with the response. -/
def checkResponse (data : BitVec 32) (ret : ℤ) (response : BitVec 32) : Process Unit :=
  if ret ≠ 4 then .thrown "Failed to read write response"
  else if data ≠ response then .thrown "Failed to read back expected value"
  else .returned ()

/-- `uart_reg_interface::write`. -/
def write (address data : BitVec 32) : Process Unit :=
  .write (bytesOf (writeAddress address)) fun ret =>
    if ret ≠ 4 then .thrown "Failed to send write address"
    else .write (bytesOf data) fun ret =>
      if ret ≠ 4 then .thrown "Failed to send write data"
      else .read (checkResponse data)

end UartRegInterface

/-! ## Calls of the driver -/

/-- What the driver does with a `reg_interface` until it has its result. -/
inductive Calls (α : Type*)
  | done (a : α)
  | read (address : BitVec 32) (next : BitVec 32 → Calls α)
  | write (address data : BitVec 32) (next : Calls α)

namespace Calls

variable (r : RegInterface σ)

/-- The calls with an interface behind them. -/
def run : Calls α → σ → α × σ
  | done a, s => (a, s)
  | read address next, s => (next (r.read address s).1).run (r.read address s).2
  | write address data next, s => next.run (r.write address data s)

/-- The number of calls that are made. -/
def count : Calls α → σ → ℕ
  | done _, _ => 0
  | read address next, s => (next (r.read address s).1).count (r.read address s).2 + 1
  | write address data next, s => next.count (r.write address data s) + 1

/-- The calls with `uart_reg_interface` behind them. -/
def toProcess : Calls α → Process α
  | done a => .returned a
  | read address next => (UartRegInterface.read address).bind fun v => (next v).toProcess
  | write address data next => (UartRegInterface.write address data).bind fun _ => next.toProcess

/-- One function after another. -/
def bind : Calls α → (α → Calls β) → Calls β
  | done a, f => f a
  | read address next, f => read address fun v => (next v).bind f
  | write address data next, f => write address data (next.bind f)

variable {r}

/-- One function of the driver after another. -/
theorem run_bind (c : Calls α) (f : α → Calls β) (s : σ) :
    (c.bind f).run r s = (f (c.run r s).1).run r (c.run r s).2 := by
  induction c generalizing s with
  | done a => rfl
  | read address next ih => exact ih _ _
  | write address data next ih => exact ih _

/-! ## The functions of the driver -/

/-- `reg_read` of a component. -/
def regRead (offset address : BitVec 32) : Calls (BitVec 32) := .read (offset + address) .done

/-- `reg_write` of a component. -/
def regWrite (offset address data : BitVec 32) : Calls Unit :=
  .write (offset + address) data (.done ())

@[simp] theorem run_regRead (c : RegComp σ) (address : BitVec 32) (s : σ) :
    (regRead c.offset address).run c.regInterface s = c.regRead address s := rfl

@[simp] theorem run_regWrite (c : RegComp σ) (address data : BitVec 32) (s : σ) :
    (regWrite c.offset address data).run c.regInterface s = ((), c.regWrite address data s) := rfl

/-- The calls of `set_source_mac` and `set_destination_mac`. -/
def setMac (offset : BitVec 32) (mac : Vector (BitVec 8) 6) (upperReg lowerReg : BitVec 32) :
    Calls Unit :=
  (regWrite offset lowerReg (RmiiMacComp.lowerWord mac)).bind fun _ =>
    regWrite offset upperReg (RmiiMacComp.upperWord mac)

theorem run_setMac (c : RegComp σ) (mac : Vector (BitVec 8) 6) (upperReg lowerReg : BitVec 32)
    (s : σ) : ((setMac c.offset mac upperReg lowerReg).run c.regInterface s).2 =
      RmiiMacComp.setMac c mac upperReg lowerReg s := rfl

/-- The calls of the loop of `wait_for_op_complete`. -/
def waitLoop (offset : BitVec 32) : ℕ → Bool → Calls Bool
  | 0, finished => .done finished
  | timeout + 1, finished =>
    if finished then .done finished
    else (regRead offset regMdioCompControl).bind fun v => waitLoop offset timeout (v != 0#32)

theorem run_waitLoop (c : RegComp σ) (timeout : ℕ) (finished : Bool) (s : σ) :
    (waitLoop c.offset timeout finished).run c.regInterface s =
      MdioComp.waitLoop c timeout finished s := by
  induction timeout generalizing finished s with
  | zero => rfl
  | succ timeout ih =>
    rw [waitLoop, MdioComp.waitLoop]
    split
    · rfl
    · rw [run_bind]
      exact ih _ _

/-- The calls of `wait_for_op_complete`. -/
def waitForOpComplete (offset : BitVec 32) : Calls Bool :=
  (regRead offset regMdioCompControl).bind fun v => waitLoop offset 10 (getBit v 1)

/-- The calls of `mdio_read` and `mdio_write`. -/
def mdio (offset : BitVec 32) : MdioComp.Op → Calls Bool
  | .read phyAddress regAddress returnData =>
    (regWrite offset regMdioCompPhyAddr (phyAddress.setWidth 32)).bind fun _ =>
      (regWrite offset regMdioCompRegAddr (regAddress.setWidth 32)).bind fun _ =>
        (regWrite offset regMdioCompControl 0).bind fun _ =>
          (waitForOpComplete offset).bind fun complete =>
            if complete && returnData.isSome then
              (regRead offset regMdioCompReadData).bind fun _ => .done complete
            else .done complete
  | .write phyAddress regAddress writeData =>
    (regWrite offset regMdioCompPhyAddr (phyAddress.setWidth 32)).bind fun _ =>
      (regWrite offset regMdioCompRegAddr (regAddress.setWidth 32)).bind fun _ =>
        (regWrite offset regMdioCompWriteData (writeData.setWidth 32)).bind fun _ =>
          (regWrite offset regMdioCompControl 1).bind fun _ => waitForOpComplete offset

theorem run_waitForOpComplete (c : RegComp σ) (s : σ) :
    (waitForOpComplete c.offset).run c.regInterface s = MdioComp.waitForOpComplete c s := by
  rw [waitForOpComplete, run_bind]
  exact run_waitLoop c _ _ _

theorem run_mdio (c : RegComp σ) (op : MdioComp.Op) (s : σ) :
    (mdio c.offset op).run c.regInterface s = op.call c s := by
  cases op with
  | read phyAddress regAddress returnData =>
    simp only [mdio, run_bind, run_regWrite, run_waitForOpComplete, MdioComp.Op.call,
      MdioComp.mdioRead]
    -- the data are fetched only when the operation is complete
    generalize MdioComp.waitForOpComplete c _ = w
    cases w.1 && returnData.isSome <;> rfl
  | write phyAddress regAddress writeData =>
    simp only [mdio, run_bind, run_regWrite, run_waitForOpComplete, MdioComp.Op.call,
      MdioComp.mdioWrite]

end Calls

end RmiiEthernet.Driver
