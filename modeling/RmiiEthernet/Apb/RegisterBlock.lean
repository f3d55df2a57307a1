import RmiiEthernet.Utils

/-!
# The registers of an APB slave

`component_register_block` turns the signals of an APB bus into read and write enables for a number
of registers. The register is selected by the low bits of the address, one cycle late. A read is
stalled for two cycles, so that the read enable comes in the cycle in which the data are taken.
-/

namespace RmiiEthernet.Apb

open Utils

/-- `apb_cmd_t`, the fields that are driven. -/
structure Cmd where
  paddr : BitVec 8
  psel : Bool
  penable : Bool
  pwrite : Bool
  pwdata : BitVec 32

/-- `apb_rsp_t`, the fields that are read. -/
structure Rsp where
  pready : Bool
  prdata : BitVec 32

end RmiiEthernet.Apb

namespace RmiiEthernet.ComponentRegisterBlock

open Utils Apb

/-- The registers of the circuit for `n` registers on the bus. -/
structure State (n : ℕ) where
  pready : Bool
  preadyR : Bool
  prdata : BitVec 32
  regSel : Fin n → Bool
  regRenSig : Fin n → Bool
  regWdataOut : Fin n → BitVec 32
  regWenOut : Fin n → Bool

section Signals

variable {n : ℕ} (s : State n) (cmd : Cmd) (regRdataIn : Fin n → BitVec 32)

/-- The low bits of the address. -/
def regSelectInt (n : ℕ) (cmd : Cmd) : ℕ := (cmd.paddr.setWidth (log2Ceil n)).toNat

/-- `apb_rsp_out`. -/
def apbRspOut : Rsp := ⟨s.preadyR, s.prdata⟩

/-- A read has been set up. -/
def stalls : Bool := cmd.psel && (!cmd.penable && !cmd.pwrite)

/-- The access phase of a write. -/
def writes : Bool := cmd.psel && (cmd.penable && cmd.pwrite)

/-- The second cycle of the stall. -/
def reads : Bool := cmd.psel && (!s.pready && (!s.preadyR && !cmd.pwrite))

/-- The data of the registers whose read enable is high, those of the last one if there are
several. -/
def readData : BitVec 32 :=
  (List.finRange n).foldl (fun d k => if s.regRenSig k then regRdataIn k else d) s.prdata

/-- One clock edge. -/
def step : State n where
  pready := !stalls cmd
  preadyR := !stalls cmd && s.pready
  prdata := readData s regRdataIn
  regSel k := k.val == regSelectInt n cmd
  regRenSig k := reads s cmd && s.regSel k
  regWdataOut k := if writes cmd && s.regSel k then cmd.pwdata else s.regWdataOut k
  regWenOut k := writes cmd && s.regSel k

end Signals

/-- The initial values of the registers that have one. -/
structure PowerUp {n : ℕ} (s : State n) : Prop where
  pready : s.pready = true
  preadyR : s.preadyR = true
  regSel : ∀ k, s.regSel k = false
  regRenSig : ∀ k, s.regRenSig k = false
  regWenOut : ∀ k, s.regWenOut k = false

end RmiiEthernet.ComponentRegisterBlock
