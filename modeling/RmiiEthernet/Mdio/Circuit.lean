import RmiiEthernet.Sync.Run
import RmiiEthernet.Utils
import Mathlib.Data.BitVec

/-!
# The management interface

`mdio` sends and receives the management frames of a PHY. A counter that never stops divides the
clock; the state machine steps on the rising edge of the divided clock and the line changes on its
falling edge. The divided clock is let out (`mdcOut`) while an operation is in progress.

The ratio of the two frequencies is `n`. A register without an initial value is left open in
`PowerUp`, but that a line whose tri-state bit has none is not driven low.
-/

namespace RmiiEthernet.Mdio

open Sync Utils

/-- `fsm_state_t`. -/
inductive FsmState
  | idle
  | preamble
  | start1
  | start2
  | op1
  | op2
  | phyAddress
  | regAddress
  | turnAround1
  | turnAround2
  | writeData
  | readData
  | done
  deriving DecidableEq

/-- The input ports in one cycle. -/
structure Inputs where
  reset : Bool
  sendMsgIn : Bool
  writeEnableIn : Bool
  phyAddressIn : BitVec 5
  regAddressIn : BitVec 5
  writeDataIn : BitVec 16
  mdioIn : Bool

/-- The registers, for a counter of `w` bits. -/
structure State (w : ℕ) where
  opIsWriteR : Bool
  phyAddressR : BitVec 5
  regAddressR : BitVec 5
  writeDataR : BitVec 16
  opInProgress : Bool
  opFinishedR : Bool
  opDone : Bool
  clkDivCounter : BitVec w
  mdc : Bool
  mdcRising : Bool
  mdcFalling : Bool
  mdioTristateOut : Bool
  mdioOut : Bool
  readDataOut : BitVec 16
  loadBitCounterData : BitVec 5
  loadBitCounter : Bool
  bitCounter : BitVec 5
  fsmState : FsmState

/-- The bits of the counter, `log2_ceil(C_CLK_DIV_COUNT_N-1)`. -/
def counterBits (n : ℕ) : ℕ := log2Ceil (n - 1)

/-- `C_CLK_DIV_COUNT_U`, cut to the bits of the counter. -/
def clkDivCountU (n : ℕ) : BitVec (counterBits n) := BitVec.ofNat _ n

/-- `C_CLK_DIV_COUNT_HALF_U`. -/
def clkDivCountHalfU (n : ℕ) : BitVec (counterBits n) := BitVec.ofNat _ (n / 2)

section Combinational

variable {w : ℕ} (s : State w)

/-- `ready`. -/
def ready : Bool := !s.opInProgress && s.fsmState == .idle

/-- `mdc_out`: the clock runs during an operation only. -/
def mdcOut : Bool := s.mdc && s.opInProgress

/-- The counter has reached the last bit of a field. -/
def lastBit : Bool := s.bitCounter == 0

/-- `next_state`. -/
def nextState : FsmState :=
  match s.fsmState with
  | .idle => if s.opInProgress then .preamble else .idle
  | .preamble => if lastBit s then .start1 else .preamble
  | .start1 => .start2
  | .start2 => .op1
  | .op1 => .op2
  | .op2 => .phyAddress
  | .phyAddress => if lastBit s then .regAddress else .phyAddress
  | .regAddress => if lastBit s then .turnAround1 else .regAddress
  | .turnAround1 => .turnAround2
  | .turnAround2 => if s.opIsWriteR then .writeData else .readData
  | .writeData => if lastBit s then .done else .writeData
  | .readData => if lastBit s then .done else .readData
  | .done => .idle

/-- `op_finished_comb`. -/
def opFinishedComb : Bool := s.fsmState == .done

/-- `mdio_tristate_comb`: the line is left to the PHY from the turn-around of a read on. -/
def mdioTristateComb : Bool :=
  match s.fsmState with
  | .turnAround1 | .turnAround2 => !s.opIsWriteR
  | .readData | .done => true
  | _ => false

/-- `mdio_output_comb`: the bit of the field that is sent. -/
def mdioOutputComb : Bool :=
  match s.fsmState with
  | .start1 => false
  | .op1 => !s.opIsWriteR
  | .op2 => s.opIsWriteR
  | .phyAddress => s.phyAddressR.getLsbD s.bitCounter.toNat
  | .regAddress => s.regAddressR.getLsbD s.bitCounter.toNat
  | .turnAround2 => false
  | .writeData => s.writeDataR.getLsbD s.bitCounter.toNat
  | _ => true

/-- `load_bit_counter_comb`: the field behind the state has bits to count. -/
def loadBitCounterComb : Bool :=
  match s.fsmState with
  | .idle => s.opInProgress
  | .op2 | .turnAround2 => true
  | .phyAddress => lastBit s
  | _ => false

/-- `load_bit_counter_data_comb`: the number of bits of that field, less one. -/
def loadBitCounterDataComb : BitVec 5 :=
  match s.fsmState with
  | .idle => if s.opInProgress then BitVec.allOnes 5 else 0
  | .op2 => 4
  | .phyAddress => if lastBit s then 4 else 0
  | .turnAround2 => 15
  | _ => 0

/-- `read_data_en`: the bit of the data that is being received. -/
def readDataEn : BitVec 16 :=
  if s.fsmState = .readData then BitVec.twoPow 16 s.bitCounter.toNat else 0

end Combinational

section Step

variable {n : ℕ} (s : State (counterBits n)) (i : Inputs)

/-- The counter has come to the period. Vectors without bits are never equal. -/
def periodReached : Bool := decide (0 < counterBits n) && s.clkDivCounter == clkDivCountU n

/-- The counter has come to half a period. -/
def halfReached : Bool := decide (0 < counterBits n) && s.clkDivCounter == clkDivCountHalfU n

/-- An operation is taken. -/
def accepts : Bool := i.sendMsgIn && ready s

/-- One clock edge. -/
def step : State (counterBits n) where
  -- the input latches
  opIsWriteR := if i.reset then false else if accepts s i then i.writeEnableIn else s.opIsWriteR
  phyAddressR := if i.reset then 0 else if accepts s i then i.phyAddressIn else s.phyAddressR
  regAddressR := if i.reset then 0 else if accepts s i then i.regAddressIn else s.regAddressR
  writeDataR := if i.reset then 0 else if accepts s i then i.writeDataIn else s.writeDataR
  opInProgress := !i.reset && (!opFinishedComb s && (accepts s i || s.opInProgress))
  opFinishedR := opFinishedComb s
  opDone := opFinishedComb s && !s.opFinishedR
  -- the divided clock
  clkDivCounter := if periodReached s || i.reset then 0 else s.clkDivCounter + 1
  mdc := !i.reset && (halfReached s || (!periodReached s && s.mdc))
  mdcRising := !i.reset && halfReached s
  mdcFalling := !i.reset && periodReached s
  -- the line
  mdioTristateOut := i.reset || if s.mdcFalling then mdioTristateComb s else s.mdioTristateOut
  mdioOut := !i.reset && if s.mdcFalling then mdioOutputComb s else s.mdioOut
  readDataOut :=
    if i.reset then 0
    else if s.mdcRising then
      s.readDataOut &&& ~~~readDataEn s ||| if i.mdioIn then readDataEn s else 0
    else s.readDataOut
  -- the bit counter
  loadBitCounterData := if i.reset then 0 else loadBitCounterDataComb s
  loadBitCounter := !i.reset && loadBitCounterComb s
  bitCounter :=
    if i.reset then 0
    else if s.mdcRising then
      if s.loadBitCounter then s.loadBitCounterData else s.bitCounter - 1
    else s.bitCounter
  -- the state machine
  fsmState := if i.reset then .idle else if s.mdcRising then nextState s else s.fsmState

end Step

/-- The initial values of the registers that have one, and of the bits that are not `'1'` or not
`'0'` without. -/
structure PowerUp {w : ℕ} (s : State w) : Prop where
  opInProgress : s.opInProgress = false
  opFinishedR : s.opFinishedR = false
  opDone : s.opDone = false
  clkDivCounter : s.clkDivCounter = 0
  mdc : s.mdc = false
  mdcRising : s.mdcRising = false
  mdcFalling : s.mdcFalling = false
  mdioTristateOut : s.mdioTristateOut = true
  loadBitCounterData : s.loadBitCounterData = 0
  loadBitCounter : s.loadBitCounter = false
  bitCounter : s.bitCounter = 0
  fsmState : s.fsmState = .idle

/-- The initial values, with `'0'` for the registers that have none, but a line that is released. -/
def initial (w : ℕ) : State w where
  opIsWriteR := false
  phyAddressR := 0
  regAddressR := 0
  writeDataR := 0
  opInProgress := false
  opFinishedR := false
  opDone := false
  clkDivCounter := 0
  mdc := false
  mdcRising := false
  mdcFalling := false
  mdioTristateOut := true
  mdioOut := false
  readDataOut := 0
  loadBitCounterData := 0
  loadBitCounter := false
  bitCounter := 0
  fsmState := .idle

theorem powerUp_initial (w : ℕ) : PowerUp (initial w) := by
  constructor <;> rfl

/-- Nothing at the inputs. -/
def quiet : Inputs := ⟨false, false, false, 0, 0, 0, false⟩

/-! ## The pins -/

section Pins

variable {w : ℕ} (s : State w)

/-- The line, pulled up when nobody drives it. -/
def line : Bool := s.mdioTristateOut || s.mdioOut

end Pins

end RmiiEthernet.Mdio
