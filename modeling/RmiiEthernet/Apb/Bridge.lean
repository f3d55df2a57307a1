import RmiiEthernet.Apb.RegisterBlock
import RmiiEthernet.Uart.Tx

/-!
# The bridge from the UART to the APB buses

`uart_apb_bridge` assembles four bytes to a word. The first word of a transaction selects a slave
and a register; if its top bit is set, a second word holds the data to be written. The state machine
starts the master of the selected slave, waits for its response and hands the answer to a
serialiser, which sends its four bytes through `axi_uart_tx`.

The bytes come from `axi_uart_rx`, whose two outputs are inputs here. `System` is the bridge with a
register block on each of its buses, whose registers read back what has been written.
-/

namespace RmiiEthernet.UartApbBridge

open Utils Apb

/-- `state_t`. -/
inductive FsmState
  | idle
  | start
  | waitForWriteData
  | waitForResponse
  deriving DecidableEq

/-- `apb_state_t`. -/
inductive ApbState
  | idle
  | setup
  | access
  deriving DecidableEq

/-- The reset and the outputs of `i_axi_uart_rx` in one cycle. -/
structure Rx where
  reset : Bool
  uartRxData : BitVec 8
  uartRxValid : Bool

/-- These and the responses of the slaves. -/
structure Inputs (N : ℕ) extends Rx where
  apbRspIn : Fin N → Rsp

/-- The registers of one master. -/
structure Master where
  apbMasterState : ApbState
  slaveResponsePending : Bool
  slaveResponseData : BitVec 32
  apbCmdOut : Cmd

/-- The registers of the bridge with `N` slaves and of its transmitter, with a counter of `w`
bits. -/
structure State (N w : ℕ) where
  rxCounterU : BitVec 2
  rxBuffer : BitVec 32
  rxValid : Bool
  txCounterU : BitVec 2
  txData : BitVec 32
  txDataR : BitVec 32
  txValid : Bool
  txValidL : Bool
  uartTxData : BitVec 8
  uartTxValid : Bool
  activeSlaveR : ℕ
  slaveAddrR : BitVec 8
  writeData : BitVec 32
  slaveDoRead : Fin N → Bool
  slaveDoWrite : Fin N → Bool
  clearResponsePending : Bool
  fsmState : FsmState
  isWriteOpR : Bool
  masters : Fin N → Master
  uartTx : AxiUartTx.State w

/-- A word with another byte `k`. -/
def setByte (w : BitVec 32) (k : BitVec 2) (b : BitVec 8) : BitVec 32 :=
  if k = 0 then w.extractLsb' 8 24 ++ b
  else if k = 1 then w.extractLsb' 16 16 ++ (b ++ w.extractLsb' 0 8)
  else if k = 2 then w.extractLsb' 24 8 ++ (b ++ w.extractLsb' 0 16)
  else b ++ w.extractLsb' 0 24

section Signals

variable {N p : ℕ} (s : State N (log2Ceil p)) (i : Inputs N)

/-- The slave that the word in the buffer selects. -/
def slaveSelInt : ℕ := (s.rxBuffer.extractLsb' 8 (log2Ceil N)).toNat

/-- `uart_tx_ready`. -/
def uartTxReady : Bool := AxiUartTx.ready s.uartTx

/-- The active slave has answered. -/
def activePending : Bool :=
  if h : s.activeSlaveR < N then (s.masters ⟨s.activeSlaveR, h⟩).slaveResponsePending else false

/-- The data with which the active slave has answered. -/
def activeData : BitVec 32 :=
  if h : s.activeSlaveR < N then (s.masters ⟨s.activeSlaveR, h⟩).slaveResponseData else 0

/-- The state machine starts a read. -/
def startsRead : Bool := s.fsmState == .start && !s.isWriteOpR

/-- The state machine takes the data of a write. -/
def takesData : Bool := s.fsmState == .waitForWriteData && s.rxValid

/-- The state machine takes the answer of the active slave. -/
def answers : Bool := s.fsmState == .waitForResponse && activePending s

/-- The state machine takes an address. -/
def takesAddress : Bool := s.fsmState == .idle && s.rxValid

/-- The next state of the state machine when there is no reset. -/
def advance : FsmState :=
  match s.fsmState with
  | .idle => if s.rxValid then .start else .idle
  | .start => if s.isWriteOpR then .waitForWriteData else .waitForResponse
  | .waitForWriteData => if s.rxValid then .waitForResponse else .waitForWriteData
  | .waitForResponse => if activePending s then .idle else .waitForResponse

/-- The last byte of an answer is taken. -/
def lastTaken : Bool := s.txValidL && (uartTxReady s && (s.uartTxValid && s.txCounterU == 3))

/-- The ports of `i_axi_uart_tx`. -/
def uartTxInputs : AxiUartTx.Inputs where
  reset := i.reset
  sAxiTdataIn := s.uartTxData
  sAxiTvalidIn := s.uartTxValid

/-- One edge in the master of slave `j`. -/
def masterStep (j : Fin N) : Master :=
  let m := s.masters j
  let go := s.slaveDoRead j || s.slaveDoWrite j
  let done := m.apbMasterState == .access && (i.apbRspIn j).pready
  { apbMasterState :=
      if i.reset then .idle
      else match m.apbMasterState with
        | .idle => if go then .setup else .idle
        | .setup => .access
        | .access => if done then .idle else .access
    slaveResponsePending := done || (!s.clearResponsePending && m.slaveResponsePending)
    slaveResponseData := if done then (i.apbRspIn j).prdata else m.slaveResponseData
    apbCmdOut :=
      { paddr := s.slaveAddrR
        psel :=
          match m.apbMasterState with
          | .idle => go
          | .setup => m.apbCmdOut.psel
          | .access => !done && m.apbCmdOut.psel
        penable :=
          match m.apbMasterState with
          | .idle => false
          | .setup => true
          | .access => !done && m.apbCmdOut.penable
        pwrite :=
          if m.apbMasterState = .idle then s.slaveDoWrite j else m.apbCmdOut.pwrite
        pwdata := if m.apbMasterState = .idle then s.writeData else m.apbCmdOut.pwdata } }

/-- One clock edge. -/
def step : State N (log2Ceil p) where
  -- assembly of the words
  rxCounterU :=
    if i.reset then 0 else if i.uartRxValid then s.rxCounterU + 1 else s.rxCounterU
  rxBuffer := if i.uartRxValid then setByte s.rxBuffer s.rxCounterU i.uartRxData else s.rxBuffer
  rxValid := !i.reset && (i.uartRxValid && s.rxCounterU == 3)
  -- the serialiser
  txCounterU :=
    if i.reset then 0
    else if s.txValidL && (uartTxReady s && s.uartTxValid) then s.txCounterU + 1
    else s.txCounterU
  txDataR := if s.txValid then s.txData else s.txDataR
  txValidL := !i.reset && (!lastTaken s && (s.txValid || s.txValidL))
  uartTxData := if s.txValidL then byteOf s.txDataR s.txCounterU else s.uartTxData
  uartTxValid := !i.reset && (!lastTaken s && (s.txValidL || s.uartTxValid))
  uartTx := AxiUartTx.step s.uartTx (uartTxInputs s i)
  -- the state machine
  fsmState := if i.reset then .idle else advance s
  isWriteOpR := if takesAddress s then s.rxBuffer.getLsbD 31 else s.isWriteOpR
  slaveAddrR := if takesAddress s then s.rxBuffer.extractLsb' 0 8 else s.slaveAddrR
  activeSlaveR := if takesAddress s then slaveSelInt s else s.activeSlaveR
  slaveDoRead j := startsRead s && j.val == s.activeSlaveR
  slaveDoWrite j := takesData s && j.val == s.activeSlaveR
  writeData := if takesData s then s.rxBuffer else s.writeData
  clearResponsePending := true
  txValid := answers s
  txData := if answers s then if s.isWriteOpR then s.writeData else activeData s else s.txData
  -- the masters
  masters := masterStep s i

end Signals

/-- The initial values of the registers that have one. A bit without an initial value is not
`'1'`. -/
structure PowerUp {N p : ℕ} (s : State N (log2Ceil p)) : Prop where
  rxCounterU : s.rxCounterU = 0
  rxValid : s.rxValid = false
  txCounterU : s.txCounterU = 0
  txValid : s.txValid = false
  txValidL : s.txValidL = false
  uartTxValid : s.uartTxValid = false
  slaveAddrR : s.slaveAddrR = 0
  slaveDoRead : ∀ j, s.slaveDoRead j = false
  slaveDoWrite : ∀ j, s.slaveDoWrite j = false
  clearResponsePending : s.clearResponsePending = false
  fsmState : s.fsmState = .idle
  apbMasterState : ∀ j, (s.masters j).apbMasterState = .idle
  slaveResponsePending : ∀ j, (s.masters j).slaveResponsePending = false
  slaveResponseData : ∀ j, (s.masters j).slaveResponseData = 0
  psel : ∀ j, (s.masters j).apbCmdOut.psel = false
  uartTx : AxiUartTx.PowerUp s.uartTx

/-! ## The bridge with its slaves -/

/-- The bridge and a register block with `n j` registers on each bus. -/
structure System (N w : ℕ) (n : Fin N → ℕ) where
  bridge : State N w
  slaves : (j : Fin N) → ComponentRegisterBlock.State (n j)

section System

variable {N p : ℕ} {n : Fin N → ℕ}

/-- One clock edge; `reg_rdata` is wired to `reg_wdata`. -/
def systemStep (x : System N (log2Ceil p) n) (i : Rx) : System N (log2Ceil p) n where
  bridge := step x.bridge ⟨i, fun j => ComponentRegisterBlock.apbRspOut (x.slaves j)⟩
  slaves j := ComponentRegisterBlock.step (x.slaves j) (x.bridge.masters j).apbCmdOut
    (x.slaves j).regWdataOut

/-- The initial values of the bridge and of its slaves. -/
structure SystemPowerUp (x : System N (log2Ceil p) n) : Prop where
  bridge : PowerUp x.bridge
  slaves : ∀ j, ComponentRegisterBlock.PowerUp (x.slaves j)

/-- All registers without an initial value zero. -/
def blank (N p : ℕ) (n : Fin N → ℕ) : System N (log2Ceil p) n where
  bridge :=
    { rxCounterU := 0, rxBuffer := 0, rxValid := false
      txCounterU := 0, txData := 0, txDataR := 0, txValid := false, txValidL := false
      uartTxData := 0, uartTxValid := false
      activeSlaveR := 0, slaveAddrR := 0, writeData := 0
      slaveDoRead := fun _ => false, slaveDoWrite := fun _ => false
      clearResponsePending := false, fsmState := .idle, isWriteOpR := false
      masters := fun _ => ⟨.idle, false, 0, ⟨0, false, false, false, 0⟩⟩
      uartTx := ⟨0, false, false, 0, false, .idle, 0, true⟩ }
  slaves _ := ⟨true, true, 0, fun _ => false, fun _ => false, fun _ => 0, fun _ => false⟩

theorem systemPowerUp_blank (N p : ℕ) (n : Fin N → ℕ) : SystemPowerUp (blank N p n) where
  bridge := by constructor <;> first | rfl | exact fun _ => rfl | (constructor <;> rfl)
  slaves _ := by constructor <;> first | rfl | exact fun _ => rfl

/-- The byte received in a cycle. -/
def received (_ : System N (log2Ceil p) n) (i : Rx) : List (BitVec 8) :=
  if i.uartRxValid then [i.uartRxData] else []

/-- The byte that `axi_uart_tx` takes in a cycle. -/
def taken (x : System N (log2Ceil p) n) (_ : Rx) : List (BitVec 8) :=
  if x.bridge.uartTxValid && uartTxReady x.bridge then [x.bridge.uartTxData] else []

/-- The contents of the registers. -/
def registers (x : System N (log2Ceil p) n) (j : Fin N) (k : Fin (n j)) : BitVec 32 :=
  (x.slaves j).regWdataOut k

end System

end RmiiEthernet.UartApbBridge
