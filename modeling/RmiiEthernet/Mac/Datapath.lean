import RmiiEthernet.Arp.Addressing
import RmiiEthernet.Ethernet.Deframer
import RmiiEthernet.PacketAfifo.Circuit
import RmiiEthernet.Rmii.Receiver
import RmiiEthernet.Rmii.Transmitter
import RmiiEthernet.RxPacketBuffer

/-!
# The data paths of the MAC

`rmii_mac` joins the blocks of the two directions. On the way out `arp`, `ethernet_framer` and the
write side of `packet_afifo` are on the user clock, the read side and `rmii_mac_tx` on the clock of
the PHY. On the way in `rmii_mac_rx` and the write side of an `afifo` are on the clock of the PHY,
the read side, `ethernet_deframer` and `rx_packet_buffer` on the user clock; `arp` listens to the
bytes behind the `afifo`. A reset goes over to the clock of the PHY by a `pulse_transfer`.

A rising edge of one of the two clocks is a step. The depths of the buffers are `2 ^ T` and `2 ^ R`.
`mdio`, which shares nothing with the data paths but the user clock and the reset, is left to
`RmiiMacComp`.
-/

namespace RmiiEthernet.RmiiMacCounters

open Sync

/-- `rmii_mac_counters`. -/
structure State where
  txBytesCounterU : BitVec 32
  txPacketsCounterU : BitVec 32
  rxBytesCounterU : BitVec 32
  rxPacketsCounterU : BitVec 32
  rxBadCarrierCounterU : BitVec 8
  deriving DecidableEq

/-- The input ports in one cycle. -/
structure Inputs where
  reset : Bool := false
  txDataTvalid : Bool := false
  txDataTlast : Bool := false
  txDataTready : Bool := false
  rxDataTvalid : Bool := false
  rxDataTlast : Bool := false
  rxBadCarrier : Bool := false

/-- One clock edge. -/
def step (s : State) (i : Inputs) : State where
  txBytesCounterU :=
    if i.reset then 0
    else if i.txDataTvalid && i.txDataTready then s.txBytesCounterU + 1
    else s.txBytesCounterU
  txPacketsCounterU :=
    if i.reset then 0
    else if i.txDataTvalid && i.txDataTready && i.txDataTlast then s.txPacketsCounterU + 1
    else s.txPacketsCounterU
  rxBytesCounterU :=
    if i.reset then 0
    else if i.rxDataTvalid then s.rxBytesCounterU + 1
    else s.rxBytesCounterU
  rxPacketsCounterU :=
    if i.reset then 0
    else if i.rxDataTvalid && i.rxDataTlast then s.rxPacketsCounterU + 1
    else s.rxPacketsCounterU
  rxBadCarrierCounterU :=
    if i.reset then 0
    else if i.rxBadCarrier then s.rxBadCarrierCounterU + 1
    else s.rxBadCarrierCounterU

end RmiiEthernet.RmiiMacCounters

namespace RmiiEthernet.RmiiMac

open Sync EthernetFcs PacketAfifo RmiiMacRx

variable {T R : ℕ}

/-! ## The circuit -/

/-- All registers. -/
structure State (T R : ℕ) where
  resetPulseTransfer : PulseTransfer
  -- transmit
  arpFramer : ArpFramer.State
  txPacketAfifo : PacketAfifo.State T
  rmiiMacTx : RmiiMacTx.State
  -- receive
  rmiiMacRx : RmiiMacRx.State
  afifo : Afifo.State 11 Word
  ethernetDeframer : EthernetDeframer.State
  rxPacketBuffer : RxPacketBuffer.State R Byte
  rmiiMacCounters : RmiiMacCounters.State

/-- The input ports on the user clock in one cycle. -/
structure UserInputs where
  reset : Bool := false
  sourceMacIn : BitVec 48
  destinationMacIn : BitVec 48
  ethFramerEnableIn : Bool := true
  sendGarpIn : Bool := false
  ipAddressIn : BitVec 32
  ethDeframerEnableIn : Bool := true
  mTxAxisTdata : Byte := 0
  mTxAxisTvalid : Bool := false
  mTxAxisTlast : Bool := false
  deriving DecidableEq

/-- A rising edge of `clk_user` or of `clk50`, with the inputs of its side. -/
inductive Edge
  | user (i : UserInputs)
  | phy (crsDv : Bool) (rxd : DiBit)

section Wiring

variable (s : State T R) (i : UserInputs)

/-- The reset on the clock of the PHY. -/
def resetClk50 : Bool := s.resetPulseTransfer.bPulseOut

/-- The word that the `afifo` shows. -/
def rxAfifoDout : Word := s.afifo.readData true

/-- `clk_user_rx_axis_tvalid`. -/
def clkUserRxAxisTvalid : Bool := !s.afifo.empty true

/-- `clk_user_rx_axis_tdata`. -/
def clkUserRxAxisTdata : Byte := (beatOf (rxAfifoDout s)).1

/-- `clk_user_rx_axis_tlast`. -/
def clkUserRxAxisTlast : Bool := (beatOf (rxAfifoDout s)).2

/-- `i_arp_transmit` and `i_ethernet_framer`: the frames go to `packet_afifo`, the parser hears what
has been received. -/
def arpFramerInputs : ArpFramer.Inputs where
  arp :=
    { reset := i.reset
      sendGarpIn := i.sendGarpIn
      macAddressIn := i.sourceMacIn
      ipAddressIn := i.ipAddressIn
      destinationMacIn := i.destinationMacIn
      rxAxisTdata := clkUserRxAxisTdata s
      rxAxisTvalid := clkUserRxAxisTvalid s
      rxAxisTlast := clkUserRxAxisTlast s
      sAxisTdata := i.mTxAxisTdata
      sAxisTvalid := i.mTxAxisTvalid
      sAxisTlast := i.mTxAxisTlast }
  enableIn := i.ethFramerEnableIn
  mAxisTready := s.txPacketAfifo.sAxisTready

/-- `packet_afifo` is clocked by both clocks. -/
def txPacketAfifoEdge : Edge → PacketAfifo.Edge
  | .user i => .wr i.reset s.arpFramer.framer.outputTdata s.arpFramer.framer.outputTvalid
      s.arpFramer.framer.outputTlast
  | .phy _ _ => .rd s.rmiiMacTx.sAxisTready

/-- `i_rmii_mac_tx`: its source is `packet_afifo`. -/
def rmiiMacTxInputs : RmiiMacTx.Inputs where
  reset := resetClk50 s
  sAxisTdata := s.txPacketAfifo.mAxisTdata
  sAxisTvalid := s.txPacketAfifo.mAxisTvalid
  sAxisTlast := s.txPacketAfifo.mAxisTlast

/-- `i_rmii_mac_rx`. -/
def rmiiMacRxInputs (crsDv : Bool) (rxd : DiBit) : RmiiMacRx.Inputs where
  reset := resetClk50 s
  crsDv := crsDv
  rxd := rxd

/-- `rx_afifo_din`. -/
def rxAfifoDin : Word := wordOf (s.rmiiMacRx.mAxisTdata, s.rmiiMacRx.mAxisTlast)

/-- The `afifo` is clocked by both clocks; `rx_afifo_read` is high. -/
def afifoEdge : Edge → Afifo.Edge Word
  | .user _ => .rd true
  | .phy _ _ => .wr (resetClk50 s) s.rmiiMacRx.mAxisTvalid (rxAfifoDin s)

/-- `i_ethernet_deframer`: its source is the `afifo`. -/
def ethernetDeframerInputs : EthernetDeframer.Inputs where
  reset := i.reset
  enableIn := i.ethDeframerEnableIn
  filterSourceMacIn := false
  sourceMacIn := 0
  destinationMacIn := i.sourceMacIn
  sAxisTdata := clkUserRxAxisTdata s
  sAxisTvalid := clkUserRxAxisTvalid s
  sAxisTlast := clkUserRxAxisTlast s

/-- `i_rx_packet_buffer`: its source is `ethernet_deframer`. -/
def rxPacketBufferInputs : RxPacketBuffer.Inputs Byte where
  reset := i.reset
  sAxisTdata := s.ethernetDeframer.mAxisTdata
  sAxisTuser := s.ethernetDeframer.mAxisTuser
  sAxisTvalid := s.ethernetDeframer.mAxisTvalid
  sAxisTlast := s.ethernetDeframer.mAxisTlast

/-- `false_carrier_out` of `rmii_mac_rx` is low. -/
def rmiiMacCountersInputs : RmiiMacCounters.Inputs where
  reset := i.reset
  txDataTvalid := s.arpFramer.framer.outputTvalid
  txDataTlast := s.arpFramer.framer.outputTlast
  txDataTready := s.txPacketAfifo.sAxisTready
  rxDataTvalid := clkUserRxAxisTvalid s
  rxDataTlast := clkUserRxAxisTlast s
  rxBadCarrier := false

/-- An edge of the user clock. -/
def userStep : State T R where
  resetPulseTransfer := s.resetPulseTransfer.stepA i.reset
  arpFramer := ArpFramer.step s.arpFramer (arpFramerInputs s i)
  txPacketAfifo := PacketAfifo.step s.txPacketAfifo (txPacketAfifoEdge s (.user i))
  rmiiMacTx := s.rmiiMacTx
  rmiiMacRx := s.rmiiMacRx
  afifo := Afifo.step true s.afifo (afifoEdge s (.user i))
  ethernetDeframer := EthernetDeframer.step s.ethernetDeframer (ethernetDeframerInputs s i)
  rxPacketBuffer := RxPacketBuffer.step s.rxPacketBuffer (rxPacketBufferInputs s i)
  rmiiMacCounters := RmiiMacCounters.step s.rmiiMacCounters (rmiiMacCountersInputs s i)

/-- An edge of the clock of the PHY. -/
def phyStep (crsDv : Bool) (rxd : DiBit) : State T R :=
  { s with
    resetPulseTransfer := s.resetPulseTransfer.stepB
    txPacketAfifo := PacketAfifo.step s.txPacketAfifo (txPacketAfifoEdge s (.phy crsDv rxd))
    rmiiMacTx := RmiiMacTx.step s.rmiiMacTx (rmiiMacTxInputs s)
    rmiiMacRx := RmiiMacRx.step s.rmiiMacRx (rmiiMacRxInputs s crsDv rxd)
    afifo := Afifo.step true s.afifo (afifoEdge s (.phy crsDv rxd)) }

end Wiring

/-- One rising edge of either clock. -/
def step (s : State T R) : Edge → State T R
  | .user i => userStep s i
  | .phy crsDv rxd => phyStep s crsDv rxd

/-! ## What happens at the ports -/

/-- The beat accepted from the user at an edge. -/
def accepted (s : State T R) : Edge → List (Byte × Bool)
  | .user i => ArpFramer.accepted s.arpFramer (arpFramerInputs s i)
  | .phy _ _ => []

/-- The beat that goes into the `packet_afifo` at an edge. -/
def framed (s : State T R) (e : Edge) : List (Byte × Bool) :=
  PacketAfifo.accepted s.txPacketAfifo (txPacketAfifoEdge s e)

/-- The beat that `rmii_mac_rx` writes to the `afifo` at an edge. -/
def captured (s : State T R) : Edge → List (Byte × Bool)
  | .user _ => []
  | .phy _ _ => output s.rmiiMacRx

/-- The beat that comes out of the `afifo` at an edge. -/
def received (s : State T R) : Edge → List (Byte × Bool)
  | .user i => EthernetDeframer.arrived s.ethernetDeframer (ethernetDeframerInputs s i)
  | .phy _ _ => []

/-- The beat shown to the user at an edge. -/
def shown (s : State T R) : Edge → List (Byte × Bool)
  | .user i => RxPacketBuffer.shown s.rxPacketBuffer (rxPacketBufferInputs s i)
  | .phy _ _ => []

/-- The di-bit on the line between two edges of the clock of the PHY. -/
def line (s : State T R) : Edge → List (Bool × DiBit)
  | .user _ => []
  | .phy _ _ => [(s.rmiiMacTx.txEn, s.rmiiMacTx.txd)]

/-- The addresses at the ports. -/
abbrev Config := ArpFramer.Config

/-- No reset, both directions enabled, and the configuration at the ports. -/
def Steady (cfg : Config) : Edge → Prop
  | .user i => i.reset = false ∧ i.sourceMacIn = cfg.mac ∧ i.ipAddressIn = cfg.ip ∧
      i.destinationMacIn = cfg.destinationMac ∧ i.ethDeframerEnableIn = true
  | .phy _ _ => True

instance (cfg : Config) (e : Edge) : Decidable (Steady cfg e) := by
  cases e <;> unfold Steady <;> infer_instance

/-- The edges of the user clock. -/
def Edge.isUser : Edge → Bool
  | .user _ => true
  | .phy _ _ => false

/-- The edges of the clock of the PHY. -/
def Edge.isPhy : Edge → Bool
  | .user _ => false
  | .phy _ _ => true

end RmiiEthernet.RmiiMac
