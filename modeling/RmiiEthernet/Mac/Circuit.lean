import RmiiEthernet.Apb.Writes
import RmiiEthernet.Arp.Readdress
import RmiiEthernet.Mdio.Circuit

/-!
# The MAC and its registers

`rmii_mac_comp` puts the MAC behind a register block: the host writes the addresses, the enables and
the operations of the management interface, and reads back what it has written and the state of the
MAC. The module holds the part of it that is clocked by the user clock and that registers drive: the
register block, the processes beside it, `mdio`, and `arp` with `ethernet_framer`.

The outputs of the receive path and of the counters only go to registers; they are inputs here
(`Status`), and so are the stream of received frames that `arp` listens to and `tready` of the FIFO
behind the framer. The ratio of the clock and the clock of the management interface is `n`.
-/

namespace RmiiEthernet.RmiiMacComp

open Sync Utils Apb EthernetFcs

/-- `C_COMPONENT_ID`. -/
def cComponentId : BitVec 32 := 102

/-- `C_NUM_RMII_MAC_COMP_REGISTERS`. -/
abbrev numRegisters : ℕ := 25

/-- `C_REG_NUM_MDIO_CONTROL` and so on. -/
abbrev Register := Fin numRegisters

/-- Starts an operation of the MDIO and tells how it stands. -/
def regNumMdioControl : Register := 1

/-- Resets the MDIO. -/
def regNumMdioReset : Register := 2

/-- The PHY that is addressed. -/
def regNumMdioPhyAddr : Register := 3

/-- Its register that is addressed. -/
def regNumMdioRegAddr : Register := 4

/-- The data of a write. -/
def regNumMdioWriteData : Register := 5

/-- The enables of the two directions. -/
def regNumEthControl : Register := 7

/-- The upper two bytes of the own address. -/
def regNumSrcMacUpper : Register := 8

/-- The lower four bytes of the own address. -/
def regNumSrcMacLower : Register := 9

/-- The upper two bytes of the address of data frames. -/
def regNumDstMacUpper : Register := 10

/-- The lower four bytes of the address of data frames. -/
def regNumDstMacLower : Register := 11

/-- The own IP address. -/
def regNumSrcIp : Register := 12

/-- Asks for an announcement. -/
def regNumSendArp : Register := 13

/-- The outputs of the parts of `rmii_mac` that only registers read. -/
structure Status where
  overflowedOut : Bool := false
  ethDeframerIdle : Bool := true
  ethDeframerDropCount : BitVec 16 := 0
  droppedPacketsCount : BitVec 16 := 0
  numTxBytes : BitVec 32 := 0
  numTxPackets : BitVec 32 := 0
  numRxBytes : BitVec 32 := 0
  numRxPackets : BitVec 32 := 0
  numMacRxPackets : BitVec 32 := 0
  numBadCarrierEvents : BitVec 8 := 0

/-- The input ports in one cycle. -/
structure Inputs where
  apbCmdIn : Cmd
  mTxAxisTdata : Byte := 0
  mTxAxisTvalid : Bool := false
  mTxAxisTlast : Bool := false
  clkUserRxAxisTdata : Byte := 0
  clkUserRxAxisTvalid : Bool := false
  clkUserRxAxisTlast : Bool := false
  ethTxAxisTready : Bool := true
  mdioIn : Bool := true
  status : Status := {}

/-- The registers, for a counter of `w` bits in `mdio`. -/
structure State (w : ℕ) where
  block : ComponentRegisterBlock.State numRegisters
  sendArp : Bool
  sendMsg : Bool
  responseReceived : Bool
  /-- `reg_rdata(C_REG_NUM_MDIO_READ_DATA)`. -/
  mdioReadData : BitVec 32
  mdioOpDoneR : Bool
  mdioSendCounter : BitVec 8
  mdioReceiveCounter : BitVec 8
  mdio : Mdio.State w
  arpFramer : ArpFramer.State

section Signals

variable {w : ℕ} (s : State w) (i : Inputs)

/-- A write to its register resets the MDIO. -/
def reset : Bool := s.block.regWenOut regNumMdioReset

/-- The operation that is asked for is a write. -/
def writeNotRead : Bool := (s.block.regWdataOut regNumMdioControl).getLsbD 0

/-- The PHY that is addressed. -/
def phyAddr : BitVec 5 := (s.block.regWdataOut regNumMdioPhyAddr).extractLsb' 0 5

/-- Its register that is addressed. -/
def regAddr : BitVec 5 := (s.block.regWdataOut regNumMdioRegAddr).extractLsb' 0 5

/-- The data of a write. -/
def writeData : BitVec 16 := (s.block.regWdataOut regNumMdioWriteData).extractLsb' 0 16

/-- The enable of `ethernet_framer`. -/
def ethFramerEnable : Bool := (s.block.regWdataOut regNumEthControl).getLsbD 0

/-- The enable of `ethernet_deframer`. -/
def ethDeframerEnable : Bool := (s.block.regWdataOut regNumEthControl).getLsbD 2

/-- The address that two registers make. -/
def macOf (upper lower : BitVec 32) : BitVec 48 := upper.extractLsb' 0 16 ++ lower

/-- The own address, from its two registers. -/
def sourceMac : BitVec 48 :=
  macOf (s.block.regWdataOut regNumSrcMacUpper) (s.block.regWdataOut regNumSrcMacLower)

/-- The address of data frames, from its two registers. -/
def destinationMac : BitVec 48 :=
  macOf (s.block.regWdataOut regNumDstMacUpper) (s.block.regWdataOut regNumDstMacLower)

/-- The own IP address. -/
def srcIpAddress : BitVec 32 := s.block.regWdataOut regNumSrcIp

/-- `send_garp_ready_out` of `arp`. -/
def sendArpReady : Bool := !s.arpFramer.arp.garpPending

/-- `ready_out` of `mdio`. -/
def mdioReady : Bool := Mdio.ready s.mdio

/-- `idle_out` of `ethernet_framer`. -/
def ethFramerIdle : Bool := EthernetFramer.idleOut s.arpFramer.framer

/-- `pad_slv32` of single bits, the most significant first. -/
def padBits (bs : List Bool) : BitVec 32 := bs.foldl (fun v b => v.shiftConcat b) 0

/-- What the registers read back. -/
def regRdata (k : Register) : BitVec 32 :=
  match k.val with
  | 0 => cComponentId
  | 1 => padBits [mdioReady s, s.responseReceived, writeNotRead s]
  | 3 => (phyAddr s).setWidth 32
  | 4 => (regAddr s).setWidth 32
  | 5 => (writeData s).setWidth 32
  | 6 => s.mdioReadData
  | 7 => padBits [i.status.overflowedOut, i.status.ethDeframerIdle, ethDeframerEnable s,
      ethFramerIdle s, ethFramerEnable s]
  | 8 => ((sourceMac s).extractLsb' 32 16).setWidth 32
  | 9 => (sourceMac s).extractLsb' 0 32
  | 10 => ((destinationMac s).extractLsb' 32 16).setWidth 32
  | 11 => (destinationMac s).extractLsb' 0 32
  | 12 => srcIpAddress s
  | 14 => i.status.numTxBytes
  | 15 => i.status.numTxPackets
  | 16 => i.status.numRxBytes
  | 17 => i.status.numRxPackets
  | 18 => i.status.numBadCarrierEvents.setWidth 32
  | 19 => i.status.ethDeframerDropCount.setWidth 32
  | 20 => i.status.droppedPacketsCount.setWidth 32
  | 21 => s.mdioSendCounter.setWidth 32
  | 22 => s.mdioReceiveCounter.setWidth 32
  | 23 => i.status.numMacRxPackets
  | 24 => padBits [s.sendArp, false, false, false, sendArpReady s]
  -- nothing drives the words of `C_REG_NUM_MDIO_RESET` and `C_REG_NUM_SEND_ARP`
  | _ => 0

/-- The ports of `i_mdio`. -/
def mdioInputs : Mdio.Inputs where
  reset := reset s
  sendMsgIn := s.sendMsg
  writeEnableIn := writeNotRead s
  phyAddressIn := phyAddr s
  regAddressIn := regAddr s
  writeDataIn := writeData s
  mdioIn := i.mdioIn

/-- The ports of `i_arp_transmit` and `i_ethernet_framer`. -/
def arpFramerInputs : ArpFramer.Inputs where
  arp :=
    { reset := reset s
      sendGarpIn := s.sendArp
      macAddressIn := sourceMac s
      ipAddressIn := srcIpAddress s
      destinationMacIn := destinationMac s
      rxAxisTdata := i.clkUserRxAxisTdata
      rxAxisTvalid := i.clkUserRxAxisTvalid
      rxAxisTlast := i.clkUserRxAxisTlast
      sAxisTdata := i.mTxAxisTdata
      sAxisTvalid := i.mTxAxisTvalid
      sAxisTlast := i.mTxAxisTlast }
  enableIn := ethFramerEnable s
  mAxisTready := i.ethTxAxisTready

end Signals

/-- One clock edge. -/
def step {n : ℕ} (s : State (Mdio.counterBits n)) (i : Inputs) : State (Mdio.counterBits n) where
  block := ComponentRegisterBlock.step s.block i.apbCmdIn (regRdata s i)
  sendArp :=
    if (s.sendArp && sendArpReady s) || reset s then false
    else s.block.regWenOut regNumSendArp || s.sendArp
  sendMsg :=
    if (s.sendMsg && mdioReady s) || reset s then false
    else s.block.regWenOut regNumMdioControl || s.sendMsg
  responseReceived :=
    if s.sendMsg || reset s then false else s.mdio.opDone || s.responseReceived
  mdioReadData := if s.mdio.opDone then s.mdio.readDataOut.setWidth 32 else s.mdioReadData
  mdioOpDoneR := s.mdio.opDone
  mdioSendCounter :=
    if reset s then 0
    else if s.sendMsg && mdioReady s then s.mdioSendCounter + 1
    else s.mdioSendCounter
  mdioReceiveCounter :=
    if reset s then 0
    else if s.mdio.opDone && !s.mdioOpDoneR then s.mdioReceiveCounter + 1
    else s.mdioReceiveCounter
  mdio := Mdio.step s.mdio (mdioInputs s i)
  arpFramer := ArpFramer.step s.arpFramer (arpFramerInputs s i)

end RmiiEthernet.RmiiMacComp
