import RmiiEthernet.Afifo.Circuit
import RmiiEthernet.Ethernet.Fcs
import RmiiEthernet.Fifo

/-!
# The packet FIFO of the transmitter

`packet_afifo` takes packets on the write clock and hands them over on the read clock. An `afifo`
carries the words, a byte with `tlast` above it, to the read clock; a skid buffer of one word passes
them on to a `fifo`, where they wait. A counter of the packets in the `fifo` tells whether one of
them is complete, and only then is it read.

A rising edge of one of the two clocks is a step, as for `afifo`.
-/

namespace RmiiEthernet.PacketAfifo

open Sync EthernetFcs

variable {D : ℕ}

/-! ## The parts -/

/-- A word of the memories: `tlast` above the byte. -/
abbrev Word := BitVec 9

/-- `s_axis_tlast_in & s_axis_tdata_in`. -/
def wordOf (b : Byte × Bool) : Word := BitVec.ofBool b.2 ++ b.1

/-- The mark of the last byte of a packet. -/
def Word.last (w : Word) : Bool := w.getLsbD 8

/-- The beat of a word. -/
def beatOf (w : Word) : Byte × Bool := (w.extractLsb' 0 8, w.last)

/-- `pulse_transfer`: the pulse is held on the one clock until it has come back from the other. -/
structure PulseTransfer where
  aPulseR : Bool
  ack : Afifo.BitSynchroniser
  bFf0 : Bool
  bFf1 : Bool
  bFf2 : Bool

namespace PulseTransfer

variable (c : PulseTransfer)

/-- `b_pulse_out`: the pulse has come to the last but one of the flops. -/
def bPulseOut : Bool := !c.bFf2 && c.bFf1

/-- An edge of `clk_a`. -/
def stepA (aPulseIn : Bool) : PulseTransfer :=
  { c with
    aPulseR := if aPulseIn then true else if c.ack.syncOut then false else c.aPulseR
    ack := c.ack.step c.bFf1 }

/-- An edge of `clk_b`. -/
def stepB : PulseTransfer :=
  { c with
    bFf0 := c.aPulseR
    bFf1 := c.bFf0
    bFf2 := c.bFf1 }

end PulseTransfer

/-- `skid_buffer_single`: a register that catches one word when the `fifo` is full. -/
structure SkidBufferSingle where
  expansionDataR : Word
  expansionValidR : Bool

namespace SkidBufferSingle

variable (k : SkidBufferSingle) (dataIn : Word) (validIn readyIn : Bool)

/-- `ready_out`: the register is free. -/
def readyOut : Bool := !k.expansionValidR

/-- `data_out`: a word in the register goes first. -/
def dataOut : Word := if k.expansionValidR then k.expansionDataR else dataIn

/-- `valid_out`. -/
def validOut : Bool := k.expansionValidR || validIn

/-- One clock edge. -/
def step (reset : Bool) : SkidBufferSingle where
  expansionDataR :=
    if reset then 0
    else if !readyIn && (validIn && !k.expansionValidR) then dataIn
    else k.expansionDataR
  expansionValidR :=
    !reset &&
      if readyIn then false
      else if validIn && !k.expansionValidR then validIn
      else k.expansionValidR

end SkidBufferSingle

/-! ## The whole -/

/-- All registers. -/
structure State (D : ℕ) where
  resetPulseTransfer : PulseTransfer
  afifo : Afifo.State D Word
  skidBuffer : SkidBufferSingle
  fifo : Fifo.State D Word
  numPacketsInFifo : BitVec 5
  readPacket : Bool

/-- A rising edge of one of the two clocks, with the inputs of its side. -/
inductive Edge
  | wr (reset : Bool) (tdata : Byte) (tvalid tlast : Bool)
  | rd (tready : Bool)

namespace State

variable (s : State D) (tready : Bool)

/-- `reset_rd_clk`. -/
def resetRdClk : Bool := s.resetPulseTransfer.bPulseOut

/-- `s_axis_tready_out`. -/
def sAxisTready : Bool := !s.afifo.full

/-- `afifo_dout`: the word that the `afifo` shows. -/
def afifoDout : Word := s.afifo.readData true

/-- Whether the `afifo` shows a word. -/
def afifoValid : Bool := !s.afifo.empty true

/-- `fifo_din`. -/
def fifoDin : Word := s.skidBuffer.dataOut s.afifoDout

/-- `fifo_we`. -/
def fifoWe : Bool := s.skidBuffer.validOut s.afifoValid

/-- `fifo_dout`. -/
def fifoDout : Word := s.fifo.dataOutR

/-- `fifo_re`: nothing is read while no packet is. -/
def fifoRe : Bool := if s.readPacket then tready else false

/-- `packet_available`: the count says that a packet is stored whole. -/
def packetAvailable : Bool := s.numPacketsInFifo != 0

/-- The last word of a packet is stored at an edge of the read clock. -/
def storesLast : Bool := s.fifoWe && !s.fifo.fullSig && s.fifoDin.last

/-- The last word of a packet is read at an edge of the read clock. -/
def readsLast : Bool := s.fifoRe tready && s.fifoDout.last && !s.fifo.empty

/-- The ports of the `fifo`. -/
def fifoInputs : Fifo.Inputs Word where
  sreset := s.resetRdClk
  writeData := s.fifoDin
  writeEn := s.fifoWe
  readEn := s.fifoRe tready

/-- An edge of the write clock. -/
def wrStep (reset : Bool) (tdata : Byte) (tvalid tlast : Bool) : State D :=
  { s with
    resetPulseTransfer := s.resetPulseTransfer.stepA reset
    afifo := s.afifo.wrStep reset (tvalid && !s.afifo.resetBusySig) (wordOf (tdata, tlast)) }

/-- An edge of the read clock. -/
def rdStep : State D where
  resetPulseTransfer := s.resetPulseTransfer.stepB
  afifo := s.afifo.rdStep true s.skidBuffer.readyOut
  skidBuffer := s.skidBuffer.step s.afifoDout s.afifoValid (!s.fifo.fullSig) s.resetRdClk
  fifo := Fifo.step s.fifo (s.fifoInputs tready)
  numPacketsInFifo :=
    if s.resetRdClk then 0
    else if s.storesLast && !s.readsLast tready then s.numPacketsInFifo + 1
    else if !s.storesLast && s.readsLast tready then s.numPacketsInFifo - 1
    else s.numPacketsInFifo
  readPacket :=
    !s.resetRdClk && !s.readsLast tready && (s.packetAvailable || s.readPacket)

/-- `m_axis_tdata_out`. -/
def mAxisTdata : Byte := (beatOf s.fifoDout).1

/-- `m_axis_tlast_out`. -/
def mAxisTlast : Bool := (beatOf s.fifoDout).2

/-- `m_axis_tvalid_out`. -/
def mAxisTvalid : Bool := s.readPacket && !s.fifo.empty

end State

/-- One rising edge of either clock. -/
def step (s : State D) : Edge → State D
  | .wr reset tdata tvalid tlast => s.wrStep reset tdata tvalid tlast
  | .rd tready => s.rdStep tready

/-- The initial values of the registers that have one. -/
structure PowerUp (s : State D) : Prop where
  resetPulseTransfer : s.resetPulseTransfer = ⟨false, ⟨false, false⟩, false, false, false⟩
  afifo : Afifo.PowerUp s.afifo
  expansionValidR : s.skidBuffer.expansionValidR = false
  readPointer : s.fifo.readPointer = 0
  writePointer : s.fifo.writePointer = 0
  outputValidR : s.fifo.outputValidR = false
  numPacketsInFifo : s.numPacketsInFifo = 0
  readPacket : s.readPacket = false

/-- The edge carries no reset. -/
def NoReset (_ : State D) : Edge → Prop
  | .wr reset _ _ _ => reset = false
  | .rd _ => True

instance (s : State D) : ∀ e, Decidable (NoReset s e)
  | .wr reset _ _ _ => inferInstanceAs (Decidable (reset = false))
  | .rd _ => inferInstanceAs (Decidable True)

/-! ## What happens at the ports -/

/-- The beat accepted at the input at an edge. -/
def accepted (s : State D) : Edge → List (Byte × Bool)
  | .wr _ tdata tvalid tlast => if tvalid && s.sAxisTready then [(tdata, tlast)] else []
  | .rd _ => []

/-- The beat accepted from the output at an edge. -/
def sent (s : State D) : Edge → List (Byte × Bool)
  | .wr _ _ _ _ => []
  | .rd tready => if s.mAxisTvalid && tready then [(s.mAxisTdata, s.mAxisTlast)] else []

/-- The packets that are complete in the `fifo`. -/
def packetsStored (s : State D) : ℕ := (Fifo.content s.fifo).countP Word.last

end RmiiEthernet.PacketAfifo
