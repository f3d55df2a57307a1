import RmiiEthernet.Sync.Gray
import RmiiEthernet.Sync.Ring
import RmiiEthernet.Sync.Run
import Mathlib.Logic.Function.Basic

/-!
# The asynchronous FIFO

`afifo` carries words from the write clock to the read clock. Each side counts in binary to
address a dual-port memory and in Gray code for the other side, which sees the pointer two of its
own clock edges late. With `G_FWFT` the read side ends in `fifo_fwft`, three registers that make
the next word visible before it is asked for.

An edge of one clock is one step (`Edge`, `step`); the two clocks interleave in any order. The
depth is `2 ^ D`, the words are of any type `α`. Registers without an initial value in the source
are left open in `PowerUp`.
-/

namespace RmiiEthernet.Afifo

open Sync

/-! ## The parts -/

/-- `afifo_read_logic`: the read address, its Gray code and the registered empty flag. -/
structure ReadLogic (A : ℕ) where
  emptyR : Bool
  readAddrR : BitVec (A + 1)
  readPointerR : BitVec (A + 1)

namespace ReadLogic

variable {A : ℕ} (r : ReadLogic A) (readEnIn : Bool)

/-- `read_addr_next`: one on if a word is read and there is one. -/
def readAddrNext : BitVec (A + 1) := if !r.emptyR && readEnIn then r.readAddrR + 1 else r.readAddrR

/-- `read_pointer_next`, in Gray code. -/
def readPointerNext : BitVec (A + 1) := gray (r.readAddrNext readEnIn)

/-- An edge of the read clock. -/
def step (reset : Bool) (writePointerIn : BitVec (A + 1)) : ReadLogic A where
  emptyR := reset || r.readPointerNext readEnIn == writePointerIn
  readAddrR := if reset then 0 else r.readAddrNext readEnIn
  readPointerR := if reset then 0 else r.readPointerNext readEnIn

/-- `read_addr_out`: the address without its top bit. -/
def readAddrOut : BitVec A := r.readAddrR.setWidth A

end ReadLogic

/-- `afifo_write_logic`: the write address, its Gray code and the registered full flag. -/
structure WriteLogic (A : ℕ) where
  fullR : Bool
  writeAddrR : BitVec (A + 1)
  writePointerR : BitVec (A + 1)

namespace WriteLogic

variable {A : ℕ} (r : WriteLogic A) (writeEnIn : Bool) (readPointerIn : BitVec (A + 1))

/-- `write_addr_next`: one on if a word is written and there is room. -/
def writeAddrNext : BitVec (A + 1) :=
  if !r.fullR && writeEnIn then r.writeAddrR + 1 else r.writeAddrR

/-- `write_pointer_next`, in Gray code. -/
def writePointerNext : BitVec (A + 1) := gray (r.writeAddrNext writeEnIn)

/-- The top two bits of the pointers differ, all lower bits are equal. -/
def fullSig : Bool :=
  (r.writePointerNext writeEnIn).getLsbD A != readPointerIn.getLsbD A &&
    (r.writePointerNext writeEnIn).getLsbD (A - 1) != readPointerIn.getLsbD (A - 1) &&
    (r.writePointerNext writeEnIn).setWidth (A - 1) == readPointerIn.setWidth (A - 1)

/-- An edge of the write clock. -/
def step (reset : Bool) : WriteLogic A where
  fullR := !reset && r.fullSig writeEnIn readPointerIn
  writeAddrR := if reset then 0 else r.writeAddrNext writeEnIn
  writePointerR := if reset then 0 else r.writePointerNext writeEnIn

/-- `write_addr_out`: the address without its top bit. -/
def writeAddrOut : BitVec A := r.writeAddrR.setWidth A

end WriteLogic

/-- `grey_pointer_sync`: two flops in a row. -/
structure GreyPointerSync (A : ℕ) where
  dinR : BitVec (A + 1)
  dinR2 : BitVec (A + 1)

/-- An edge of the clock to which the pointer goes. -/
def GreyPointerSync.step {A : ℕ} (c : GreyPointerSync A) (reset : Bool) (din : BitVec (A + 1)) :
    GreyPointerSync A where
  dinR := if reset then 0 else din
  dinR2 := if reset then 0 else c.dinR

/-- `bit_synchroniser` with its default of two stages. -/
structure BitSynchroniser where
  ff0 : Bool
  ff1 : Bool

/-- An edge of the clock to which the bit goes. -/
def BitSynchroniser.step (c : BitSynchroniser) (asyncIn : Bool) : BitSynchroniser where
  ff0 := asyncIn
  ff1 := c.ff0

/-- `sync_out`: the second of them. -/
def BitSynchroniser.syncOut (c : BitSynchroniser) : Bool := c.ff1

/-- `fifo_fwft`: the valid bits of the three stages, the oldest word in `outputR`. The newest of
the three words stands in the output register of the memory. -/
structure FifoFwft (α : Type*) where
  fifoValid : Bool
  bufferValid : Bool
  outputValid : Bool
  bufferR : α
  outputR : α

namespace FifoFwft

variable {α : Type*} (f : FifoFwft α) (readEnIn : Bool)

/-- The output register takes a word when it is empty or read. -/
def updateOutput : Bool := (f.bufferValid || f.fifoValid) && (readEnIn || !f.outputValid)

/-- The buffer takes the word of the memory when the output register does not. -/
def updateBuffer : Bool := f.fifoValid && f.bufferValid == f.updateOutput readEnIn

/-- `fifo_read_en_sig`: a word is fetched unless all three stages hold one. -/
def fifoReadEnSig (reset fifoEmptyIn : Bool) : Bool :=
  !reset && (!fifoEmptyIn && !(f.fifoValid && f.bufferValid && f.outputValid))

/-- An edge of the read clock; `zero` is the word the reset clears the registers to. -/
def step (zero : α) (reset fifoEmptyIn : Bool) (fifoQ : α) : FifoFwft α :=
  if reset then ⟨false, false, false, zero, zero⟩
  else
    { bufferR := if f.updateBuffer readEnIn then fifoQ else f.bufferR
      outputR :=
        if f.updateOutput readEnIn then if f.bufferValid then f.bufferR else fifoQ else f.outputR
      fifoValid := f.fifoReadEnSig reset fifoEmptyIn ||
        (f.fifoValid && !(f.updateBuffer readEnIn || f.updateOutput readEnIn))
      bufferValid := f.updateBuffer readEnIn || (f.bufferValid && !f.updateOutput readEnIn)
      outputValid := f.updateOutput readEnIn || (f.outputValid && !readEnIn) }

end FifoFwft

/-! ## The whole -/

/-- The states of the reset handshake. -/
inductive ResetState
  | idle
  | waitForResetDone
  deriving DecidableEq

/-- All registers of `afifo`. -/
structure State (D : ℕ) (α : Type*) where
  -- the dual-port memory and its output register `fifo_q`
  memory : BitVec D → α
  doutB : α
  -- read clock
  readLogic : ReadLogic D
  fwft : FifoFwft α
  writePtrSync : GreyPointerSync D
  resetToReadSync : BitSynchroniser
  -- write clock
  writeLogic : WriteLogic D
  readPtrSync : GreyPointerSync D
  readResetDoneSync : BitSynchroniser
  resetState : ResetState
  resetToRead : Bool
  resetBusySig : Bool

/-- A rising edge of one of the two clocks, with the inputs of its side. -/
inductive Edge (α : Type*)
  | wr (reset writeEn : Bool) (writeData : α)
  | rd (readEn : Bool)

variable {D : ℕ} {α : Type*}

namespace State

variable (gFwft : Bool) (s : State D α)

/-- `read_reset`: the reset on the read clock. -/
def readReset : Bool := s.resetToReadSync.syncOut

/-- `fifo_empty`, of the memory without the words on their way out. -/
def fifoEmpty : Bool := s.readLogic.emptyR

/-- `full` of the write side. -/
def full : Bool := s.writeLogic.fullR

/-- `empty`: with `G_FWFT`, what the output register of `fifo_fwft` says. -/
def empty : Bool := if gFwft then !s.fwft.outputValid else s.fifoEmpty

/-- `read_data`. -/
def readData : α := if gFwft then s.fwft.outputR else s.doutB

/-- `read_en_internal`: with `G_FWFT`, what `fifo_fwft` asks for. -/
def readEnInternal (readEn : Bool) : Bool :=
  if gFwft then s.fwft.fifoReadEnSig s.readReset s.fifoEmpty else readEn && !s.fifoEmpty

/-- `write_en_wr_clk`: nothing is written while the reset is busy. -/
def writeEnWrClk (writeEn : Bool) : Bool := !s.resetBusySig && (writeEn && !s.full)

/-- The reset handshake on the write clock: next state, `reset_to_read`, `reset_busy_sig`. -/
def resetStep (reset : Bool) : ResetState × Bool × Bool :=
  match s.resetState with
  | .idle => if reset then (.waitForResetDone, true, true) else (.idle, false, false)
  | .waitForResetDone =>
    if s.readResetDoneSync.syncOut then (.idle, false, false) else (.waitForResetDone, true, true)

/-- An edge of the write clock. -/
def wrStep (reset writeEn : Bool) (writeData : α) : State D α :=
  { s with
    memory :=
      if s.writeEnWrClk writeEn then write s.memory s.writeLogic.writeAddrOut writeData
      else s.memory
    readPtrSync := s.readPtrSync.step reset s.readLogic.readPointerR
    writeLogic := s.writeLogic.step writeEn s.readPtrSync.dinR2 reset
    readResetDoneSync := s.readResetDoneSync.step s.readReset
    resetState := (s.resetStep reset).1
    resetToRead := (s.resetStep reset).2.1
    resetBusySig := (s.resetStep reset).2.2 }

/-- An edge of the read clock. -/
def rdStep [Zero α] (readEn : Bool) : State D α :=
  { s with
    doutB :=
      if s.readEnInternal gFwft readEn then s.memory s.readLogic.readAddrOut else s.doutB
    readLogic := s.readLogic.step (s.readEnInternal gFwft readEn) s.readReset s.writePtrSync.dinR2
    fwft := if gFwft then s.fwft.step readEn 0 s.readReset s.fifoEmpty s.doutB else s.fwft
    writePtrSync := s.writePtrSync.step s.readReset s.writeLogic.writePointerR
    resetToReadSync := s.resetToReadSync.step s.resetToRead }

end State

/-- One rising edge of either clock. -/
def step [Zero α] (gFwft : Bool) (s : State D α) : Edge α → State D α
  | .wr reset writeEn writeData => s.wrStep reset writeEn writeData
  | .rd readEn => s.rdStep gFwft readEn

/-- The initial values of the registers that have one. The memory and the data registers are
open. -/
structure PowerUp (s : State D α) : Prop where
  readLogic : s.readLogic = ⟨true, 0, 0⟩
  writeLogic : s.writeLogic = ⟨false, 0, 0⟩
  writePtrSync : s.writePtrSync = ⟨0, 0⟩
  readPtrSync : s.readPtrSync = ⟨0, 0⟩
  fifoValid : s.fwft.fifoValid = false
  bufferValid : s.fwft.bufferValid = false
  outputValid : s.fwft.outputValid = false
  resetToReadSync : s.resetToReadSync = ⟨false, false⟩
  readResetDoneSync : s.readResetDoneSync = ⟨false, false⟩
  resetState : s.resetState = .idle
  resetToRead : s.resetToRead = false
  resetBusySig : s.resetBusySig = false

/-! ## What happens at the ports -/

/-- The word accepted from the writer at an edge: `write_en` without `full`. -/
def accepted (s : State D α) : Edge α → List α
  | .wr _ writeEn writeData => if writeEn && !s.full then [writeData] else []
  | .rd _ => []

/-- The word delivered to the reader at an edge: `read_en` without `empty`. With `G_FWFT` it is
the word on `read_data` before the edge, otherwise the one on `read_data` after it. -/
def delivered [Zero α] (gFwft : Bool) (s : State D α) : Edge α → List α
  | .wr _ _ _ => []
  | .rd readEn =>
    if readEn && !s.empty gFwft then
      [if gFwft then s.readData gFwft else (s.rdStep gFwft readEn).readData gFwft]
    else []

/-- The circuit with a flag for every row of the memory: a word was written there and has not
been read from the memory since. -/
def flagged [Zero α] (gFwft : Bool) (x : State D α × (BitVec D → Bool)) (e : Edge α) :
    State D α × (BitVec D → Bool) :=
  (step gFwft x.1 e,
    match e with
    | .wr _ writeEn _ =>
      if x.1.writeEnWrClk writeEn then Function.update x.2 x.1.writeLogic.writeAddrOut true
      else x.2
    | .rd readEn =>
      if x.1.readEnInternal gFwft readEn then
        Function.update x.2 x.1.readLogic.readAddrOut false
      else x.2)

/-- The edge writes no row whose word has not been read. -/
def KeepsUnread (x : State D α × (BitVec D → Bool)) : Edge α → Prop
  | .wr _ writeEn _ => x.1.writeEnWrClk writeEn = true → x.2 x.1.writeLogic.writeAddrOut = false
  | .rd _ => True

/-- The edge carries no reset. -/
def NoReset (_ : State D α) : Edge α → Prop
  | .wr reset _ _ => reset = false
  | .rd _ => True

instance (s : State D α) : ∀ e, Decidable (NoReset s e)
  | .wr reset _ _ => inferInstanceAs (Decidable (reset = false))
  | .rd _ => inferInstanceAs (Decidable True)

end RmiiEthernet.Afifo
