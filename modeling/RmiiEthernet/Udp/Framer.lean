import RmiiEthernet.Fifo
import RmiiEthernet.Sync.Packet
import RmiiEthernet.Udp.Format

/-!
# The UDP framer

`udp_ip_framer` stores the bytes of a payload in one FIFO and, when the last of them goes in, the
length of the payload in another. A state machine waits for a length, sends the headers that
contain it, and then as many bytes as the length says, without looking whether they are there.

* `Buffers` ties the two FIFOs and the register in front of them to the payloads that wait: the
  lengths and the bytes stay in step under any backpressure (`Buffers.step`).
* `Owes` adds the state machine and what it has still to send.
-/

namespace RmiiEthernet.UdpFramer

open Sync EthernetFcs Udp

/-! ## The circuit -/

/-- `fsm_state_t`. -/
inductive FsmState
  | idle
  | ipVersion | ipDscp | ipLen1 | ipLen2 | ipId1 | ipId2 | ipFlags1 | ipFlags2 | ipTtl | ipProtocol
  | ipHdrChecksum1 | ipHdrChecksum2
  | ipSrcIp1 | ipSrcIp2 | ipSrcIp3 | ipSrcIp4
  | ipDstIp1 | ipDstIp2 | ipDstIp3 | ipDstIp4
  | srcPort1 | srcPort2 | dstPort1 | dstPort2
  | length1 | length2 | checksum1 | checksum2
  | data
  deriving DecidableEq

/-- The input ports in one cycle. -/
structure Inputs where
  reset : Bool := false
  enableIn : Bool := true
  sourcePortIn : BitVec 16
  destinationPortIn : BitVec 16
  srcAddressIn : BitVec 32
  destinationAddressIn : BitVec 32
  ipChecksumInitIn : BitVec 16
  sAxisTdata : Byte := 0
  sAxisTvalid : Bool := false
  sAxisTlast : Bool := false
  mAxisTready : Bool := true

/-- The registers and the two FIFOs. -/
structure State where
  firstWord : Bool
  dataFifoDin : Byte
  dataFifoWe : Bool
  payloadLengthCounter : BitVec 11
  packetLengthValid : Bool
  dataFifo : Fifo.State 12 Byte
  lengthFifo : Fifo.State 10 (BitVec 11)
  ipChecksumC1 : BitVec 16
  ipChecksumC2 : BitVec 16
  framerState : FsmState
  payloadWordsRemaining : BitVec 11
  udpLength : BitVec 16
  ipLength : BitVec 16
  framedTdata : Byte
  framedTvalid : Bool
  framedTlast : Bool
  outputTdata : Byte
  outputTvalid : Bool
  outputTlast : Bool

/-- `C_IP_HDR_WORD_1`: version 4, a header of five words. -/
def ipHdrWord1 : Byte := 0x45

/-- `C_IP_HDR_WORD_2`: no differentiated services. -/
def ipHdrWord2 : Byte := 0x00

/-- `C_IP_HDR_WORD_5`: identification. -/
def ipHdrWord5 : Byte := 0x00

/-- `C_IP_HDR_WORD_6`: identification. -/
def ipHdrWord6 : Byte := 0x00

/-- `C_IP_HDR_WORD_7`: flags and fragment offset. -/
def ipHdrWord7 : Byte := 0x00

/-- `C_IP_HDR_WORD_8`: fragment offset. -/
def ipHdrWord8 : Byte := 0x00

/-- `C_IP_HDR_WORD_9`: time to live. -/
def ipHdrWord9 : Byte := 0x80

/-- `C_IP_HDR_WORD_10`: the protocol is UDP. -/
def ipHdrWord10 : Byte := 0x11

section Signals

variable (s : State) (i : Inputs)

/-- `ready`: both FIFOs have room, or there is nothing to store. -/
def ready : Bool := !(s.dataFifo.fullSig || s.lengthFifo.fullSig) || !s.dataFifoWe

/-- The output register is empty or read. -/
def outputReady : Bool := i.mAxisTready || !s.outputTvalid

/-- `data_fifo_re`: a byte of the payload is sent. -/
def dataFifoRe : Bool := s.framerState == .data && outputReady s i

/-- `length_fifo_we`: a payload has ended. -/
def lengthFifoWe : Bool := s.packetLengthValid && ready s

/-- `length_fifo_re`: the last byte that needs the length is sent. -/
def lengthFifoRe : Bool := s.framerState == .length2 && outputReady s i

/-- `ip_checksum_go`: the checksum is taken over. -/
def ipChecksumGo : Bool := s.framerState == .ipTtl && outputReady s i

/-- `packet_available`: a payload is stored whole. -/
def packetAvailable : Bool := !s.lengthFifo.empty

/-- `idle_out`. -/
def idleOut : Bool := s.framerState == .idle

/-- The ports of `i_data_fifo`. -/
def dataFifoInputs : Fifo.Inputs Byte where
  sreset := i.reset
  writeData := s.dataFifoDin
  writeEn := s.dataFifoWe && ready s
  readEn := dataFifoRe s i

/-- The ports of `i_length_fifo`. -/
def lengthFifoInputs : Fifo.Inputs (BitVec 11) where
  sreset := i.reset
  writeData := s.payloadLengthCounter
  writeEn := lengthFifoWe s && ready s
  readEn := lengthFifoRe s i

/-- The input register takes what is on the ports. -/
def loads : Bool := ready s && i.enableIn

/-- A byte of a header goes into the register. -/
def State.frame (next : FsmState) (b : Byte) : State :=
  { s with framerState := next, framedTdata := b, framedTvalid := true, framedTlast := false }

/-- The state machine when it may move. -/
def advance : State :=
  match s.framerState with
  | .idle =>
    if packetAvailable s && i.enableIn then
      { s with
        framerState := .ipVersion
        payloadWordsRemaining := s.lengthFifo.dataOutR - 1
        udpLength := s.lengthFifo.dataOutR.setWidth 16 + 8
        ipLength := s.lengthFifo.dataOutR.setWidth 16 + 28
        framedTvalid := false, framedTlast := false }
    else { s with framedTvalid := false, framedTlast := false }
  | .ipVersion => s.frame .ipDscp ipHdrWord1
  | .ipDscp => s.frame .ipLen1 ipHdrWord2
  | .ipLen1 => s.frame .ipLen2 (s.ipLength.extractLsb' 8 8)
  | .ipLen2 => s.frame .ipId1 (s.ipLength.extractLsb' 0 8)
  | .ipId1 => s.frame .ipId2 ipHdrWord5
  | .ipId2 => s.frame .ipFlags1 ipHdrWord6
  | .ipFlags1 => s.frame .ipFlags2 ipHdrWord7
  | .ipFlags2 => s.frame .ipTtl ipHdrWord8
  | .ipTtl => s.frame .ipProtocol ipHdrWord9
  | .ipProtocol => s.frame .ipHdrChecksum1 ipHdrWord10
  | .ipHdrChecksum1 => s.frame .ipHdrChecksum2 (s.ipChecksumC2.extractLsb' 8 8)
  | .ipHdrChecksum2 => s.frame .ipSrcIp1 (s.ipChecksumC2.extractLsb' 0 8)
  | .ipSrcIp1 => s.frame .ipSrcIp2 (i.srcAddressIn.extractLsb' 24 8)
  | .ipSrcIp2 => s.frame .ipSrcIp3 (i.srcAddressIn.extractLsb' 16 8)
  | .ipSrcIp3 => s.frame .ipSrcIp4 (i.srcAddressIn.extractLsb' 8 8)
  | .ipSrcIp4 => s.frame .ipDstIp1 (i.srcAddressIn.extractLsb' 0 8)
  | .ipDstIp1 => s.frame .ipDstIp2 (i.destinationAddressIn.extractLsb' 24 8)
  | .ipDstIp2 => s.frame .ipDstIp3 (i.destinationAddressIn.extractLsb' 16 8)
  | .ipDstIp3 => s.frame .ipDstIp4 (i.destinationAddressIn.extractLsb' 8 8)
  | .ipDstIp4 => s.frame .srcPort1 (i.destinationAddressIn.extractLsb' 0 8)
  | .srcPort1 => s.frame .srcPort2 (i.sourcePortIn.extractLsb' 8 8)
  | .srcPort2 => s.frame .dstPort1 (i.sourcePortIn.extractLsb' 0 8)
  | .dstPort1 => s.frame .dstPort2 (i.destinationPortIn.extractLsb' 8 8)
  | .dstPort2 => s.frame .length1 (i.destinationPortIn.extractLsb' 0 8)
  | .length1 => s.frame .length2 (s.udpLength.extractLsb' 8 8)
  | .length2 => s.frame .checksum1 (s.udpLength.extractLsb' 0 8)
  | .checksum1 => s.frame .checksum2 0
  | .checksum2 => s.frame .data 0
  | .data =>
    { s with
      framerState := if s.payloadWordsRemaining == 0 then .idle else .data
      payloadWordsRemaining := s.payloadWordsRemaining - 1
      framedTdata := s.dataFifo.dataOutR
      framedTvalid := true
      framedTlast := s.payloadWordsRemaining == 0 }

/-- The process of the state machine. -/
def framerProcess : State :=
  let f := if outputReady s i then advance s i else s
  if i.reset then { f with framerState := .idle, framedTvalid := false, framedTlast := false }
  else f

/-- One clock edge. -/
def step : State where
  -- the input register
  packetLengthValid :=
    !i.reset && if loads s i then i.sAxisTlast else s.packetLengthValid
  dataFifoWe := !i.reset && if loads s i then i.sAxisTvalid else s.dataFifoWe
  dataFifoDin := if loads s i then i.sAxisTdata else s.dataFifoDin
  payloadLengthCounter :=
    if loads s i && i.sAxisTvalid then
      if s.firstWord then 1 else s.payloadLengthCounter + 1
    else s.payloadLengthCounter
  firstWord :=
    i.reset || if loads s i && i.sAxisTvalid then i.sAxisTlast else s.firstWord
  dataFifo := Fifo.step s.dataFifo (dataFifoInputs s i)
  lengthFifo := Fifo.step s.lengthFifo (lengthFifoInputs s i)
  -- the header checksum
  ipChecksumC1 := if ipChecksumGo s i then i.ipChecksumInitIn + s.ipLength else s.ipChecksumC1
  ipChecksumC2 := ~~~s.ipChecksumC1
  -- the state machine
  framerState := (framerProcess s i).framerState
  payloadWordsRemaining := (framerProcess s i).payloadWordsRemaining
  udpLength := (framerProcess s i).udpLength
  ipLength := (framerProcess s i).ipLength
  framedTdata := (framerProcess s i).framedTdata
  framedTvalid := (framerProcess s i).framedTvalid
  framedTlast := (framerProcess s i).framedTlast
  -- the output register
  outputTdata := if i.reset then 0 else if outputReady s i then s.framedTdata else s.outputTdata
  outputTvalid := !i.reset && if outputReady s i then s.framedTvalid else s.outputTvalid
  outputTlast := !i.reset && if outputReady s i then s.framedTlast else s.outputTlast

end Signals

/-- A state the reset leads to. -/
def AfterReset (s : State) : Prop := ∃ s₀ i, i.reset = true ∧ s = step s₀ i

/-! ## What happens at the ports -/

/-- The beat offered in a cycle. -/
def offer (i : Inputs) : Option (Byte × Bool) :=
  if i.sAxisTvalid then some (i.sAxisTdata, i.sAxisTlast) else none

/-- `s_axis_tready_out`. -/
def sAxisTready (s : State) (_ : Inputs) : Bool := ready s

/-- The beat accepted in a cycle. -/
def accepted (s : State) (i : Inputs) : List (Byte × Bool) :=
  if i.sAxisTvalid && ready s then [(i.sAxisTdata, i.sAxisTlast)] else []

/-- The beat taken at the output in a cycle. -/
def taken (s : State) (i : Inputs) : List (Byte × Bool) :=
  if s.outputTvalid && i.mAxisTready then [(s.outputTdata, s.outputTlast)] else []

/-- No reset, enabled, the configuration `cfg` on the ports, and `tlast` low with `tvalid`. -/
def Steady (cfg : Config) (_ : State) (i : Inputs) : Prop :=
  i.reset = false ∧ i.enableIn = true ∧ (i.sAxisTvalid = false → i.sAxisTlast = false) ∧
    i.sourcePortIn = cfg.sourcePort ∧ i.destinationPortIn = cfg.destinationPort ∧
    i.srcAddressIn = cfg.srcAddress ∧ i.destinationAddressIn = cfg.destinationAddress ∧
    i.ipChecksumInitIn = cfg.ipChecksumInit

instance (cfg : Config) (s : State) (i : Inputs) : Decidable (Steady cfg s i) :=
  inferInstanceAs (Decidable (_ ∧ _))

/-! ## The buffers -/

section Buffers

variable {cfg : Config} {s : State} {i : Inputs} {cur cur' g : List Byte}
  {lc lc' : List (BitVec 11)} {ps : List (List Byte)} {q : List Byte}

/-- The length of a payload as the circuit counts it. -/
def lengthOf (q : List Byte) : BitVec 11 := BitVec.ofNat 11 q.length

/-- The beat in the input register. -/
def inputReg (s : State) : List (Byte × Bool) :=
  if s.dataFifoWe then [(s.dataFifoDin, s.packetLengthValid)] else []

/-- The beat that goes from the input register into the FIFOs in a cycle. -/
def stored (s : State) : List (Byte × Bool) := if ready s then inputReg s else []

/-- What the FIFOs hold: the bytes `cur` still to be sent of the payload that is being sent, the
payloads `ps` that wait and the bytes `g` of a payload in progress; the length `lc` of the first as
long as it is needed, and the lengths of the others. -/
structure Stores (s : State) (cur : List Byte) (lc : List (BitVec 11)) (ps : List (List Byte))
    (g : List Byte) : Prop where
  data : ∃ l, Fifo.Holds s.dataFifo l ∧ Fifo.front s.dataFifo ++ l = cur ++ ps.flatten ++ g
  length : ∃ l, Fifo.Holds s.lengthFifo l ∧ Fifo.front s.lengthFifo ++ l = lc ++ ps.map lengthOf
  nonempty : [] ∉ ps

/-- The input register and the counter when the FIFOs hold the bytes `g` of a payload in
progress. -/
structure Counts (s : State) (g : List Byte) : Prop where
  valid : s.dataFifoWe = false → s.packetLengthValid = false
  firstWord : s.firstWord = (run cutStep g (inputReg s)).isEmpty
  counter : run cutStep g (inputReg s) ≠ [] →
    s.payloadLengthCounter = lengthOf (run cutStep g (inputReg s))
  length : s.packetLengthValid = true → s.payloadLengthCounter = lengthOf (g ++ [s.dataFifoDin])

theorem Stores.regroup (h : Stores s [] [] (q :: ps) g) : Stores s q [lengthOf q] ps g := by
  obtain ⟨l, hl, e⟩ := h.data
  obtain ⟨l', hl', e'⟩ := h.length
  exact ⟨⟨l, hl, by simpa using e⟩, ⟨l', hl', by simpa using e'⟩,
    fun hmem => h.nonempty (List.mem_cons_of_mem _ hmem)⟩

theorem written_data (s : State) (i : Inputs) :
    Fifo.written s.dataFifo (dataFifoInputs s i) = (stored s).map Prod.fst := by
  cases hw : s.dataFifoWe
  · simp [Fifo.written, dataFifoInputs, stored, inputReg, hw]
  · cases hd : s.dataFifo.fullSig <;> cases hl : s.lengthFifo.fullSig <;>
      simp [Fifo.written, dataFifoInputs, stored, inputReg, ready, hw, hd, hl]

theorem Counts.written_length (h : Counts s g) (i : Inputs) :
    Fifo.written s.lengthFifo (lengthFifoInputs s i) =
      (collect cutStep cutEmit g (stored s)).map lengthOf := by
  cases hv : s.packetLengthValid
  · cases hw : s.dataFifoWe <;> cases hr : ready s <;>
      simp [Fifo.written, lengthFifoInputs, lengthFifoWe, stored, inputReg, hv, hw, hr, cutEmit]
  · have hw : s.dataFifoWe = true := by
      by_contra hw
      simp [h.valid (by simpa using hw)] at hv
    have hc := h.length hv
    cases hd : s.dataFifo.fullSig <;> cases hl : s.lengthFifo.fullSig <;>
      simp [Fifo.written, lengthFifoInputs, lengthFifoWe, stored, inputReg, ready, hv, hw, hd, hl,
        cutEmit, hc]

theorem flatten_cut (g : List Byte) (bs : List (Byte × Bool)) :
    (collect cutStep cutEmit g bs).flatten ++ run cutStep g bs = g ++ bs.map Prod.fst := by
  induction bs generalizing g with
  | nil => simp
  | cons b bs ih =>
    obtain ⟨x, l⟩ := b
    rw [collect_cons, run_cons, List.flatten_append, List.append_assoc, ih]
    cases l <;> simp [cutStep, cutEmit]

theorem not_mem_cut (g : List Byte) (bs : List (Byte × Bool)) :
    [] ∉ collect cutStep cutEmit g bs := by
  induction bs generalizing g with
  | nil => simp
  | cons b bs ih =>
    obtain ⟨x, l⟩ := b
    rw [collect_cons, List.mem_append, not_or]
    exact ⟨by cases l <;> simp [cutEmit], ih _⟩

/-- **The two FIFOs stay in step**: one cycle, in which the state machine takes `cur` and `lc` down
to `cur'` and `lc'`. -/
theorem Stores.step (h : Stores s cur lc ps g) (hg : Counts s g) (hi : i.reset = false)
    (hcur : cur = Fifo.taken s.dataFifo (dataFifoInputs s i) ++ cur')
    (hlc : lc = Fifo.taken s.lengthFifo (lengthFifoInputs s i) ++ lc') :
    Stores (step s i) cur' lc' (ps ++ collect cutStep cutEmit g (stored s))
      (run cutStep g (stored s)) := by
  obtain ⟨l, hl, e⟩ := h.data
  obtain ⟨l', hl', e'⟩ := h.length
  refine ⟨⟨_, (hl.step hi).2, ?_⟩, ⟨_, (hl'.step hi).2, ?_⟩, ?_⟩
  · apply (List.append_right_inj (Fifo.taken s.dataFifo (dataFifoInputs s i))).mp
    rw [UdpFramer.step, hl.content_step hi, e, written_data, hcur]
    simp only [List.append_assoc, List.flatten_append, flatten_cut]
  · apply (List.append_right_inj (Fifo.taken s.lengthFifo (lengthFifoInputs s i))).mp
    rw [UdpFramer.step, hl'.content_step hi, e', hg.written_length, hlc]
    simp only [List.append_assoc, List.map_append]
  · rw [List.mem_append, not_or]
    exact ⟨h.nonempty, not_mem_cut _ _⟩

/-- The input register passes its beat on and takes the accepted one, or keeps it. -/
theorem stored_append_inputReg (hi : Steady cfg s i) :
    stored s ++ inputReg (step s i) = inputReg s ++ accepted s i := by
  obtain ⟨hreset, hen, hlast, -⟩ := hi
  cases hr : ready s
  · simp [stored, inputReg, accepted, step, loads, hr, hreset]
  · cases hv : i.sAxisTvalid
    · simp [stored, inputReg, accepted, step, loads, hr, hreset, hen, hv]
    · simp [stored, inputReg, accepted, step, loads, hr, hreset, hen, hv]

theorem run_inputReg_step (hi : Steady cfg s i) :
    run cutStep (run cutStep g (stored s)) (inputReg (step s i)) =
      run cutStep (run cutStep g (inputReg s)) (accepted s i) := by
  rw [← run_append, stored_append_inputReg hi, run_append]

theorem Counts.step (h : Counts s g) (hi : Steady cfg s i) :
    Counts (step s i) (run cutStep g (stored s)) := by
  have hrun : run cutStep (run cutStep g (stored s)) (inputReg (UdpFramer.step s i)) = _ :=
    run_inputReg_step hi
  obtain ⟨hreset, hen, hlast, -⟩ := hi
  have hfirst := h.firstWord
  have hcount := h.counter
  cases hr : ready s
  · have hacc : accepted s i = [] := by simp [accepted, hr]
    rw [hacc, run_nil] at hrun
    have hst : stored s = [] := by simp [stored, hr]
    refine ⟨?_, ?_, ?_, ?_⟩
    · simpa [UdpFramer.step, loads, hr, hreset] using h.valid
    · rw [hrun]
      simpa [UdpFramer.step, loads, hr, hreset] using hfirst
    · rw [hrun]
      simpa [UdpFramer.step, loads, hr, hreset] using hcount
    · rw [hst, run_nil]
      simpa [UdpFramer.step, loads, hr, hreset] using h.length
  · have hst : stored s = inputReg s := by simp [stored, hr]
    rw [hst] at hrun ⊢
    generalize run cutStep g (inputReg s) = g₁ at *
    cases hv : i.sAxisTvalid
    · have hacc : accepted s i = [] := by simp [accepted, hv]
      rw [hacc, run_nil] at hrun
      refine ⟨?_, ?_, ?_, ?_⟩
      · simp [UdpFramer.step, loads, hr, hen, hlast hv]
      · rw [hrun]
        simpa [UdpFramer.step, hv, hreset] using hfirst
      · rw [hrun]
        simpa [UdpFramer.step, hv] using hcount
      · simp [UdpFramer.step, loads, hr, hen, hlast hv]
    · have hacc : accepted s i = [(i.sAxisTdata, i.sAxisTlast)] := by simp [accepted, hv, hr]
      have hnext : (UdpFramer.step s i).payloadLengthCounter =
          lengthOf (g₁ ++ [i.sAxisTdata]) := by
        cases g₁ with
        | nil => simp [UdpFramer.step, loads, hr, hen, hv, hfirst, lengthOf]
        | cons x g₁ =>
          simp [UdpFramer.step, loads, hr, hen, hv, hfirst, hcount, lengthOf, BitVec.ofNat_add]
      rw [hacc, run_cons, run_nil] at hrun
      refine ⟨?_, ?_, ?_, ?_⟩
      · simp [UdpFramer.step, loads, hr, hen, hv, hreset]
      · rw [hrun]
        cases hl : i.sAxisTlast <;> simp [UdpFramer.step, loads, hr, hen, hv, hreset, hl, cutStep]
      · rw [hrun, hnext]
        cases hl : i.sAxisTlast <;> simp [cutStep]
      · rw [hnext]
        simp [UdpFramer.step, loads, hr, hen]

end Buffers

/-! ## What is owed -/

section Owed

/-- The number of header bytes that have been produced, in the states that send. -/
def FsmState.position : FsmState → Option ℕ
  | .idle => none
  | .ipVersion => some 0
  | .ipDscp => some 1
  | .ipLen1 => some 2
  | .ipLen2 => some 3
  | .ipId1 => some 4
  | .ipId2 => some 5
  | .ipFlags1 => some 6
  | .ipFlags2 => some 7
  | .ipTtl => some 8
  | .ipProtocol => some 9
  | .ipHdrChecksum1 => some 10
  | .ipHdrChecksum2 => some 11
  | .ipSrcIp1 => some 12
  | .ipSrcIp2 => some 13
  | .ipSrcIp3 => some 14
  | .ipSrcIp4 => some 15
  | .ipDstIp1 => some 16
  | .ipDstIp2 => some 17
  | .ipDstIp3 => some 18
  | .ipDstIp4 => some 19
  | .srcPort1 => some 20
  | .srcPort2 => some 21
  | .dstPort1 => some 22
  | .dstPort2 => some 23
  | .length1 => some 24
  | .length2 => some 25
  | .checksum1 => some 26
  | .checksum2 => some 27
  | .data => some 28

/-- The registers of the state machine after `k` bytes of the headers, with the bytes `cur` of the
payload still to be sent. -/
structure Sends (cfg : Config) (s : State) (k : ℕ) (cur : List Byte) : Prop where
  position : s.framerState.position = some k
  words : s.payloadWordsRemaining.toNat + 1 = cur.length
  lengths : k < 28 → s.ipLength = Udp.ipLength cur.length ∧ s.udpLength = Udp.udpLength cur.length
  checksum1 : 9 ≤ k → k < 28 →
    s.ipChecksumC1 = cfg.ipChecksumInit + Udp.ipLength cur.length
  checksum2 : 10 ≤ k → k < 28 → s.ipChecksumC2 = ipChecksum cfg cur.length

/-- What the state machine is doing: `cur` and `lc` are what it has still to take from the FIFOs
for the payload it is sending, `w` the bytes it has still to send. -/
inductive Phase (cfg : Config) (s : State) : List Byte → List (BitVec 11) → List Byte → Prop
  | idle : s.framerState = .idle →
      (Fifo.front s.dataFifo = [] → Fifo.front s.lengthFifo = []) → Phase cfg s [] [] []
  | busy (k : ℕ) (cur : List Byte) : Sends cfg s k cur → Fifo.front s.dataFifo ≠ [] →
      (k ≤ 25 → Fifo.front s.lengthFifo ≠ []) →
      Phase cfg s cur (if k ≤ 25 then [lengthOf cur] else [])
        ((headers cfg cur.length).drop k ++ cur)

variable {cfg : Config} {s : State} {i : Inputs} {cur g w : List Byte} {lc : List (BitVec 11)}
  {ps : List (List Byte)} {k : ℕ}

theorem Sends.le (h : Sends cfg s k cur) : k ≤ 28 := by
  have := h.position
  cases hs : s.framerState <;> rw [hs] at this <;> cases this <;> decide

theorem Sends.data_iff (h : Sends cfg s k cur) : s.framerState = .data ↔ k = 28 := by
  have := h.position
  cases hs : s.framerState <;> rw [hs] at this <;> cases this <;> simp

theorem Sends.length2_iff (h : Sends cfg s k cur) : s.framerState = .length2 ↔ k = 25 := by
  have := h.position
  cases hs : s.framerState <;> rw [hs] at this <;> cases this <;> simp

theorem Sends.ttl_iff (h : Sends cfg s k cur) : s.framerState = .ipTtl ↔ k = 8 := by
  have := h.position
  cases hs : s.framerState <;> rw [hs] at this <;> cases this <;> simp

/-- The state machine produces the next byte of the headers. -/
theorem Sends.advance_header (h : Sends cfg s k cur) (hi : Steady cfg s i) (hk : k < 28) :
    ∃ b, (headers cfg cur.length).drop k = b :: (headers cfg cur.length).drop (k + 1) ∧
      (advance s i).framerState.position = some (k + 1) ∧
      advance s i = s.frame (advance s i).framerState b := by
  obtain ⟨-, -, -, hsp, hdp, hsa, hda, -⟩ := hi
  have hpos := h.position
  have hck := h.checksum2
  obtain ⟨hil, hul⟩ := h.lengths hk
  cases hs : s.framerState <;> rw [hs] at hpos <;> cases hpos
  all_goals first
    | exact absurd hk (by decide)
    | refine ⟨_, rfl, ?_, ?_⟩ <;>
        simp only [advance, hs, hul, hsp, hdp, hsa, hda, hck (by decide) (by decide)] <;> rfl
    | refine ⟨_, rfl, ?_, ?_⟩ <;> simp only [advance, hs, hil] <;> rfl

theorem front_eq_of_ne_nil {D : ℕ} {α : Type*} {f : Fifo.State D α} {x : α} {l l' : List α}
    (h : Fifo.front f ≠ []) (e : Fifo.front f ++ l = x :: l') :
    Fifo.front f = [x] ∧ f.dataOutR = x := by
  unfold Fifo.front at *
  split at h
  · next hv =>
    rw [if_pos hv] at e ⊢
    simp only [List.cons_append, List.nil_append, List.cons.injEq] at e
    simp [e.1]
  · exact absurd rfl h

/-- When no byte of a later payload is stored, no length of one is. -/
theorem Stores.front_step (h : Stores s cur [] ps g) (hi : i.reset = false)
    (hcur : cur = Fifo.taken s.dataFifo (dataFifoInputs s i))
    (hd : Fifo.front (UdpFramer.step s i).dataFifo = []) :
    Fifo.front (UdpFramer.step s i).lengthFifo = [] := by
  obtain ⟨l, hl, e⟩ := h.data
  obtain ⟨l', hl', e'⟩ := h.length
  obtain ⟨rfl, hread⟩ := hl.eq_nil_of_front_step hi hd
  have htaken : Fifo.taken s.dataFifo (dataFifoInputs s i) = Fifo.front s.dataFifo := by
    rcases hread with hread | hfront
    · simp [Fifo.taken, hread]
    · simp [Fifo.taken, hfront]
  have hnil : ps = [] := by
    cases ps with
    | nil => rfl
    | cons q ps =>
      have hq : q ≠ [] := fun hq => h.nonempty (by simp [hq])
      rw [hcur, htaken] at e
      simp [hq] at e
  rw [hnil] at e'
  simp only [List.map_nil, List.append_nil, List.append_eq_nil_iff] at e'
  rw [UdpFramer.step, (hl'.step hi).1, e'.1, e'.2]
  simp

/-- A cycle in which the output is stalled. -/
theorem Phase.step_stalled (h : Phase cfg s cur lc w) (hst : Stores s cur lc ps g)
    (hi : Steady cfg s i) (hready : outputReady s i = false) :
    Phase cfg (step s i) cur lc w ∧ Fifo.taken s.dataFifo (dataFifoInputs s i) = [] ∧
      Fifo.taken s.lengthFifo (lengthFifoInputs s i) = [] := by
  have hreset := hi.1
  have htd : Fifo.taken s.dataFifo (dataFifoInputs s i) = [] := by
    simp [Fifo.taken, dataFifoInputs, dataFifoRe, hready]
  have htl : Fifo.taken s.lengthFifo (lengthFifoInputs s i) = [] := by
    simp [Fifo.taken, lengthFifoInputs, lengthFifoRe, hready]
  have hsame : framerProcess s i = s := by simp [framerProcess, hready, hreset]
  obtain ⟨l, hl, -⟩ := hst.data
  obtain ⟨l', hl', -⟩ := hst.length
  refine ⟨?_, htd, htl⟩
  cases h with
  | idle hs hj =>
    refine .idle (by simpa [step, hsame] using hs) fun hd => ?_
    exact hst.front_step hreset htd.symm hd
  | busy k cur h hfd hfl =>
    refine .busy k cur ⟨?_, ?_, ?_, ?_, ?_⟩ ?_ fun hk => ?_
    · simpa [step, hsame] using h.position
    · simpa [step, hsame] using h.words
    · simpa [step, hsame] using h.lengths
    · simpa [step, ipChecksumGo, hready] using h.checksum1
    · intro h10 h28
      simp [step, h.checksum1 (by omega) h28, ipChecksum]
    · rw [step, hl.front_step_of_not_read hreset (by simp [dataFifoInputs, dataFifoRe, hready]) hfd]
      exact hfd
    · rw [step, hl'.front_step_of_not_read hreset
        (by simp [lengthFifoInputs, lengthFifoRe, hready]) (hfl hk)]
      exact hfl hk

/-- The beat in the register in front of the output. -/
def framed (s : State) : List (Byte × Bool) :=
  if s.framedTvalid then [(s.framedTdata, s.framedTlast)] else []

/-- The state machine produces a byte of the headers. -/
theorem Phase.step_header (h : Sends cfg s k cur) (hst : Stores s cur lc ps g)
    (hlc : lc = if k ≤ 25 then [lengthOf cur] else []) (hfd : Fifo.front s.dataFifo ≠ [])
    (hfl : k ≤ 25 → Fifo.front s.lengthFifo ≠ []) (hi : Steady cfg s i)
    (hready : outputReady s i = true) (hk : k < 28) :
    ∃ lc' w', Phase cfg (step s i) cur lc' w' ∧
      Fifo.taken s.dataFifo (dataFifoInputs s i) = [] ∧
      lc = Fifo.taken s.lengthFifo (lengthFifoInputs s i) ++ lc' ∧
      beats ((headers cfg cur.length).drop k ++ cur) = framed (step s i) ++ beats w' := by
  have hreset := hi.1
  obtain ⟨b, hb, hpos, hadv⟩ := h.advance_header hi hk
  have hproc : framerProcess s i = s.frame (advance s i).framerState b := by
    rw [← hadv]
    simp [framerProcess, hready, hreset]
  have hnd : (s.framerState == FsmState.data) = false := by
    rw [beq_eq_false_iff_ne, Ne, h.data_iff]
    omega
  have hrd : dataFifoRe s i = false := by rw [dataFifoRe, hnd, Bool.false_and]
  have hrl : lengthFifoRe s i = decide (k = 25) := by
    rw [lengthFifoRe, hready, Bool.and_true, Bool.eq_iff_iff, beq_iff_eq, h.length2_iff,
      decide_eq_true_iff]
  have hgo : ipChecksumGo s i = decide (k = 8) := by
    rw [ipChecksumGo, hready, Bool.and_true, Bool.eq_iff_iff, beq_iff_eq, h.ttl_iff,
      decide_eq_true_iff]
  obtain ⟨l, hl, -⟩ := hst.data
  obtain ⟨l', hl', e'⟩ := hst.length
  obtain ⟨hil, hul⟩ := h.lengths hk
  refine ⟨_, _, .busy (k + 1) cur ⟨?_, ?_, ?_, ?_, ?_⟩ ?_ fun hk' => ?_, ?_, ?_, ?_⟩
  · simp only [step, hproc]
    exact hpos
  · simpa [step, hproc, State.frame] using h.words
  · simpa [step, hproc, State.frame] using fun _ => h.lengths hk
  · intro h9 h28
    rcases Nat.eq_or_lt_of_le h9 with he | hlt
    · simp [step, hgo, show k = 8 by omega, hil, hi.2.2.2.2.2.2.2]
    · simp [step, hgo, show k ≠ 8 by omega, h.checksum1 (by omega) hk]
  · intro h10 h28
    simp [step, h.checksum1 (by omega) hk, ipChecksum]
  · rw [step, hl.front_step_of_not_read hreset hrd hfd]
    exact hfd
  · rw [step, hl'.front_step_of_not_read hreset (by simp [lengthFifoInputs, hrl]; omega)
      (hfl (by omega))]
    exact hfl (by omega)
  · simp [Fifo.taken, dataFifoInputs, hrd]
  · rw [hlc] at e' ⊢
    rcases Nat.lt_trichotomy k 25 with hlt | rfl | hgt
    · simp [Fifo.taken, lengthFifoInputs, hrl, hlt.ne, show k ≤ 25 by omega,
        show k + 1 ≤ 25 by omega]
    · have hfront := (front_eq_of_ne_nil (hfl le_rfl) (by simpa using e')).1
      simp [Fifo.taken, lengthFifoInputs, hrl, hfront]
    · simp [Fifo.taken, lengthFifoInputs, hrl, show k ≠ 25 by omega, show ¬ k ≤ 25 by omega,
        show ¬ k + 1 ≤ 25 by omega]
  · have hcur : cur ≠ [] := List.ne_nil_of_length_pos (by have := h.words; omega)
    simp [hb, beats_cons, hcur, framed, step, hproc, State.frame]

/-- The state machine passes a byte of the payload. -/
theorem Phase.step_data (h : Sends cfg s 28 cur) (hst : Stores s cur [] ps g)
    (hfd : Fifo.front s.dataFifo ≠ []) (hi : Steady cfg s i) (hready : outputReady s i = true) :
    ∃ cur' w', Phase cfg (step s i) cur' [] w' ∧
      cur = Fifo.taken s.dataFifo (dataFifoInputs s i) ++ cur' ∧
      Fifo.taken s.lengthFifo (lengthFifoInputs s i) = [] ∧
      beats cur = framed (step s i) ++ beats w' := by
  have hreset := hi.1
  have hs : s.framerState = .data := h.data_iff.mpr rfl
  have hwords := h.words
  obtain ⟨l, hl, e⟩ := hst.data
  obtain ⟨b, cur, rfl⟩ := List.exists_cons_of_length_pos (show 0 < cur.length by omega)
  have hfront := front_eq_of_ne_nil hfd e
  have htd : Fifo.taken s.dataFifo (dataFifoInputs s i) = [b] := by
    simp [Fifo.taken, dataFifoInputs, dataFifoRe, hs, hready, hfront.1]
  have htl : Fifo.taken s.lengthFifo (lengthFifoInputs s i) = [] := by
    simp [Fifo.taken, lengthFifoInputs, lengthFifoRe, hs]
  have hout := hfront.2
  have hlen : s.payloadWordsRemaining.toNat = cur.length := by simpa using hwords
  have hzero : (s.payloadWordsRemaining == 0) = cur.isEmpty := by
    rw [Bool.eq_iff_iff, beq_iff_eq, List.isEmpty_iff, ← List.length_eq_zero_iff, ← hlen,
      BitVec.toNat_eq]
    exact Iff.rfl
  have hproc : framerProcess s i =
      { s with
        framerState := if cur.isEmpty then .idle else .data
        payloadWordsRemaining := s.payloadWordsRemaining - 1
        framedTdata := b, framedTvalid := true, framedTlast := cur.isEmpty } := by
    simp only [framerProcess, hready, hreset, advance, hs, hzero, hout]
    rfl
  have hframed : framed (step s i) = [(b, cur.isEmpty)] := by simp [framed, step, hproc]
  refine ⟨cur, cur, ?_, by simp [htd], htl, by simp [beats_cons, hframed]⟩
  cases cur with
  | nil =>
    refine .idle (by simp [step, hproc]) fun hd => ?_
    exact hst.front_step hreset htd.symm hd
  | cons c cur =>
    refine .busy 28 (c :: cur) ⟨?_, ?_, by omega, by omega, by omega⟩ ?_ (by omega)
    · simp [step, hproc, FsmState.position]
    · rw [step, hproc, List.length_cons]
      exact congrArg (· + 1) (toNat_sub_one_of_eq hlen)
    · intro hd
      have hnil := (hl.eq_nil_of_front_step hreset hd).1
      rw [hnil, hfront.1] at e
      simp at e

/-- The state machine starts with a payload: the length at the front of its FIFO is loaded. -/
theorem Phase.start {q : List Byte} (hs : s.framerState = .idle) (hp : packetAvailable s = true)
    (hout : s.lengthFifo.dataOutR = lengthOf q) (hq : q ≠ []) (hlen : q.length ≤ 2047)
    (hi : Steady cfg s i) (hready : outputReady s i = true)
    (hfd : Fifo.front (step s i).dataFifo ≠ []) (hfl : Fifo.front (step s i).lengthFifo ≠ []) :
    Phase cfg (step s i) q [lengthOf q] (datagram cfg q) := by
  have hproc : framerProcess s i = advance s i := by simp [framerProcess, hready, hi.1]
  have hpos := List.length_pos_of_ne_nil hq
  have hnat : (lengthOf q).toNat = q.length - 1 + 1 := by
    simp [lengthOf]
    omega
  have hadv : advance s i =
      { s with
        framerState := .ipVersion
        payloadWordsRemaining := lengthOf q - 1
        udpLength := (lengthOf q).setWidth 16 + 8
        ipLength := (lengthOf q).setWidth 16 + 28
        framedTvalid := false, framedTlast := false } := by
    simp only [advance, hs, hp, hi.2.1, hout]
    rfl
  refine .busy 0 q ⟨?_, ?_, fun _ => ?_, by omega, by omega⟩ hfd fun _ => hfl
  · rw [step, hproc, hadv]
    rfl
  · rw [step, hproc, hadv]
    change (lengthOf q - 1).toNat + 1 = q.length
    rw [toNat_sub_one_of_eq hnat]
    omega
  · rw [step, hproc, hadv]
    constructor <;> apply BitVec.eq_of_toNat_eq <;>
      simp [Udp.ipLength, Udp.udpLength, lengthOf] <;> omega

/-- The state machine is idle: it goes on waiting or starts with the next payload. -/
theorem Phase.step_idle (hs : s.framerState = .idle)
    (hj : Fifo.front s.dataFifo = [] → Fifo.front s.lengthFifo = []) (hst : Stores s [] [] ps g)
    (hps : ∀ q ∈ ps, q.length ≤ 2047) (hi : Steady cfg s i) (hready : outputReady s i = true) :
    Fifo.taken s.dataFifo (dataFifoInputs s i) = [] ∧
      Fifo.taken s.lengthFifo (lengthFifoInputs s i) = [] ∧ framed (step s i) = [] ∧
      (Phase cfg (step s i) [] [] [] ∨
        ∃ q ps', ps = q :: ps' ∧ Phase cfg (step s i) q [lengthOf q] (datagram cfg q)) := by
  have hreset := hi.1
  have htd : Fifo.taken s.dataFifo (dataFifoInputs s i) = [] := by
    simp [Fifo.taken, dataFifoInputs, dataFifoRe, hs]
  have htl : Fifo.taken s.lengthFifo (lengthFifoInputs s i) = [] := by
    simp [Fifo.taken, lengthFifoInputs, lengthFifoRe, hs]
  have hproc : framerProcess s i = advance s i := by simp [framerProcess, hready, hreset]
  have hframed : framed (step s i) = [] := by
    cases hp : packetAvailable s <;> simp [framed, step, hproc, advance, hs, hp, hi.2.1]
  refine ⟨htd, htl, hframed, ?_⟩
  obtain ⟨l, hl, -⟩ := hst.data
  obtain ⟨l', hl', e'⟩ := hst.length
  by_cases hfl : Fifo.front s.lengthFifo = []
  · have hp : packetAvailable s = false := by
      simpa [packetAvailable, Fifo.State.empty, Fifo.front] using hfl
    refine .inl (.idle ?_ fun hd => hst.front_step hreset htd.symm hd)
    simp [step, hproc, advance, hs, hp]
  · have hfd : Fifo.front s.dataFifo ≠ [] := fun hfd => hfl (hj hfd)
    have hp : packetAvailable s = true := by
      by_contra hp
      exact hfl (by simpa [packetAvailable, Fifo.State.empty, Fifo.front] using hp)
    cases ps with
    | nil => simp [hfl] at e'
    | cons q ps =>
      have hq : q ≠ [] := fun hq => hst.nonempty (by simp [hq])
      have hout : s.lengthFifo.dataOutR = lengthOf q := (front_eq_of_ne_nil hfl e').2
      refine .inr ⟨q, ps, rfl, Phase.start hs hp hout hq (hps q (by simp)) hi hready ?_ ?_⟩
      · rw [step, hl.front_step_of_not_read hreset (by simp [dataFifoInputs, dataFifoRe, hs]) hfd]
        exact hfd
      · rw [step, hl'.front_step_of_not_read hreset
          (by simp [lengthFifoInputs, lengthFifoRe, hs]) hfl]
        exact hfl

end Owed

/-! ## One cycle -/

section Cycle

variable {cfg : Config} {s : State} {i : Inputs} {cur g w : List Byte} {lc : List (BitVec 11)}
  {ps : List (List Byte)} {p : List (Byte × Bool)}

/-- The beat in the output register. -/
def shown (s : State) : List (Byte × Bool) :=
  if s.outputTvalid then [(s.outputTdata, s.outputTlast)] else []

/-- The beats of the datagrams for a list of payloads. -/
def datagrams (cfg : Config) (ps : List (List Byte)) : List (Byte × Bool) :=
  ps.flatMap fun q => beats (datagram cfg q)

/-- A cycle in which the output moves. The bytes and lengths that the state machine takes are the
first of those it has to take, and the beat it produces is the first of those it has to produce. -/
theorem Phase.step_ready (h : Phase cfg s cur lc w) (hst : Stores s cur lc ps g)
    (hps : ∀ q ∈ ps, q.length ≤ 2047) (hi : Steady cfg s i) (hready : outputReady s i = true) :
    ∃ cur' lc' w' ps', Phase cfg (step s i) cur' lc' w' ∧
      Stores s (Fifo.taken s.dataFifo (dataFifoInputs s i) ++ cur')
        (Fifo.taken s.lengthFifo (lengthFifoInputs s i) ++ lc') ps' g ∧
      (∀ q ∈ ps', q ∈ ps) ∧
      beats w ++ datagrams cfg ps = framed (step s i) ++ beats w' ++ datagrams cfg ps' := by
  cases h with
  | idle hs hj =>
    obtain ⟨htd, htl, hframed, h | ⟨q, ps', rfl, h⟩⟩ := Phase.step_idle hs hj hst hps hi hready
    · refine ⟨_, _, _, ps, h, by rwa [htd, htl], fun _ hq => hq, ?_⟩
      simp [hframed]
    · refine ⟨_, _, _, ps', h, ?_, fun _ hq => List.mem_cons_of_mem _ hq, ?_⟩
      · rw [htd, htl]
        exact hst.regroup
      · simp [hframed, datagrams]
  | busy k cur h hfd hfl =>
    by_cases hk : k < 28
    · obtain ⟨lc', w', h', htd, hlc, e⟩ := Phase.step_header h hst rfl hfd hfl hi hready hk
      refine ⟨cur, lc', w', ps, h', ?_, fun _ hq => hq, by rw [e]⟩
      rwa [htd, ← hlc]
    · obtain rfl : k = 28 := by
        have := h.le
        omega
      obtain ⟨cur', w', h', hcur, htl, e⟩ := Phase.step_data h hst hfd hi hready
      refine ⟨cur', [], w', ps, h', ?_, fun _ hq => hq, ?_⟩
      · rwa [htl, ← hcur]
      · rw [← e]
        rfl

/-- **What is owed** when the bytes `g` of a payload in progress have been accepted: the output
register, the register in front of it, the rest of the datagram that is being sent, and the
datagrams of the payloads that wait in the FIFOs and the input register. -/
def Owes (cfg : Config) (s : State) (g : List Byte) (p : List (Byte × Bool)) : Prop :=
  ∃ cur lc w ps g₀, Phase cfg s cur lc w ∧ Stores s cur lc ps g₀ ∧ Counts s g₀ ∧
    g = run cutStep g₀ (inputReg s) ∧
    (∀ q ∈ ps ++ collect cutStep cutEmit g₀ (inputReg s), q.length ≤ 2047) ∧
    p = shown s ++ framed s ++ beats w ++
      datagrams cfg (ps ++ collect cutStep cutEmit g₀ (inputReg s))

/-- What the state machine and the output registers do to what is owed, in both kinds of cycle. -/
theorem Phase.step (h : Phase cfg s cur lc w) (hst : Stores s cur lc ps g)
    (hps : ∀ q ∈ ps, q.length ≤ 2047) (hi : Steady cfg s i) :
    ∃ cur' lc' w' ps', Phase cfg (step s i) cur' lc' w' ∧
      Stores s (Fifo.taken s.dataFifo (dataFifoInputs s i) ++ cur')
        (Fifo.taken s.lengthFifo (lengthFifoInputs s i) ++ lc') ps' g ∧
      (∀ q ∈ ps', q ∈ ps) ∧
      shown s ++ framed s ++ beats w ++ datagrams cfg ps =
        taken s i ++ (shown (UdpFramer.step s i) ++ framed (UdpFramer.step s i) ++ beats w' ++
          datagrams cfg ps') := by
  have hreset := hi.1
  cases hready : outputReady s i
  · obtain ⟨h', htd, htl⟩ := h.step_stalled hst hi hready
    refine ⟨cur, lc, w, ps, h', by rwa [htd, htl], fun _ hq => hq, ?_⟩
    have hsame : framerProcess s i = s := by simp [framerProcess, hready, hreset]
    have hshown : shown (UdpFramer.step s i) = shown s := by
      simp [shown, UdpFramer.step, hready, hreset]
    have hframed : framed (UdpFramer.step s i) = framed s := by
      simp [framed, UdpFramer.step, hsame]
    have htaken : taken s i = [] := by
      simp only [outputReady, Bool.or_eq_false_iff] at hready
      simp [taken, hready.1]
    rw [hshown, hframed, htaken, List.nil_append]
  · obtain ⟨cur', lc', w', ps', h', hst', hmem, e⟩ := h.step_ready hst hps hi hready
    refine ⟨cur', lc', w', ps', h', hst', hmem, ?_⟩
    have hshown : shown (UdpFramer.step s i) = framed s := by
      simp [shown, framed, UdpFramer.step, hready, hreset]
    have htaken : taken s i = shown s := by
      cases ht : i.mAxisTready <;> cases ho : s.outputTvalid <;>
        simp_all [outputReady, taken, shown]
    rw [hshown, htaken]
    simp only [List.append_assoc] at e ⊢
    rw [e]

/-- **One cycle conserves what is owed.** -/
theorem owes_step (s : State) (g : List Byte) (p : List (Byte × Bool)) (i : Inputs)
    (h : Owes cfg s g p) (hi : Steady cfg s i)
    (hQ : ∀ q ∈ collect cutStep cutEmit g (accepted s i), q.length ≤ 2047) :
    ∃ p', Owes cfg (step s i) (run cutStep g (accepted s i)) p' ∧
      p ++ (collect cutStep cutEmit g (accepted s i)).flatMap (fun q => beats (datagram cfg q)) =
        taken s i ++ p' := by
  obtain ⟨cur, lc, w, ps, g₀, hph, hst, hc, rfl, hlen, rfl⟩ := h
  obtain ⟨cur', lc', w', ps', hph', hst', hmem, e⟩ :=
    hph.step hst (fun q hq => hlen q (List.mem_append_left _ hq)) hi
  -- the payloads completed in the register and by the accepted beat, before and after the cycle
  have hcut : collect cutStep cutEmit g₀ (inputReg s) ++
        collect cutStep cutEmit (run cutStep g₀ (inputReg s)) (accepted s i) =
      collect cutStep cutEmit g₀ (stored s) ++
        collect cutStep cutEmit (run cutStep g₀ (stored s)) (inputReg (step s i)) := by
    rw [← collect_append, ← collect_append, stored_append_inputReg hi]
  refine ⟨_, ⟨cur', lc', w', _, _, hph', hst'.step hc hi.1 rfl rfl, hc.step hi,
    (run_inputReg_step hi).symm, ?_, rfl⟩, ?_⟩
  · intro q hq
    rw [List.append_assoc, ← hcut, List.mem_append, List.mem_append] at hq
    rcases hq with hq | hq | hq
    · exact hlen q (List.mem_append_left _ (hmem q hq))
    · exact hlen q (List.mem_append_right _ hq)
    · exact hQ q hq
  · rw [List.append_assoc ps', ← hcut]
    simp only [datagrams, List.flatMap_append, List.append_assoc] at e ⊢
    rw [← List.append_assoc (beats w), ← List.append_assoc (framed s),
      ← List.append_assoc (shown s), e]
    simp only [List.append_assoc]

/-- The beat in the output register is owed first. -/
theorem Owes.shown_prefix (h : Owes cfg s g p) : shown s <+: p := by
  obtain ⟨cur, lc, w, ps, g₀, -, -, -, -, -, rfl⟩ := h
  simp only [List.append_assoc]
  exact List.prefix_append _ _

theorem owes_afterReset (h : AfterReset s) : Owes cfg s [] [] := by
  obtain ⟨s₀, i, hi, rfl⟩ := h
  have hd := Fifo.holds_step_sreset (s := s₀.dataFifo) (i := dataFifoInputs s₀ i) hi
  have hl := Fifo.holds_step_sreset (s := s₀.lengthFifo) (i := lengthFifoInputs s₀ i) hi
  have hreg : inputReg (step s₀ i) = [] := by simp [inputReg, step, hi]
  refine ⟨[], [], [], [], [], .idle ?_ fun _ => hl.2, ⟨⟨[], hd.1, ?_⟩, ⟨[], hl.1, ?_⟩, by simp⟩,
    ⟨?_, ?_, ?_, ?_⟩, ?_, ?_, ?_⟩
  · simp [step, framerProcess, hi]
  · rw [List.append_nil]
    exact hd.2
  · rw [List.append_nil]
    exact hl.2
  · simp [step, hi]
  · rw [hreg]
    simp [step, hi]
  · simp [hreg]
  · simp [step, hi]
  · simp [hreg]
  · simp [hreg]
  · rw [hreg]
    simp [shown, framed, datagrams, step, framerProcess, hi]

end Cycle

/-! ## Progress -/

section Progress

variable {cfg : Config} {s : State} {i : Inputs} {is : List Inputs} {g : List Byte}
  {p : List (Byte × Bool)}

/-- How many cycles, at most, the next beat is away from the output register. -/
def rank (s : State) : ℕ :=
  if s.outputTvalid then 0
  else if s.framedTvalid then 1
  else if s.framerState ≠ .idle then 2
  else if s.lengthFifo.outputValidR then 3
  else if s.lengthFifo.emptySig then 5
  else 4

theorem rank_le (s : State) : rank s ≤ 5 := by
  unfold rank
  repeat' split
  all_goals omega

theorem advance_framedTvalid (hs : s.framerState ≠ .idle) : (advance s i).framedTvalid = true := by
  cases h : s.framerState <;> first | exact absurd h hs | simp [advance, h, State.frame]

/-- A payload whose length is not stored yet is stored in the next cycle. -/
theorem Owes.lengthFifo_step (h : Owes cfg s g p) (hp : p ≠ []) (hi : Steady cfg s i)
    (hout : s.outputTvalid = false) (hframed : s.framedTvalid = false)
    (hs : s.framerState = .idle) (hv : s.lengthFifo.outputValidR = false)
    (he : s.lengthFifo.emptySig = true) : (step s i).lengthFifo.emptySig = false := by
  obtain ⟨cur, lc, w, ps, g₀, hph, hst, hc, -, hlen, rfl⟩ := h
  cases hph with
  | busy k cur h => simpa [hs, FsmState.position] using h.position
  | idle =>
    obtain ⟨l, hl, e⟩ := hst.data
    obtain ⟨l', hl', e'⟩ := hst.length
    obtain rfl := hl'.empty_iff.mp he
    have hps : ps = [] := by simpa [Fifo.front, hv] using e'.symm
    subst hps
    have hreg : collect cutStep cutEmit g₀ (inputReg s) ≠ [] := by
      intro hnil
      exact hp (by simp [shown, framed, hout, hframed, hnil, datagrams])
    obtain ⟨hwe, hvalid⟩ : s.dataFifoWe = true ∧ s.packetLengthValid = true := by
      cases hw : s.dataFifoWe <;> cases hv : s.packetLengthValid <;>
        simp [inputReg, hw, hv, cutEmit] at hreg ⊢
    -- the data FIFO holds less than one payload
    have hready : ready s = true := by
      have hlenFull : s.lengthFifo.fullSig = false := by
        rw [← Bool.not_eq_true, hl'.full_iff]
        decide
      have hdataFull : s.dataFifo.fullSig = false := by
        have hq := hlen (g₀ ++ [s.dataFifoDin]) (by simp [inputReg, hwe, hvalid, cutEmit])
        have hle := congrArg List.length e
        simp at hq hle
        rw [← Bool.not_eq_true, hl.full_iff]
        omega
      simp [ready, hlenFull, hdataFull]
    have hstep := (hl'.step (i := lengthFifoInputs s i) hi.1).2
    have hwritten : Fifo.written s.lengthFifo (lengthFifoInputs s i) ≠ [] := by
      rw [hc.written_length i, stored, if_pos hready]
      simpa using hreg
    rw [← Bool.not_eq_true]
    intro hempty
    have := hstep.empty_iff.mp hempty
    simp [hwritten] at this

/-- While nothing is at the output, the next beat comes nearer. -/
theorem Owes.rank_step (h : Owes cfg s g p) (hp : p ≠ []) (hi : Steady cfg s i)
    (hout : s.outputTvalid = false) : rank (step s i) < rank s := by
  have hreset := hi.1
  have hready : outputReady s i = true := by simp [outputReady, hout]
  have hproc : framerProcess s i = advance s i := by simp [framerProcess, hready, hreset]
  have hout' : (step s i).outputTvalid = s.framedTvalid := by simp [step, hready, hreset]
  cases hframed : s.framedTvalid
  · by_cases hs : s.framerState = .idle
    · cases hv : s.lengthFifo.outputValidR
      · have hp' : packetAvailable s = false := by simp [packetAvailable, Fifo.State.empty, hv]
        have hstay : (step s i).framedTvalid = false ∧ (step s i).framerState = .idle := by
          simp [step, hproc, advance, hs, hp']
        cases he : s.lengthFifo.emptySig
        · have hv' : (step s i).lengthFifo.outputValidR = true := by
            simp [step, Fifo.step, Fifo.fwftRead, hv, he, lengthFifoInputs, hreset]
          simp [rank, hout', hstay, hout, hframed, hs, hv, he, hv']
        · have he' := h.lengthFifo_step hp hi hout hframed hs hv he
          simp only [rank, hout', hstay, hout, hframed, hs, hv, he, he']
          simp
          split <;> omega
      · have hp' : packetAvailable s = true := by simp [packetAvailable, Fifo.State.empty, hv]
        have hgo : (step s i).framedTvalid = false ∧ (step s i).framerState = .ipVersion := by
          simp [step, hproc, advance, hs, hp', hi.2.1]
        simp [rank, hout', hgo, hout, hframed, hs, hv]
    · have hgo : (step s i).framedTvalid = true := by
        simp only [step, hproc]
        exact advance_framedTvalid hs
      simp [rank, hout', hgo, hout, hframed, hs]
  · simp [rank, hout', hout, hframed]

/-- How many cycles with `m_axis_tready_in`, at most, until everything has been taken. -/
def cyclesLeft (s : State) (p : List (Byte × Bool)) : ℕ :=
  if p = [] then 0 else 6 * p.length + rank s

theorem Owes.cyclesLeft_step (h : Owes cfg s g p) (hi : Steady cfg s i)
    (hacc : accepted s i = []) : ∃ p', Owes cfg (step s i) g p' ∧ p = taken s i ++ p' ∧
      cyclesLeft (step s i) p' ≤ cyclesLeft s p - (if i.mAxisTready then 1 else 0) := by
  obtain ⟨p', h', e⟩ := owes_step s g p i h hi (by simp [hacc])
  simp only [hacc, run_nil, collect_nil, List.flatMap_nil, List.append_nil] at h' e
  refine ⟨p', h', e, ?_⟩
  unfold cyclesLeft
  by_cases hp : p = []
  · rw [hp] at e
    have hp' : p' = [] := (List.append_eq_nil_iff.mp e.symm).2
    simp [hp']
  · rw [if_neg hp]
    cases hout : s.outputTvalid
    · have htaken : taken s i = [] := by simp [taken, hout]
      rw [htaken, List.nil_append] at e
      have hlt := h.rank_step hp hi hout
      rw [← e, if_neg hp]
      split <;> omega
    · have hzero : rank s = 0 := by simp [rank, hout]
      have hle := rank_le (step s i)
      cases ht : i.mAxisTready
      · have htaken : taken s i = [] := by simp [taken, ht]
        have hrank : rank (step s i) = 0 := by
          simp [rank, step, hi.1, outputReady, ht, hout]
        rw [htaken, List.nil_append] at e
        rw [← e, if_neg hp, hrank, hzero]
        simp
      · have htaken : (taken s i).length = 1 := by simp [taken, hout, ht]
        have hlen := congrArg List.length e
        rw [List.length_append, htaken] at hlen
        simp only [if_true]
        split <;> omega

theorem Owes.cyclesLeft_run (h : Owes cfg s g p) (his : Always step (Steady cfg) s is)
    (hacc : collect step accepted s is = []) : ∃ p', Owes cfg (run step s is) g p' ∧
      p = collect step taken s is ++ p' ∧
      cyclesLeft (run step s is) p' ≤ cyclesLeft s p - is.countP (·.mAxisTready) := by
  induction is generalizing s p with
  | nil => exact ⟨p, h, rfl, by simp⟩
  | cons i is ih =>
    rw [collect_cons, List.append_eq_nil_iff] at hacc
    obtain ⟨p₁, h₁, e₁, hle₁⟩ := h.cyclesLeft_step his.1 hacc.1
    obtain ⟨p₂, h₂, e₂, hle₂⟩ := ih h₁ his.2 hacc.2
    refine ⟨p₂, h₂, by rw [e₁, e₂, collect_cons, List.append_assoc], ?_⟩
    rw [run_cons, List.countP_cons]
    omega

end Progress

/-! ## Every run -/

section Runs

variable {cfg : Config} {s : State} {is : List Inputs}

/-- **Every run** of the framer: the datagrams of the payloads that have been accepted are those
that were taken, then those that are still owed. -/
theorem owes_run (h : AfterReset s) (hsteady : Always step (Steady cfg) s is)
    (hlen : ∀ q ∈ packets (collect step accepted s is), q.length ≤ 2047) :
    ∃ p, Owes cfg (run step s is) (openPacket (collect step accepted s is)) p ∧
      datagrams cfg (packets (collect step accepted s is)) = collect step taken s is ++ p := by
  obtain ⟨p, hp, e⟩ := exists_pending_packets owes_step (owes_afterReset h) hsteady hlen
  exact ⟨p, hp, e⟩

/-- The packets that have been taken are the datagrams of the first of the payloads. -/
theorem packets_taken_prefix (h : AfterReset s) (hsteady : Always step (Steady cfg) s is)
    (hlen : ∀ q ∈ packets (collect step accepted s is), q.length ≤ 2047) :
    packets (collect step taken s is) <+:
      (packets (collect step accepted s is)).map (datagram cfg) := by
  obtain ⟨p, -, e⟩ := owes_run h hsteady hlen
  have hne : ∀ f ∈ (packets (collect step accepted s is)).map (datagram cfg), f ≠ [] := by
    intro f hf
    obtain ⟨q, -, rfl⟩ := List.mem_map.mp hf
    exact List.cons_ne_nil _ _
  have hcut := packets_prefix ⟨p, e.symm⟩
  rwa [datagrams, ← List.flatMap_map, (packets_flatMap_beats hne).1] at hcut

theorem accepted_eq_handed : accepted = handed offer sAxisTready := by
  funext s i
  cases hv : i.sAxisTvalid <;> cases hr : ready s <;>
    simp [accepted, handed, offer, sAxisTready, hv, hr]

/-- **The framer emits IPv4/UDP datagrams.** With a source that follows the handshake and has the
payloads `ps` to send, what has been accepted is the first part of them, and the beats taken are
the first of those of their datagrams, one for each payload accepted. Once the source has handed
over everything, all the datagrams have been taken after as many cycles with `m_axis_tready_in` as
stated. -/
theorem taken_prefix_datagrams (cfg : Config) (ps : List (List Byte)) {s : State}
    {is : List Inputs} (h : AfterReset s) (hps : ∀ q ∈ ps, 1 ≤ q.length ∧ q.length ≤ 2047)
    (hsteady : Always step (Steady cfg) s is)
    (hfeeds : Feeds false step offer sAxisTready (ps.flatMap beats) s is) :
    collect step accepted s is <+: ps.flatMap beats ∧
      packets (collect step accepted s is) <+: ps ∧
      collect step taken s is <+:
        (packets (collect step accepted s is)).flatMap (fun q => beats (datagram cfg q)) ∧
      ∀ js ks, is = js ++ ks → unsent false step offer sAxisTready (ps.flatMap beats) s js = [] →
        6 * ((ps.flatMap fun q => beats (datagram cfg q)).length + 1) ≤ ks.countP (·.mAxisTready) →
        collect step taken s is = ps.flatMap fun q => beats (datagram cfg q) := by
  have hne : ∀ q ∈ ps, q ≠ [] := fun q hq => List.ne_nil_of_length_pos (hps q hq).1
  have hsum := handed_append_unsent hfeeds
  rw [← accepted_eq_handed] at hsum
  have hpk : packets (collect step accepted s is) <+: ps := by
    have := packets_prefix ⟨_, hsum⟩
    rwa [(packets_flatMap_beats hne).1] at this
  obtain ⟨p, -, e⟩ := owes_run h hsteady fun q hq => (hps q (hpk.subset hq)).2
  refine ⟨⟨_, hsum⟩, hpk, ⟨p, e.symm⟩, ?_⟩
  rintro js ks rfl hsent hcount
  obtain ⟨hsteady₁, hsteady₂⟩ := (always_append _ _ _).mp hsteady
  have hall := handed_append_unsent ((always_append _ _ _).mp hfeeds).1
  rw [← accepted_eq_handed, hsent, List.append_nil] at hall
  have hrest : collect step accepted (run step s js) ks = [] := by
    rw [collect_append, hall, List.append_assoc] at hsum
    exact (List.append_eq_nil_iff.mp (List.append_right_eq_self.mp hsum)).1
  have hpk₁ : packets (collect step accepted s js) = ps := by
    rw [hall, (packets_flatMap_beats hne).1]
  obtain ⟨p₁, hp₁, e₁⟩ := owes_run h hsteady₁ fun q hq => (hps q (hpk₁ ▸ hq)).2
  obtain ⟨p₂, -, e₂, hleft⟩ := hp₁.cyclesLeft_run hsteady₂ hrest
  have hnil : p₂ = [] := by
    by_contra hp₂
    have hlen := congrArg List.length e₁
    have hpos := List.length_pos_of_ne_nil hp₂
    have hrank := rank_le (run step s js)
    have hstart : cyclesLeft (run step s js) p₁ ≤ 6 * p₁.length + rank (run step s js) := by
      unfold cyclesLeft
      split <;> omega
    rw [hpk₁, datagrams, List.length_append] at hlen
    rw [cyclesLeft, if_neg hp₂] at hleft
    omega
  rw [hpk₁, e₂, ← List.append_assoc, ← collect_append] at e₁
  rw [hnil, List.append_nil] at e₁
  exact e₁.symm

/-- The framer after the reset. -/
def cleared : State :=
  step ⟨true, 0, false, 0, false, ⟨fun _ => 0, 0, 0, 0, false⟩, ⟨fun _ => 0, 0, 0, 0, false⟩, 0, 0,
      .idle, 0, 0, 0, 0, false, false, 0, false, false⟩
    ⟨true, true, 0, 0, 0, 0, 0, 0, false, false, true⟩

theorem cleared_afterReset : AfterReset cleared := ⟨_, _, rfl, rfl⟩

/-- Payloads of two and of one byte from `192.168.0.2:1000` to `192.168.0.1:2000`. -/
theorem taken_prefix_datagrams_two :
    let cfg : Config := ⟨1000, 2000, 0xC0A80002, 0xC0A80001, 0x1234⟩
    let quiet : Inputs :=
      { sourcePortIn := 1000, destinationPortIn := 2000, srcAddressIn := 0xC0A80002,
        destinationAddressIn := 0xC0A80001, ipChecksumInitIn := 0x1234 }
    collect step taken cleared
        ([{ quiet with sAxisTvalid := true, sAxisTdata := 0xAA },
          { quiet with sAxisTvalid := true, sAxisTdata := 0xBB, sAxisTlast := true },
          { quiet with sAxisTvalid := true, sAxisTdata := 0xCC, sAxisTlast := true }] ++
          List.replicate 360 quiet) =
      beats (datagram cfg [0xAA, 0xBB]) ++ beats (datagram cfg [0xCC]) := by
  intro cfg quiet
  have hsteady : Always step (Steady cfg) cleared
      ([{ quiet with sAxisTvalid := true, sAxisTdata := 0xAA },
        { quiet with sAxisTvalid := true, sAxisTdata := 0xBB, sAxisTlast := true },
        { quiet with sAxisTvalid := true, sAxisTdata := 0xCC, sAxisTlast := true }] ++
        List.replicate 360 quiet) := by decide +kernel
  exact (taken_prefix_datagrams cfg [[0xAA, 0xBB], [0xCC]] cleared_afterReset (by decide) hsteady
    (by decide +kernel)).2.2.2 _ _ rfl (by decide +kernel) (by decide +kernel)

end Runs
end RmiiEthernet.UdpFramer
