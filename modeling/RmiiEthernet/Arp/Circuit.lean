import RmiiEthernet.Ethernet.Fcs

/-!
# The ARP block

`arp` sits between the sender of data packets and the framer. It passes data packets through and
inserts ARP packets between them: an announcement on request (`send_garp_in`), and a reply when the
parser of the received frames has seen a request for the own address.

The module holds the circuit. The parser of the received frames (`step` of the `rx` registers) and
the state machine that inserts packets run side by side; the state machine and the two registers
behind it move only in cycles with `output_tready`.
-/

namespace RmiiEthernet.Arp

open EthernetFcs

/-! ## Registers and ports -/

/-- `fsm_state_t`. -/
inductive FsmState
  | idle
  | hwType1 | hwType2
  | protocolType1 | protocolType2
  | hwLength | protocolLength
  | operation1 | operation2
  | sha1 | sha2 | sha3 | sha4 | sha5 | sha6
  | spa1 | spa2 | spa3 | spa4
  | tha
  | tpa1 | tpa2 | tpa3 | tpa4
  | pad
  deriving DecidableEq

/-- The input ports in one cycle. -/
structure Inputs where
  reset : Bool := false
  sendGarpIn : Bool := false
  macAddressIn : BitVec 48
  ipAddressIn : BitVec 32
  destinationMacIn : BitVec 48 := BitVec.allOnes 48
  rxAxisTdata : Byte := 0
  rxAxisTvalid : Bool := false
  rxAxisTlast : Bool := false
  sAxisTdata : Byte := 0
  sAxisTvalid : Bool := false
  sAxisTlast : Bool := false
  mAxisTready : Bool := true
  deriving DecidableEq

/-- A register of a stream with a `tuser` bit. -/
structure Beat where
  tdata : Byte
  tuser : Bool
  tvalid : Bool
  tlast : Bool
  deriving DecidableEq

/-- The registers of the parser of received frames. -/
structure Parser where
  rxByteCnt : BitVec 7
  rxDestMacMatch : Bool
  rxEthertypeMatch : Bool
  rxHwProtoMatch : Bool
  rxOpcodeIsReq : Bool
  rxShaShift : BitVec 48
  rxSpaShift : BitVec 32
  rxTpaShift : BitVec 32
  reqSha : BitVec 48
  reqSpa : BitVec 32
  replyPending : Bool
  deriving DecidableEq

/-- The registers. -/
structure State where
  garpPending : Bool
  replyStarted : Bool
  activeArpIsReply : Bool
  sendingTargetMac : BitVec 48
  sendingTargetIp : BitVec 32
  inDataPacket : Bool
  fsmState : FsmState
  padCounter : BitVec 5
  framed : Beat
  output : Beat
  ethDestMac : BitVec 48
  rx : Parser
  deriving DecidableEq

/-- An empty stream register. -/
def Beat.none : Beat := ⟨0, false, false, false⟩

/-! ## The parser of received frames -/

/-- A byte of a hardware address, the first one on the line being number 0. -/
def macByte (a : BitVec 48) (k : ℕ) : Byte := a.extractLsb' (40 - 8 * k) 8

/-- A byte of a protocol address, the first one on the line being number 0. -/
def ipByte (a : BitVec 32) (k : ℕ) : Byte := a.extractLsb' (24 - 8 * k) 8

section Parser

variable (r : Parser) (i : Inputs)

/-- The byte agrees with a byte of the own address or of the broadcast address. -/
def macByteMatches (k : ℕ) : Bool :=
  i.rxAxisTdata == macByte i.macAddressIn k || i.rxAxisTdata == 0xFF

/-- `rx_dest_mac_match` behind a byte: each of six bytes is compared on its own. -/
def destMacMatchNext : Bool :=
  match r.rxByteCnt.toNat with
  | 0 => macByteMatches i 0
  | 1 => r.rxDestMacMatch && macByteMatches i 1
  | 2 => r.rxDestMacMatch && macByteMatches i 2
  | 3 => r.rxDestMacMatch && macByteMatches i 3
  | 4 => r.rxDestMacMatch && macByteMatches i 4
  | 5 => r.rxDestMacMatch && macByteMatches i 5
  | _ => r.rxDestMacMatch

/-- `rx_ethertype_match` behind a byte: 08 06. -/
def ethertypeMatchNext : Bool :=
  match r.rxByteCnt.toNat with
  | 12 => i.rxAxisTdata == 0x08
  | 13 => r.rxEthertypeMatch && i.rxAxisTdata == 0x06
  | _ => r.rxEthertypeMatch

/-- `rx_hw_proto_match` behind a byte: Ethernet and IPv4, addresses of six and of four bytes. -/
def hwProtoMatchNext : Bool :=
  match r.rxByteCnt.toNat with
  | 14 => i.rxAxisTdata == 0x00
  | 15 => r.rxHwProtoMatch && i.rxAxisTdata == 0x01
  | 16 => r.rxHwProtoMatch && i.rxAxisTdata == 0x08
  | 17 => r.rxHwProtoMatch && i.rxAxisTdata == 0x00
  | 18 => r.rxHwProtoMatch && i.rxAxisTdata == 0x06
  | 19 => r.rxHwProtoMatch && i.rxAxisTdata == 0x04
  | _ => r.rxHwProtoMatch

/-- `rx_opcode_is_req` behind a byte: 00 01. -/
def opcodeIsReqNext : Bool :=
  match r.rxByteCnt.toNat with
  | 20 => i.rxAxisTdata == 0x00
  | 21 => r.rxOpcodeIsReq && i.rxAxisTdata == 0x01
  | _ => r.rxOpcodeIsReq

/-- The byte counter lies in a range. -/
def cntIn (a b : ℕ) : Bool := a ≤ r.rxByteCnt.toNat && r.rxByteCnt.toNat ≤ b

/-- The byte completes a request for the own address. -/
def requestMatches : Bool :=
  i.rxAxisTvalid && r.rxByteCnt == 41 && r.rxDestMacMatch && r.rxEthertypeMatch &&
    r.rxHwProtoMatch && r.rxOpcodeIsReq &&
    r.rxTpaShift.extractLsb' 0 24 ++ i.rxAxisTdata == i.ipAddressIn

/-- One clock edge of the parser; `started` says that a reply has just been started. -/
def Parser.step (started : Bool) : Parser :=
  if i.reset then ⟨0, false, false, false, false, 0, 0, 0, 0, 0, false⟩
  else
    { rxByteCnt :=
        if i.rxAxisTvalid then (if i.rxAxisTlast then 0 else r.rxByteCnt + 1) else r.rxByteCnt
      rxDestMacMatch := if i.rxAxisTvalid then destMacMatchNext r i else r.rxDestMacMatch
      rxEthertypeMatch := if i.rxAxisTvalid then ethertypeMatchNext r i else r.rxEthertypeMatch
      rxHwProtoMatch := if i.rxAxisTvalid then hwProtoMatchNext r i else r.rxHwProtoMatch
      rxOpcodeIsReq := if i.rxAxisTvalid then opcodeIsReqNext r i else r.rxOpcodeIsReq
      rxShaShift :=
        if i.rxAxisTvalid && cntIn r 22 27 then r.rxShaShift.extractLsb' 0 40 ++ i.rxAxisTdata
        else r.rxShaShift
      rxSpaShift :=
        if i.rxAxisTvalid && cntIn r 28 31 then r.rxSpaShift.extractLsb' 0 24 ++ i.rxAxisTdata
        else r.rxSpaShift
      rxTpaShift :=
        if i.rxAxisTvalid && cntIn r 38 41 then r.rxTpaShift.extractLsb' 0 24 ++ i.rxAxisTdata
        else r.rxTpaShift
      reqSha := if requestMatches r i then r.rxShaShift else r.reqSha
      reqSpa := if requestMatches r i then r.rxSpaShift else r.reqSpa
      replyPending := !started && (requestMatches r i || r.replyPending) }

end Parser

/-! ## The state machine -/

section Signals

variable (s : State) (i : Inputs)

/-- `output_tready`: the output register is empty or read. -/
def outputTready : Bool := i.mAxisTready || !s.output.tvalid

/-- `s_axis_tready_out`: data packets pass in `S_IDLE` only. -/
def sAxisTready : Bool := s.fsmState == .idle && outputTready s i

/-- The data stream is between two packets, so that an ARP packet may start. -/
def betweenPackets : Bool :=
  (!i.sAxisTvalid && !s.inDataPacket) || (i.sAxisTvalid && i.sAxisTlast)

/-- The state behind a state that sends a byte of an ARP packet. -/
def nextState : FsmState :=
  match s.fsmState with
  | .idle =>
    if betweenPackets s i && (s.rx.replyPending || s.garpPending) then .hwType1 else .idle
  | .hwType1 => .hwType2
  | .hwType2 => .protocolType1
  | .protocolType1 => .protocolType2
  | .protocolType2 => .hwLength
  | .hwLength => .protocolLength
  | .protocolLength => .operation1
  | .operation1 => .operation2
  | .operation2 => .sha1
  | .sha1 => .sha2
  | .sha2 => .sha3
  | .sha3 => .sha4
  | .sha4 => .sha5
  | .sha5 => .sha6
  | .sha6 => .spa1
  | .spa1 => .spa2
  | .spa2 => .spa3
  | .spa3 => .spa4
  | .spa4 => .tha
  | .tha => if s.padCounter = 0#5 then .tpa1 else .tha
  | .tpa1 => .tpa2
  | .tpa2 => .tpa3
  | .tpa3 => .tpa4
  | .tpa4 => .pad
  | .pad => if s.padCounter = 0#5 then .idle else .pad

/-- The byte that the state machine hands to the pipeline. -/
def framedTdata : Byte :=
  match s.fsmState with
  | .idle => i.sAxisTdata
  | .hwType1 => 0x00
  | .hwType2 => 0x01
  | .protocolType1 => 0x08
  | .protocolType2 => 0x00
  | .hwLength => 0x06
  | .protocolLength => 0x04
  | .operation1 => 0x00
  | .operation2 => if s.activeArpIsReply then 0x02 else 0x01
  | .sha1 => macByte i.macAddressIn 0
  | .sha2 => macByte i.macAddressIn 1
  | .sha3 => macByte i.macAddressIn 2
  | .sha4 => macByte i.macAddressIn 3
  | .sha5 => macByte i.macAddressIn 4
  | .sha6 => macByte i.macAddressIn 5
  | .spa1 => ipByte i.ipAddressIn 0
  | .spa2 => ipByte i.ipAddressIn 1
  | .spa3 => ipByte i.ipAddressIn 2
  | .spa4 => ipByte i.ipAddressIn 3
  | .tha =>
    if s.activeArpIsReply then
      match s.padCounter.toNat with
      | 5 => macByte s.sendingTargetMac 0
      | 4 => macByte s.sendingTargetMac 1
      | 3 => macByte s.sendingTargetMac 2
      | 2 => macByte s.sendingTargetMac 3
      | 1 => macByte s.sendingTargetMac 4
      | 0 => macByte s.sendingTargetMac 5
      | _ => 0
    else 0
  | .tpa1 => ipByte s.sendingTargetIp 0
  | .tpa2 => ipByte s.sendingTargetIp 1
  | .tpa3 => ipByte s.sendingTargetIp 2
  | .tpa4 => ipByte s.sendingTargetIp 3
  | .pad => 0

/-- The beat that the state machine hands to the pipeline. -/
def framedNext : Beat :=
  if s.fsmState = .idle then ⟨i.sAxisTdata, false, i.sAxisTvalid, i.sAxisTlast⟩
  else ⟨framedTdata s i, true, true, s.fsmState == .pad && s.padCounter == 0#5⟩

/-- `pad_counter` behind a state in which it moves. -/
def padCounterNext : BitVec 5 :=
  match s.fsmState with
  | .spa4 => 5
  | .tpa4 => 18
  | _ => s.padCounter - 1

/-- A reply is started. It goes before an announcement. -/
def startsReply : Bool :=
  s.fsmState == .idle && outputTready s i && betweenPackets s i && s.rx.replyPending

/-- An announcement is started, with no reply waiting. -/
def startsGarp : Bool :=
  s.fsmState == .idle && outputTready s i && betweenPackets s i && !s.rx.replyPending &&
    s.garpPending

/-- The announcement is taken off the list. This does not wait for `output_tready`. -/
def clearsGarp : Bool :=
  s.fsmState == .idle && s.garpPending && !s.rx.replyPending &&
    ((i.sAxisTlast && i.sAxisTvalid) || !s.inDataPacket)

/-- One clock edge. -/
def step : State where
  garpPending :=
    if i.reset || clearsGarp s i then false
    else if i.sendGarpIn && !s.garpPending then true
    else s.garpPending
  replyStarted := startsReply s i
  activeArpIsReply :=
    if startsReply s i then true else if startsGarp s i then false else s.activeArpIsReply
  sendingTargetMac :=
    if startsReply s i then s.rx.reqSha else if startsGarp s i then 0 else s.sendingTargetMac
  sendingTargetIp :=
    if startsReply s i then s.rx.reqSpa
    else if startsGarp s i then i.ipAddressIn
    else s.sendingTargetIp
  inDataPacket :=
    if i.reset then false
    else if i.sAxisTvalid && outputTready s i then !i.sAxisTlast
    else s.inDataPacket
  fsmState := if i.reset then .idle else if outputTready s i then nextState s i else s.fsmState
  padCounter := if outputTready s i then padCounterNext s else s.padCounter
  framed := if i.reset then .none else if outputTready s i then framedNext s i else s.framed
  output := if i.reset then .none else if outputTready s i then s.framed else s.output
  ethDestMac :=
    if i.reset then BitVec.allOnes 48
    else if s.fsmState != .idle || s.output.tuser then
      (if s.activeArpIsReply then s.sendingTargetMac else BitVec.allOnes 48)
    else i.destinationMacIn
  rx := s.rx.step i s.replyStarted

end Signals

/-- A state that a reset leads to. -/
def AfterReset (s : State) : Prop := ∃ s₀ i, i.reset = true ∧ s = step s₀ i

/-! ## What happens at the ports -/

/-- The beat accepted from the data source in a cycle. -/
def accepted (s : State) (i : Inputs) : List (Byte × Bool) :=
  if i.sAxisTvalid && sAxisTready s i then [(i.sAxisTdata, i.sAxisTlast)] else []

/-- The beat in a register: a byte with its `tuser` bit, and `tlast`. -/
def Beat.held (b : Beat) : List ((Byte × Bool) × Bool) :=
  if b.tvalid then [((b.tdata, b.tuser), b.tlast)] else []

/-- The beat taken at the output in a cycle. -/
def taken (s : State) (i : Inputs) : List ((Byte × Bool) × Bool) :=
  if i.mAxisTready then s.output.held else []

end RmiiEthernet.Arp
