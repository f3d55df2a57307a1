import RmiiEthernet.Arp.Requests
import RmiiEthernet.Ethernet.Framer

/-!
# The destination address of a frame

`arp` feeds `ethernet_framer`, and beside the stream it drives the destination address: a register
that follows the state machine and the `tuser` bit at the output, one cycle late. The framer samples
it once for a frame, in the cycle in which it leaves `S_IDLE`.

* `Sends` says what `arp` has sent when its own addresses do not change: packets, each of them a
  data packet, a reply or an announcement, and the beginning of the next one.
* While the framer is between two packets, the beats in the pipeline of `arp` belong to the packet
  in progress (`Sends.pipe_open`), because a packet has more than two beats. So the state machine is
  away from `S_IDLE` exactly for an ARP packet, and the register has had the time to follow
  (`Addresses`).
* Every frame therefore has the destination address of its packet (`taken_prefix_addressed`).
-/

namespace RmiiEthernet.ArpFramer

open Sync EthernetFcs EthernetFrame

/-! ## The circuit -/

/-- The two circuits. -/
structure State where
  arp : Arp.State
  framer : EthernetFramer.State
  deriving DecidableEq

/-- The input ports in one cycle; `m_axis_tready_in` of `arp` is driven by the framer. -/
structure Inputs where
  arp : Arp.Inputs
  enableIn : Bool := true
  mAxisTready : Bool := true
  deriving DecidableEq

/-- What the framer gets in a cycle. -/
def framerInputs (s : State) (i : Inputs) : EthernetFramer.Inputs where
  reset := i.arp.reset
  enableIn := i.enableIn
  sourceMacIn := i.arp.macAddressIn
  destinationMacIn := s.arp.ethDestMac
  sAxisTdata := s.arp.output.tdata
  sAxisTuser := s.arp.output.tuser
  sAxisTvalid := s.arp.output.tvalid
  sAxisTlast := s.arp.output.tlast
  mAxisTready := i.mAxisTready

/-- What `arp` gets in a cycle. -/
def arpInputs (s : State) (i : Inputs) : Arp.Inputs :=
  { i.arp with mAxisTready := EthernetFramer.sAxisTready s.framer (framerInputs s i) }

/-- One clock edge. -/
def step (s : State) (i : Inputs) : State where
  arp := Arp.step s.arp (arpInputs s i)
  framer := EthernetFramer.step s.framer (framerInputs s i)

/-- A state that a reset leads to. -/
def AfterReset (s : State) : Prop := ∃ s₀ i, i.arp.reset = true ∧ s = step s₀ i

/-- The addresses at the ports. -/
structure Config where
  mac : BitVec 48
  ip : BitVec 32
  destinationMac : BitVec 48

/-- No reset, and the configuration at the ports. -/
def Steady (cfg : Config) (i : Inputs) : Prop :=
  i.arp.reset = false ∧ i.arp.macAddressIn = cfg.mac ∧ i.arp.ipAddressIn = cfg.ip ∧
    i.arp.destinationMacIn = cfg.destinationMac

instance (cfg : Config) (i : Inputs) : Decidable (Steady cfg i) :=
  inferInstanceAs (Decidable (_ ∧ _))

/-- The beat accepted from the data source in a cycle. -/
def accepted (s : State) (i : Inputs) : List (Byte × Bool) := Arp.accepted s.arp (arpInputs s i)

/-- The beat that goes from `arp` to the framer in a cycle. -/
def handed (s : State) (i : Inputs) : List ((Byte × Bool) × Bool) :=
  Arp.taken s.arp (arpInputs s i)

/-- The beat taken from the framer in a cycle. -/
def taken (s : State) (i : Inputs) : List (Byte × Bool) :=
  EthernetFramer.taken s.framer (framerInputs s i)

/-- The beat received from the line in a cycle. -/
def received (s : State) (i : Inputs) : List (Byte × Bool) := Arp.received s.arp (arpInputs s i)

/-- The addresses of the requester when a reply is started. -/
def asks (s : Arp.State) (i : Arp.Inputs) : List (BitVec 48 × BitVec 32) :=
  if Arp.startsReply s i then [(s.rx.reqSha, s.rx.reqSpa)] else []

/-- The requesters in the order in which their replies are started. -/
def asked (s : State) (i : Inputs) : List (BitVec 48 × BitVec 32) := asks s.arp (arpInputs s i)

/-! ## Packets -/

/-- A packet at the output of `arp`. -/
inductive Packet
  | data (q : List Byte)
  | reply (tha : BitVec 48) (tpa : BitVec 32)
  | announcement

namespace Packet

variable (cfg : Config)

/-- The packet is one that `arp` has made. -/
def isArp : Packet → Bool
  | .data _ => false
  | .reply _ _ => true
  | .announcement => true

/-- The bytes of a packet. -/
def payload : Packet → List Byte
  | .data q => q
  | .reply tha tpa => Arp.arpPacket cfg.mac cfg.ip true tha tpa
  | .announcement => Arp.arpPacket cfg.mac cfg.ip false 0 cfg.ip

/-- **Where a packet has to go**: to the configured address, to the requester, or to everyone. -/
def destination : Packet → BitVec 48
  | .data _ => cfg.destinationMac
  | .reply tha _ => tha
  | .announcement => BitVec.allOnes 48

/-- The words of a packet with their `tuser` bit. -/
def words (m : Packet) : List (Byte × Bool) := Arp.tag m.isArp (m.payload cfg)

/-- The frame of a packet. -/
def frame (m : Packet) : List Byte :=
  EthernetFrame.frame (m.destination cfg) cfg.mac m.isArp (m.payload cfg)

/-- The bytes of a data packet, if it is one. -/
def data? : Packet → Option (List Byte)
  | .data q => some q
  | _ => none

/-- The addresses that a reply is for. -/
def reply? : Packet → Option (BitVec 48 × BitVec 32)
  | .reply tha tpa => some (tha, tpa)
  | _ => none

end Packet

/-- The ARP packet that the state machine is sending. -/
def inserted (s : Arp.State) : Packet :=
  if s.activeArpIsReply then .reply s.sendingTargetMac s.sendingTargetIp else .announcement

/-! ## What `arp` has sent -/

section Sending

variable {cfg : Config} {s : Arp.State} {i : Arp.Inputs} {acc : List (Byte × Bool)}
  {total : List ((Byte × Bool) × Bool)} {ms : List Packet}
  {reqs : List (BitVec 48 × BitVec 32)}

/-- The words of the packet in progress. -/
def opened (cfg : Config) (s : Arp.State) (acc : List (Byte × Bool)) : List (Byte × Bool) :=
  if s.fsmState = .idle then Arp.tag false (openPacket acc)
  else ((inserted s).words cfg).take (Arp.position s)

/-- The destination of the packet in progress. -/
def current (cfg : Config) (s : Arp.State) (acc : List (Byte × Bool)) : List (BitVec 48) :=
  if s.fsmState ≠ .idle then [(inserted s).destination cfg]
  else if openPacket acc = [] then []
  else [cfg.destinationMac]

/-- The requester of the packet in progress. -/
def answering (s : Arp.State) : List (BitVec 48 × BitVec 32) :=
  if s.fsmState ≠ .idle then (inserted s).reply?.toList else []

/-- **The invariant of `arp`**: the source has handed over `acc`, the state machine has sent
`total`, which are the packets `ms` and the words of the packet in progress, and replies have been
started for the requesters `reqs`. -/
structure Sends (cfg : Config) (s : Arp.State) (acc : List (Byte × Bool))
    (total : List ((Byte × Bool) × Bool)) (reqs : List (BitVec 48 × BitVec 32))
    (ms : List Packet) : Prop where
  total_eq : total = ms.flatMap (fun m => beats (m.words cfg)) ++ (opened cfg s acc).map (·, false)
  data : ms.filterMap Packet.data? = packets acc
  replies : ms.filterMap Packet.reply? ++ answering s = reqs
  idle : s.fsmState = .idle → openPacket acc ≠ [] → s.inDataPacket = true
  busy : s.fsmState ≠ .idle → openPacket acc = [] ∧ Arp.Counted s ∧
    (s.activeArpIsReply = false → s.sendingTargetMac = 0 ∧ s.sendingTargetIp = cfg.ip)

/-- The destinations of the packets that have been begun. -/
def begun (cfg : Config) (s : Arp.State) (acc : List (Byte × Bool)) (ms : List Packet) :
    List (BitVec 48) :=
  ms.map (Packet.destination cfg) ++ current cfg s acc

theorem current_idle (h : s.fsmState = .idle) :
    current cfg s acc = if openPacket acc = [] then [] else [cfg.destinationMac] :=
  if_neg (by simp [h])

theorem current_busy (h : s.fsmState ≠ .idle) :
    current cfg s acc = [(inserted s).destination cfg] := if_pos h

theorem answering_idle (h : s.fsmState = .idle) : answering s = [] := if_neg (by simp [h])

theorem answering_busy (h : s.fsmState ≠ .idle) : answering s = (inserted s).reply?.toList :=
  if_pos h

/-- The addresses at the ports of `arp` are the configured ones. -/
def Local (cfg : Config) (i : Arp.Inputs) : Prop :=
  i.reset = false ∧ i.macAddressIn = cfg.mac ∧ i.ipAddressIn = cfg.ip

theorem payload_inserted
    (h : s.activeArpIsReply = false → s.sendingTargetMac = 0 ∧ s.sendingTargetIp = cfg.ip) :
    (inserted s).payload cfg = Arp.arpPacket cfg.mac cfg.ip s.activeArpIsReply s.sendingTargetMac
      s.sendingTargetIp := by
  cases hr : s.activeArpIsReply with
  | true => simp [inserted, hr, Packet.payload]
  | false =>
    obtain ⟨h₁, h₂⟩ := h hr
    simp [inserted, hr, Packet.payload, h₁, h₂]

theorem isArp_inserted (s : Arp.State) : (inserted s).isArp = true := by
  unfold inserted
  split <;> rfl

theorem length_words_inserted (s : Arp.State) : ((inserted s).words cfg).length = 47 := by
  unfold inserted
  split <;> rfl

theorem data?_inserted (s : Arp.State) : (inserted s).data? = none := by
  unfold inserted
  split <;> rfl

/-- The state machine sends the packet word by word. -/
theorem take_words_inserted (hi : Local cfg i) (hbusy : s.fsmState ≠ .idle)
    (hcount : Arp.Counted s)
    (h : s.activeArpIsReply = false → s.sendingTargetMac = 0 ∧ s.sendingTargetIp = cfg.ip) :
    ((inserted s).words cfg).take (Arp.position s + 1) =
      ((inserted s).words cfg).take (Arp.position s) ++ [(Arp.framedTdata s i, true)] := by
  have hbyte := Arp.getElem?_arpPacket (i := i) hbusy hcount fun hr => (h hr).1
  rw [hi.2.1, hi.2.2, ← payload_inserted h] at hbyte
  have hword : ((inserted s).words cfg)[Arp.position s]? = some (Arp.framedTdata s i, true) := by
    rw [Packet.words, Arp.tag, List.getElem?_map, hbyte, isArp_inserted]
    rfl
  rw [List.take_add_one, hword]
  rfl

theorem inserted_step (h : Arp.outputTready s i = false ∨ s.fsmState ≠ .idle) :
    inserted (Arp.step s i) = inserted s := by
  obtain ⟨h₁, h₂, h₃⟩ := Arp.targets_step h
  rw [inserted, h₁, h₂, h₃, inserted]

/-- A cycle in which the pipeline stands still. -/
theorem Sends.step_stalled (h : Sends cfg s acc total reqs ms) (hi : Local cfg i)
    (hready : Arp.outputTready s i = false) : Sends cfg (Arp.step s i) acc total reqs ms ∧
      begun cfg (Arp.step s i) acc ms = begun cfg s acc ms := by
  obtain ⟨hf, hd, hpos, hcount⟩ := Arp.fsm_of_stalled hi.1 hready
  obtain ⟨ha₁, ha₂, ha₃⟩ := Arp.targets_step (.inl hready)
  have hins := inserted_step (.inl hready)
  refine ⟨⟨?_, h.data, ?_, ?_, ?_⟩, ?_⟩
  · rw [opened, hf, hins, hpos]
    exact h.total_eq
  · rw [answering, hf, hins]
    exact h.replies
  · rw [hf, hd]
    exact h.idle
  · rw [hf, ha₁, ha₂, ha₃]
    intro hbusy
    obtain ⟨h₁, h₂, h₃⟩ := h.busy hbusy
    exact ⟨h₁, hcount h₂, h₃⟩
  · simp only [begun, current, hf, hins]

/-- A cycle behind which no data packet is open: an ARP packet is started, or nothing happens. -/
theorem sends_between (hi : Local cfg i) (hready : Arp.outputTready s i = true)
    (hidle : s.fsmState = .idle) (htotal : total = ms.flatMap fun m => beats (m.words cfg))
    (hdata : ms.filterMap Packet.data? = packets acc)
    (hreqs : ms.filterMap Packet.reply? = reqs) (hopen : openPacket acc = []) :
    Sends cfg (Arp.step s i) acc total (reqs ++ asks s i) ms := by
  by_cases hstay : (Arp.step s i).fsmState = .idle
  · have hnone : asks s i = [] := by
      unfold asks
      split
      · next hs =>
        simp only [Arp.startsReply, Bool.and_eq_true] at hs
        have hnext := Arp.fsmState_step hi.1 hready
        rw [hstay, Arp.nextState, hidle] at hnext
        simp [hs.1.2, hs.2] at hnext
      · rfl
    refine ⟨?_, hdata, ?_, fun _ hne => absurd hopen hne, fun hbusy => absurd hstay hbusy⟩
    · simp [opened, hstay, hopen, htotal, Arp.tag]
    · rw [answering_idle hstay, hnone, hreqs]
  · obtain ⟨hbetween, hfirst, htargets⟩ := Arp.started (M := {(cfg.mac, cfg.ip)}) hi.1 hready
      (by simp [hi.2.1, hi.2.2]) hidle hstay
    refine ⟨?_, hdata, ?_, fun hidle' => absurd hidle' hstay, fun _ => ⟨hopen, ?_, fun hr => ?_⟩⟩
    · simp [opened, hfirst, Arp.position, htotal]
    · have hins : (inserted (Arp.step s i)).reply?.toList = asks s i := by
        have hnext := Arp.fsmState_step hi.1 hready
        rw [hfirst, Arp.nextState, hidle] at hnext
        cases hp : s.rx.replyPending with
        | true =>
          simp [inserted, Arp.step, asks, Arp.startsReply, hidle, hready, hbetween, hp,
            Packet.reply?]
        | false =>
          have hg : s.garpPending = true := by
            by_contra hg
            simp [hp, hg] at hnext
          simp [inserted, Arp.step, asks, Arp.startsReply, Arp.startsGarp, hidle, hready, hbetween,
            hp, hg, Packet.reply?]
      rw [answering_busy hstay, hins, hreqs]
    · exact ⟨by simp [hfirst], by simp [hfirst]⟩
    · obtain ⟨h₁, a, ha, h₂⟩ := htargets hr
      rw [Set.mem_singleton_iff] at ha
      exact ⟨h₁, by rw [← h₂, ha]⟩

/-- Inside a data packet nothing is started. -/
theorem asks_of_not_betweenPackets (h : Arp.betweenPackets s i = false) : asks s i = [] := by
  simp [asks, Arp.startsReply, h]

/-- In `S_IDLE` the words of the packet in progress are those of a data packet. -/
theorem Sends.of_idle (h : Sends cfg s acc total reqs ms) (hidle : s.fsmState = .idle) :
    total = ms.flatMap (fun m => beats (m.words cfg)) ++
        (Arp.tag false (openPacket acc)).map (·, false) ∧
      ms.filterMap Packet.reply? = reqs := by
  have htotal := h.total_eq
  have hreqs := h.replies
  rw [opened, if_pos hidle] at htotal
  rw [answering_idle hidle, List.append_nil] at hreqs
  exact ⟨htotal, hreqs⟩

/-- A cycle in which the data source pauses. -/
theorem Sends.step_pause (h : Sends cfg s acc total reqs ms) (hi : Local cfg i)
    (hready : Arp.outputTready s i = true) (hidle : s.fsmState = .idle)
    (hv : i.sAxisTvalid = false) : Sends cfg (Arp.step s i) acc total (reqs ++ asks s i) ms ∧
      begun cfg s acc ms <+: begun cfg (Arp.step s i) acc ms := by
  obtain ⟨htotal, hreqs⟩ := h.of_idle hidle
  by_cases hopen : openPacket acc = []
  · rw [hopen] at htotal
    refine ⟨sends_between hi hready hidle (by simpa [Arp.tag] using htotal) h.data hreqs hopen, ?_⟩
    rw [begun, current_idle hidle, if_pos hopen, List.append_nil, begun]
    exact List.prefix_append _ _
  · -- the packet in progress keeps the state machine where it is
    have hbetween : Arp.betweenPackets s i = false := by
      simp [Arp.betweenPackets, hv, h.idle hidle hopen]
    have hstay := Arp.fsmState_of_not_betweenPackets hi.1 hready hidle hbetween
    refine ⟨⟨?_, h.data, ?_, fun _ _ => ?_, fun hbusy => absurd hstay hbusy⟩, ?_⟩
    · rw [opened, if_pos hstay]
      exact htotal
    · rw [answering_idle hstay, asks_of_not_betweenPackets hbetween, hreqs]
    · simp [Arp.step, hi.1, hv, h.idle hidle hopen]
    · rw [begun, begun, current_idle hidle, current_idle hstay]

/-- A cycle in which a byte inside a data packet is passed. -/
theorem Sends.step_byte (h : Sends cfg s acc total reqs ms) (hi : Local cfg i)
    (hready : Arp.outputTready s i = true) (hidle : s.fsmState = .idle)
    (hv : i.sAxisTvalid = true) (hl : i.sAxisTlast = false) :
    Sends cfg (Arp.step s i) (acc ++ [(i.sAxisTdata, false)])
        (total ++ [((i.sAxisTdata, false), false)]) (reqs ++ asks s i) ms ∧
      begun cfg s acc ms <+: begun cfg (Arp.step s i) (acc ++ [(i.sAxisTdata, false)]) ms := by
  obtain ⟨htotal, hreqs⟩ := h.of_idle hidle
  have hbetween : Arp.betweenPackets s i = false := by simp [Arp.betweenPackets, hv, hl]
  have hstay := Arp.fsmState_of_not_betweenPackets hi.1 hready hidle hbetween
  have hopen : openPacket (acc ++ [(i.sAxisTdata, false)]) = openPacket acc ++ [i.sAxisTdata] := by
    simp [openPacket_concat]
  refine ⟨⟨?_, ?_, ?_, fun _ _ => ?_, fun hbusy => absurd hstay hbusy⟩, ?_⟩
  · rw [opened, if_pos hstay, hopen, htotal]
    simp [Arp.tag]
  · rw [packets_concat]
    simpa using h.data
  · rw [answering_idle hstay, asks_of_not_betweenPackets hbetween, hreqs]
  · simp [Arp.step, hi.1, hv, hready, hl]
  · rw [begun, begun, current_idle hidle, current_idle hstay, hopen,
      if_neg (show openPacket acc ++ [i.sAxisTdata] ≠ [] by simp)]
    split
    · simp
    · exact List.prefix_refl _

/-- A cycle in which the last byte of a data packet is passed. -/
theorem Sends.step_last (h : Sends cfg s acc total reqs ms) (hi : Local cfg i)
    (hready : Arp.outputTready s i = true) (hidle : s.fsmState = .idle) :
    Sends cfg (Arp.step s i) (acc ++ [(i.sAxisTdata, true)])
        (total ++ [((i.sAxisTdata, false), true)]) (reqs ++ asks s i)
        (ms ++ [.data (openPacket acc ++ [i.sAxisTdata])]) ∧
      begun cfg s acc ms <+: begun cfg (Arp.step s i) (acc ++ [(i.sAxisTdata, true)])
        (ms ++ [.data (openPacket acc ++ [i.sAxisTdata])]) := by
  obtain ⟨htotal, hreqs⟩ := h.of_idle hidle
  constructor
  · apply sends_between hi hready hidle
    · rw [htotal]
      simp [Arp.tag, Packet.words, Packet.isArp, Packet.payload, beats_concat]
    · rw [packets_concat, ← h.data]
      simp [Packet.data?]
    · rw [← hreqs]
      simp [Packet.reply?]
    · simp [openPacket_concat]
  · rw [begun, begun, current_idle hidle, List.map_append, List.append_assoc]
    apply (List.prefix_append_right_inj _).mpr
    split
    · exact List.nil_prefix
    · exact List.prefix_append _ _

/-- A cycle in which data packets are passed. -/
theorem Sends.step_data (h : Sends cfg s acc total reqs ms) (hi : Local cfg i)
    (hready : Arp.outputTready s i = true) (hidle : s.fsmState = .idle) :
    ∃ ms', Sends cfg (Arp.step s i) (acc ++ Arp.accepted s i) (total ++ Arp.entering s i)
        (reqs ++ asks s i) ms' ∧
      begun cfg s acc ms <+: begun cfg (Arp.step s i) (acc ++ Arp.accepted s i) ms' := by
  obtain ⟨hacc, hent⟩ := Arp.passed_of_idle hready hidle
  rw [hacc, hent]
  cases hv : i.sAxisTvalid with
  | false =>
    rw [if_neg (by simp), if_neg (by simp), List.append_nil, List.append_nil]
    exact ⟨ms, h.step_pause hi hready hidle hv⟩
  | true =>
    rw [if_pos rfl, if_pos rfl]
    cases hl : i.sAxisTlast with
    | false => exact ⟨ms, h.step_byte hi hready hidle hv hl⟩
    | true => exact ⟨_, h.step_last hi hready hidle⟩

/-- A cycle in which an ARP packet is sent. -/
theorem Sends.step_arp (h : Sends cfg s acc total reqs ms) (hi : Local cfg i)
    (hready : Arp.outputTready s i = true) (hbusy : s.fsmState ≠ .idle) :
    ∃ ms', Sends cfg (Arp.step s i) (acc ++ Arp.accepted s i) (total ++ Arp.entering s i)
        (reqs ++ asks s i) ms' ∧
      begun cfg s acc ms <+: begun cfg (Arp.step s i) (acc ++ Arp.accepted s i) ms' := by
  obtain ⟨hopen, hcount, htarget⟩ := h.busy hbusy
  obtain ⟨hkeep₁, hkeep₂, hkeep₃⟩ := Arp.targets_step (i := i) (.inr hbusy)
  have hins : inserted (Arp.step s i) = inserted s := inserted_step (.inr hbusy)
  have hnext := take_words_inserted hi hbusy hcount htarget
  have htotal := h.total_eq
  have hreqs := h.replies
  rw [opened, if_neg hbusy] at htotal
  rw [answering_busy hbusy] at hreqs
  have hasks : asks s i = [] := by simp [asks, Arp.startsReply, hbusy]
  obtain ⟨hacc, hent⟩ := Arp.passed_of_busy hready hbusy
  rw [hacc, hent, hasks, List.append_nil, List.append_nil]
  cases hend : Arp.endsArp s with
  | false =>
    obtain ⟨hbusy', hpos, hcount'⟩ := Arp.position_step hi.1 hready hbusy hcount hend
    refine ⟨ms, ⟨?_, h.data, ?_, fun hidle => absurd hidle hbusy', fun _ =>
      ⟨hopen, hcount', by rw [hkeep₁, hkeep₂, hkeep₃]; exact htarget⟩⟩, ?_⟩
    · rw [opened, if_neg hbusy', hins, hpos, hnext, htotal]
      simp
    · rw [answering_busy hbusy', hins]
      exact hreqs
    · rw [begun, begun, current_busy hbusy, current_busy hbusy', hins]
  | true =>
    have hidle := Arp.fsmState_of_endsArp hi.1 hready hend
    have hwords : ((inserted s).words cfg).take (Arp.position s) ++ [(Arp.framedTdata s i, true)] =
        (inserted s).words cfg := by
      rw [← hnext, Arp.position_of_endsArp hend, List.take_of_length_le]
      rw [length_words_inserted]
    refine ⟨ms ++ [inserted s], ⟨?_, ?_, ?_, fun _ hne => absurd hopen hne,
      fun hbusy' => absurd hidle hbusy'⟩, ?_⟩
    · have hbeats : beats ((inserted s).words cfg) =
          (((inserted s).words cfg).take (Arp.position s)).map (·, false) ++
            [((Arp.framedTdata s i, true), true)] := by rw [← beats_concat, hwords]
      rw [opened, if_pos hidle, hopen, htotal, List.flatMap_append, List.flatMap_singleton, hbeats]
      simp [Arp.tag]
    · rw [← h.data]
      simp [data?_inserted]
    · rw [answering_idle hidle, ← hreqs, List.filterMap_append, List.append_nil]
      cases hr : (inserted s).reply? <;> simp [hr]
    · rw [begun, begun, current_busy hbusy, current_idle hidle, if_pos hopen]
      simp

/-- **One cycle of `arp`.** -/
theorem Sends.step (h : Sends cfg s acc total reqs ms) (hi : Local cfg i) :
    ∃ ms', Sends cfg (Arp.step s i) (acc ++ Arp.accepted s i) (total ++ Arp.entering s i)
        (reqs ++ asks s i) ms' ∧
      begun cfg s acc ms <+: begun cfg (Arp.step s i) (acc ++ Arp.accepted s i) ms' := by
  cases hready : Arp.outputTready s i with
  | false =>
    obtain ⟨hacc, hent⟩ := Arp.passed_of_stalled hready
    have hasks : asks s i = [] := by simp [asks, Arp.startsReply, hready]
    obtain ⟨hsends, hbegun⟩ := h.step_stalled hi hready
    rw [hacc, hent, hasks, List.append_nil, List.append_nil, List.append_nil]
    exact ⟨ms, hsends, by rw [hbegun]⟩
  | true =>
    by_cases hidle : s.fsmState = .idle
    · exact h.step_data hi hready hidle
    · exact h.step_arp hi hready hidle

theorem sends_afterReset (h : Arp.AfterReset s) : Sends cfg s [] [] [] [] := by
  obtain ⟨s₀, i, hi, rfl⟩ := h
  have hidle : (Arp.step s₀ i).fsmState = .idle := by simp [Arp.step, hi]
  refine ⟨?_, rfl, answering_idle hidle, fun _ hne => absurd rfl hne,
    fun hbusy => absurd hidle hbusy⟩
  rw [opened, if_pos hidle]
  rfl

/-! ### The packet in progress -/

theorem words_ne_nil {m : Packet} (h : ∀ q, m = .data q → q ≠ []) : m.words cfg ≠ [] := by
  cases m with
  | data q => simpa [Packet.words, Packet.payload, Arp.tag] using h q rfl
  | reply tha tpa => exact List.cons_ne_nil _ _
  | announcement => exact List.cons_ne_nil _ _

theorem Sends.words_ne_nil (h : Sends cfg s acc total reqs ms) {m : Packet} (hm : m ∈ ms) :
    m.words cfg ≠ [] := by
  apply ArpFramer.words_ne_nil
  rintro q rfl
  have hq : q ∈ packets acc := by
    rw [← h.data]
    exact List.mem_filterMap.mpr ⟨_, hm, rfl⟩
  exact ne_nil_of_mem_packets hq

/-- The packets that have been sent completely. -/
theorem Sends.packets_total (h : Sends cfg s acc total reqs ms) :
    packets total = ms.map (Packet.words cfg) ∧ openPacket total = opened cfg s acc := by
  have hne : ∀ p ∈ ms.map (Packet.words cfg), p ≠ [] := by
    intro p hp
    obtain ⟨m, hm, rfl⟩ := List.mem_map.mp hp
    exact h.words_ne_nil hm
  have hpackets := packets_flatMap_beats_append hne (opened cfg s acc)
  rw [List.flatMap_map, ← h.total_eq] at hpackets
  exact hpackets

/-- **Behind complete packets, the beats in the pipeline belong to the packet in progress**, since
they are too few for a whole packet. -/
theorem Sends.pipe_open {out : List ((Byte × Bool) × Bool)}
    (h : Sends cfg s acc (out ++ Arp.pipe s) reqs ms) (hlen : ∀ q ∈ packets acc, 29 ≤ q.length)
    (hout : openPacket out = []) :
    packets out = ms.map (Packet.words cfg) ∧
      opened cfg s acc = (Arp.pipe s).map Prod.fst := by
  obtain ⟨hpackets, hopen⟩ := h.packets_total
  rw [packets_append, hout] at hpackets
  rw [openPacket_append, hout] at hopen
  change packets out ++ packets (Arp.pipe s) = _ at hpackets
  change openPacket (Arp.pipe s) = _ at hopen
  have hnone : packets (Arp.pipe s) = [] := by
    apply List.eq_nil_iff_forall_not_mem.mpr
    intro p hp
    have hshort := (length_le_of_mem_packets hp).trans (Arp.length_pipe_le s)
    have hmem : p ∈ ms.map (Packet.words cfg) := by
      rw [← hpackets]
      exact List.mem_append_right _ hp
    obtain ⟨m, hm, rfl⟩ := List.mem_map.mp hmem
    cases m with
    | data q =>
      have hq := hlen q (by rw [← h.data]; exact List.mem_filterMap.mpr ⟨_, hm, rfl⟩)
      simp [Packet.words, Packet.payload, Arp.tag] at hshort
      omega
    | reply tha tpa => simp [Packet.words, Packet.payload, Arp.tag] at hshort
    | announcement => simp [Packet.words, Packet.payload, Arp.tag] at hshort
  have hpipe := beats_packets (Arp.pipe s)
  rw [hnone, hopen, List.flatMap_nil, List.nil_append] at hpipe
  rw [hnone, List.append_nil] at hpackets
  refine ⟨hpackets, ?_⟩
  rw [← hpipe, List.map_map]
  simp [Function.comp_def]

/-- The `tuser` bit of the beats in the pipeline tells what the state machine does. -/
theorem Sends.tuser_of_mem_pipe {out : List ((Byte × Bool) × Bool)}
    (h : Sends cfg s acc (out ++ Arp.pipe s) reqs ms) (hlen : ∀ q ∈ packets acc, 29 ≤ q.length)
    (hout : openPacket out = []) {b : (Byte × Bool) × Bool} (hb : b ∈ Arp.pipe s) :
    (b.1.2 = true ↔ s.fsmState ≠ .idle) ∧
      current cfg s acc =
        [if s.fsmState ≠ .idle then (inserted s).destination cfg else cfg.destinationMac] := by
  have hmem : b.1 ∈ opened cfg s acc := by
    rw [(h.pipe_open hlen hout).2]
    exact List.mem_map_of_mem hb
  by_cases hidle : s.fsmState = .idle
  · rw [opened, if_pos hidle] at hmem
    obtain ⟨x, hx, hxb⟩ := List.mem_map.mp hmem
    rw [current_idle hidle, if_neg (List.ne_nil_of_mem hx), if_neg (by simp [hidle]), ← hxb]
    simp [hidle]
  · rw [opened, if_neg hidle] at hmem
    obtain ⟨x, -, hxb⟩ := List.mem_map.mp (List.mem_of_mem_take hmem)
    rw [current_busy hidle, if_pos hidle, ← hxb]
    simp [hidle, isArp_inserted]

/-- The packet in progress, an incomplete data packet with a byte that ends it. -/
def ongoing (s : Arp.State) (acc : List (Byte × Bool)) : List Packet :=
  if s.fsmState ≠ .idle then [inserted s]
  else if openPacket acc = [] then []
  else [.data (openPacket acc ++ [0])]

theorem map_destination_ongoing :
    (ongoing s acc).map (Packet.destination cfg) = current cfg s acc := by
  unfold ongoing current
  repeat' split
  all_goals rfl

theorem words_ne_nil_of_mem_ongoing {m : Packet} (hm : m ∈ ongoing s acc) : m.words cfg ≠ [] := by
  apply words_ne_nil
  rintro q rfl
  unfold ongoing inserted at hm
  repeat' split at hm
  all_goals simp at hm
  simp [hm]

theorem filterMap_reply?_ongoing : (ongoing s acc).filterMap Packet.reply? = answering s := by
  unfold ongoing answering
  split
  · cases hr : (inserted s).reply? <;> simp [hr]
  · split <;> rfl

/-- The words of the packet in progress are the first of a packet. -/
theorem opened_le_ongoing (cfg : Config) (s : Arp.State) (acc : List (Byte × Bool)) :
    (opened cfg s acc).map (·, false) <+:
      (ongoing s acc).flatMap fun m => beats (m.words cfg) := by
  unfold opened ongoing
  by_cases hidle : s.fsmState = .idle
  · rw [if_pos hidle, if_neg (by simp [hidle])]
    split
    · next hnil => simp [hnil, Arp.tag]
    · simp [Packet.words, Packet.payload, Packet.isArp, Arp.tag, beats_concat]
  · rw [if_neg hidle, if_pos hidle, List.flatMap_singleton]
    apply map_take_prefix_beats
    rw [length_words_inserted]
    exact Arp.position_lt s

/-- **What `arp` has sent are packets**, the last of them perhaps in part. -/
theorem Sends.prefixes (h : Sends cfg s acc total reqs ms) :
    total <+: (ms ++ ongoing s acc).flatMap (fun m => beats (m.words cfg)) ∧
      acc <+: ((ms ++ ongoing s acc).filterMap Packet.data?).flatMap beats ∧
      (ms ++ ongoing s acc).filterMap Packet.reply? = reqs ∧
      (ms ++ ongoing s acc).map (Packet.destination cfg) = begun cfg s acc ms := by
  refine ⟨?_, ?_, ?_, ?_⟩
  · rw [h.total_eq, List.flatMap_append]
    exact (List.prefix_append_right_inj _).mpr (opened_le_ongoing cfg s acc)
  · have hacc := beats_packets acc
    rw [List.filterMap_append, List.flatMap_append, h.data]
    nth_rewrite 1 [← hacc]
    apply (List.prefix_append_right_inj _).mpr
    unfold ongoing
    by_cases hidle : s.fsmState = .idle
    · rw [if_neg (by simp [hidle])]
      split
      · next hnil => simp [hnil]
      · simp [Packet.data?, beats_concat]
    · simp [(h.busy hidle).1]
  · rw [List.filterMap_append, filterMap_reply?_ongoing, h.replies]
  · rw [List.map_append, map_destination_ongoing, begun]

/-- A beat with `tuser` is valid. -/
def Flagged (s : Arp.State) : Prop :=
  (s.output.tuser = true → s.output.tvalid = true) ∧
    (s.framed.tuser = true → s.framed.tvalid = true)

theorem Flagged.step (h : Flagged s) (hi : i.reset = false) : Flagged (Arp.step s i) := by
  cases hready : Arp.outputTready s i with
  | false => simpa [Flagged, Arp.step, hi, hready] using h
  | true =>
    have hout : (Arp.step s i).output = s.framed := by simp [Arp.step, hi, hready]
    have hframed : (Arp.step s i).framed = Arp.framedNext s i := by simp [Arp.step, hi, hready]
    rw [Flagged, hout, hframed]
    refine ⟨h.2, ?_⟩
    unfold Arp.framedNext
    split <;> simp

/-- The register follows the state machine and the output. -/
theorem ethDestMac_step (hi : Local cfg i) (hdest : i.destinationMacIn = cfg.destinationMac) :
    (Arp.step s i).ethDestMac =
      if s.fsmState ≠ .idle ∨ s.output.tuser = true then (inserted s).destination cfg
      else cfg.destinationMac := by
  by_cases hidle : s.fsmState = .idle <;> cases hu : s.output.tuser <;>
    cases hr : s.activeArpIsReply <;>
    simp [Arp.step, hi.1, hdest, hidle, hu, hr, inserted, Packet.destination]

end Sending

/-! ## The framer -/

section Framing

variable {s : EthernetFramer.State} {i : EthernetFramer.Inputs}

/-- The framer has begun a frame whose payload is not complete. -/
def framing (s : EthernetFramer.State) : Bool := s.framerState.position.isSome

/-- The framer takes the last beat of a packet. -/
def closes (s : EthernetFramer.State) (i : EthernetFramer.Inputs) : Bool :=
  EthernetFramer.sAxisTready s i && i.sAxisTvalid && i.sAxisTlast

theorem closes_eq_false (h : s.framerState ≠ .payload) : closes s i = false := by
  simp [closes, EthernetFramer.sAxisTready, h]

/-- A frame is begun with the sampling of an address and its payload ends with the last beat. -/
theorem framing_step (hi : i.reset = false) :
    (EthernetFramer.sampled s i).length + (framing s).toNat =
      (closes s i).toNat + (framing (EthernetFramer.step s i)).toNat := by
  cases hready : EthernetFramer.outputReady s i with
  | false =>
    rw [EthernetFramer.step_of_stalled hready hi]
    simp [EthernetFramer.sampled, EthernetFramer.starts, closes, EthernetFramer.sAxisTready, hready,
      framing]
  | true =>
    rw [EthernetFramer.step_of_ready hready hi]
    cases hf : s.framerState with
    | idle =>
      rw [closes_eq_false (by simp [hf])]
      cases hs : (i.sAxisTvalid && i.enableIn) <;>
        simp [EthernetFramer.sampled, EthernetFramer.starts, hready, framing, hf,
          EthernetFramer.advance, hs, EthernetFramer.State.pause,
          EthernetFramer.FramerState.position]
    | payload =>
      rw [EthernetFramer.sampled_eq_nil (by simp [hf])]
      have hcloses : closes s i = (i.sAxisTvalid && i.sAxisTlast) := by
        simp [closes, EthernetFramer.sAxisTready, hf, hready]
      rw [hcloses]
      cases hs : (i.sAxisTvalid && i.sAxisTlast) <;>
        simp [framing, hf, EthernetFramer.advance, hs, EthernetFramer.FramerState.position]
    | _ =>
      rw [closes_eq_false (by simp [hf]), EthernetFramer.sampled_eq_nil (by simp [hf])]
      simp [framing, hf, EthernetFramer.advance, EthernetFramer.State.pause,
        EthernetFramer.State.frame, EthernetFramer.FramerState.position]

/-- The payload is left with the last beat. -/
theorem framerState_step_payload (hi : i.reset = false) (hs : s.framerState = .payload)
    (hnext : (EthernetFramer.step s i).framerState ≠ .payload) :
    closes s i = true ∧ (EthernetFramer.step s i).framerState = .fcs1 := by
  cases hready : EthernetFramer.outputReady s i with
  | false =>
    rw [EthernetFramer.step_of_stalled hready hi] at hnext
    exact absurd hs hnext
  | true =>
    rw [EthernetFramer.step_of_ready hready hi] at hnext ⊢
    cases hl : (i.sAxisTvalid && i.sAxisTlast) with
    | false => simp [EthernetFramer.advance, hs, hl] at hnext
    | true =>
      have hl' := Bool.and_eq_true_iff.mp hl
      simp [closes, EthernetFramer.sAxisTready, EthernetFramer.advance, hs, hready, hl']

theorem framerState_ne_payload (hi : i.reset = false)
    (hnext : (EthernetFramer.step s i).framerState = .idle) : s.framerState ≠ .payload := by
  intro hs
  have hfcs := (framerState_step_payload hi hs (by simp [hnext])).2
  simp [hnext] at hfcs

end Framing

/-! ## One cycle -/

section Cycle

variable {cfg : Config} {x : State} {i : Inputs} {acc : List (Byte × Bool)}
  {out : List ((Byte × Bool) × Bool)} {reqs : List (BitVec 48 × BitVec 32)}
  {dsts : List (BitVec 48)} {ms : List Packet}

/-- The address that the framer samples in a cycle. -/
def sampled (s : State) (i : Inputs) : List (BitVec 48) :=
  EthernetFramer.sampled s.framer (framerInputs s i)

theorem Steady.local (h : Steady cfg i) (x : State) : Local cfg (arpInputs x i) :=
  ⟨h.1, h.2.1, h.2.2.1⟩

/-- **The two circuits in step.** `arp` has been handed `acc`, the framer has taken `out` and
sampled `dsts`. -/
structure Addresses (cfg : Config) (x : State) (acc : List (Byte × Bool))
    (out : List ((Byte × Bool) × Bool)) (reqs : List (BitVec 48 × BitVec 32))
    (dsts : List (BitVec 48)) (ms : List Packet) : Prop where
  sends : Sends cfg x.arp acc (out ++ Arp.pipe x.arp) reqs ms
  flagged : Flagged x.arp
  between : x.framer.framerState ≠ .payload → openPacket out = []
  count : dsts.length = (packets out).length + (framing x.framer).toNat
  sampled : dsts <+: begun cfg x.arp acc ms
  register : x.framer.framerState = .idle → x.arp.output.tvalid = true →
    current cfg x.arp acc = [x.arp.ethDestMac]

/-- The beat at the output of `arp` goes to a framer that is ready. -/
theorem handed_eq (x : State) (i : Inputs) : handed x i =
    if EthernetFramer.sAxisTready x.framer (framerInputs x i) && x.arp.output.tvalid then
      [((x.arp.output.tdata, x.arp.output.tuser), x.arp.output.tlast)]
    else [] := by
  cases hr : EthernetFramer.sAxisTready x.framer (framerInputs x i) <;>
    simp [handed, Arp.taken, Arp.Beat.held, arpInputs, hr]

theorem handed_of_not_payload (h : x.framer.framerState ≠ .payload) : handed x i = [] := by
  simp [handed_eq, EthernetFramer.sAxisTready, h]

theorem length_packets_handed :
    (packets (out ++ handed x i)).length =
      (packets out).length + (closes x.framer (framerInputs x i)).toNat := by
  have hcloses : closes x.framer (framerInputs x i) =
      ((EthernetFramer.sAxisTready x.framer (framerInputs x i) && x.arp.output.tvalid) &&
        x.arp.output.tlast) := rfl
  rw [handed_eq, hcloses]
  cases EthernetFramer.sAxisTready x.framer (framerInputs x i) && x.arp.output.tvalid <;>
    cases x.arp.output.tlast <;> simp [packets_concat]

/-- Behind the last beat of a packet, and in front of the first one, no packet is open. -/
theorem openPacket_handed (h : x.framer.framerState ≠ .payload → openPacket out = [])
    (hi : i.arp.reset = false) (hnext : (step x i).framer.framerState ≠ .payload) :
    openPacket (out ++ handed x i) = [] := by
  by_cases hs : x.framer.framerState = .payload
  · obtain ⟨hcloses, -⟩ := framerState_step_payload (i := framerInputs x i) hi hs hnext
    simp only [closes, Bool.and_eq_true] at hcloses
    obtain ⟨⟨h₁, h₂⟩, h₃⟩ := hcloses
    have hone : handed x i = [((x.arp.output.tdata, x.arp.output.tuser), true)] := by
      have h₂ : x.arp.output.tvalid = true := h₂
      have h₃ : x.arp.output.tlast = true := h₃
      simp [handed_eq, h₁, h₂, h₃]
    rw [hone, openPacket_concat, if_pos rfl]
  · rw [handed_of_not_payload hs, List.append_nil]
    exact h hs

/-- The beat at the output of `arp` is in the pipeline. -/
theorem output_mem_pipe {s : Arp.State} (hv : s.output.tvalid = true) :
    ((s.output.tdata, s.output.tuser), s.output.tlast) ∈ Arp.pipe s := by
  simp [Arp.pipe, Arp.Beat.held, hv]

/-- The beats in the pipeline have the `tuser` bit of the packet that the state machine is busy
with. -/
def Tagged (s : Arp.State) : Prop := ∀ b ∈ Arp.pipe s, b.1.2 = true ↔ s.fsmState ≠ .idle

/-- **A beat that waits at the output** behind a cycle in which the framer takes nothing is a beat
of the packet that the state machine was busy with before the cycle. -/
theorem same_packet (htag : Tagged x.arp) (htag' : Tagged (step x i).arp) (hflagged : Flagged x.arp)
    (hi : i.arp.reset = false) (hpayload : x.framer.framerState ≠ .payload)
    (hvalid : (step x i).arp.output.tvalid = true) :
    (x.arp.fsmState ≠ .idle ↔ (step x i).arp.fsmState ≠ .idle) ∧
      (x.arp.output.tuser = true → x.arp.fsmState ≠ .idle) := by
  have hi : (arpInputs x i).reset = false := hi
  have hstall : (arpInputs x i).mAxisTready = false := by
    simp [arpInputs, EthernetFramer.sAxisTready, hpayload]
  cases hv : x.arp.output.tvalid with
  | true =>
    -- the pipeline stands still
    have hready : Arp.outputTready x.arp (arpInputs x i) = false := by
      simp [Arp.outputTready, hstall, hv]
    have hf : (step x i).arp.fsmState = x.arp.fsmState := (Arp.fsm_of_stalled hi hready).1
    exact ⟨by rw [hf], (htag _ (output_mem_pipe hv)).mp⟩
  | false =>
    -- the beat was in the first register
    have hready : Arp.outputTready x.arp (arpInputs x i) = true := by simp [Arp.outputTready, hv]
    have htuser' := htag' _ (output_mem_pipe hvalid)
    have hnext : (step x i).arp.output = x.arp.framed := by simp [step, Arp.step, hi, hready]
    rw [hnext] at hvalid htuser'
    have hmem : ((x.arp.framed.tdata, x.arp.framed.tuser), x.arp.framed.tlast) ∈
        Arp.pipe x.arp := by simp [Arp.pipe, Arp.Beat.held, hv, hvalid]
    refine ⟨(htag _ hmem).symm.trans htuser', fun hu => ?_⟩
    simp [hflagged.1 hu] at hv

/-- **The register is in time**: when the framer is idle and a beat waits, the destination is the
one of the packet in progress. -/
theorem Addresses.register_step {ms' : List Packet} {reqs' : List (BitVec 48 × BitVec 32)}
    (h : Addresses cfg x acc out reqs dsts ms) (hi : Steady cfg i)
    (hsends : Sends cfg (step x i).arp (acc ++ accepted x i)
      (out ++ handed x i ++ Arp.pipe (step x i).arp) reqs' ms')
    (hlen : ∀ q ∈ packets (acc ++ accepted x i), 29 ≤ q.length)
    (hidle : (step x i).framer.framerState = .idle)
    (hvalid : (step x i).arp.output.tvalid = true) :
    current cfg (step x i).arp (acc ++ accepted x i) = [(step x i).arp.ethDestMac] := by
  have hpayload : x.framer.framerState ≠ .payload :=
    framerState_ne_payload (i := framerInputs x i) hi.1 hidle
  have hout := h.between hpayload
  have hout' := openPacket_handed h.between hi.1 (by simp [hidle])
  obtain ⟨hsame, htuser⟩ := same_packet
    (fun b hb => (h.sends.tuser_of_mem_pipe (fun q hq => hlen q (mem_packets_append _ hq)) hout
      hb).1)
    (fun b hb => (hsends.tuser_of_mem_pipe hlen hout' hb).1) h.flagged hi.1 hpayload hvalid
  have hcurrent := (hsends.tuser_of_mem_pipe hlen hout' (output_mem_pipe hvalid)).2
  have hreg : (step x i).arp.ethDestMac =
      if x.arp.fsmState ≠ .idle ∨ x.arp.output.tuser = true then (inserted x.arp).destination cfg
      else cfg.destinationMac := ethDestMac_step (hi.local x) hi.2.2.2
  rw [hcurrent, hreg]
  apply congrArg (fun a => [a])
  by_cases hbusy : x.arp.fsmState = .idle
  · have hquiet : ¬ (x.arp.fsmState ≠ .idle ∨ x.arp.output.tuser = true) := by
      rintro (hne | hu)
      · exact hne hbusy
      · exact htuser hu hbusy
    rw [if_neg hquiet, if_neg (fun hne => hsame.mpr hne hbusy)]
  · rw [if_pos (hsame.mp hbusy), if_pos (Or.inl hbusy)]
    exact congrArg (Packet.destination cfg) (inserted_step (.inr hbusy))

/-- **The address sampled** is the one of the packet in progress. -/
theorem Addresses.sampled_le (h : Addresses cfg x acc out reqs dsts ms)
    (hlen : ∀ q ∈ packets acc, 29 ≤ q.length) :
    dsts ++ ArpFramer.sampled x i <+: begun cfg x.arp acc ms := by
  cases hs : EthernetFramer.starts x.framer (framerInputs x i) with
  | false =>
    have hnone : ArpFramer.sampled x i = [] := by
      simp [ArpFramer.sampled, EthernetFramer.sampled, hs]
    rw [hnone, List.append_nil]
    exact h.sampled
  | true =>
    have hone : ArpFramer.sampled x i = [x.arp.ethDestMac] := by
      simp only [ArpFramer.sampled, EthernetFramer.sampled, hs]
      rfl
    simp only [EthernetFramer.starts, Bool.and_eq_true, beq_iff_eq] at hs
    obtain ⟨⟨-, hidle⟩, hvalid, -⟩ := hs
    have hpackets := (h.sends.pipe_open hlen (h.between (by simp [hidle]))).1
    have hlength : dsts.length = (ms.map (Packet.destination cfg)).length := by
      have hcount := h.count
      rw [hpackets, List.length_map, framing, hidle] at hcount
      simpa [EthernetFramer.FramerState.position] using hcount
    have hdsts : dsts = ms.map (Packet.destination cfg) := by
      have hprefix := List.prefix_iff_eq_take.mp h.sampled
      rwa [begun, hlength, List.take_left] at hprefix
    rw [hone, hdsts, ← h.register hidle hvalid]
    exact List.prefix_refl _

theorem Addresses.step (h : Addresses cfg x acc out reqs dsts ms) (hi : Steady cfg i)
    (hlen : ∀ q ∈ packets (acc ++ accepted x i), 29 ≤ q.length) :
    ∃ ms', Addresses cfg (step x i) (acc ++ accepted x i) (out ++ handed x i) (reqs ++ asked x i)
      (dsts ++ ArpFramer.sampled x i) ms' := by
  have hlocal := hi.local x
  obtain ⟨ms', hsends, hbegun⟩ := h.sends.step hlocal
  rw [List.append_assoc, ← Arp.pipe_step hlocal.1, ← List.append_assoc] at hsends
  refine ⟨ms', hsends, h.flagged.step hlocal.1, openPacket_handed h.between hi.1, ?_, ?_,
    h.register_step hi hsends hlen⟩
  · have hframing := framing_step (s := x.framer) (i := framerInputs x i) hi.1
    have hcount := h.count
    have hstep : framing (ArpFramer.step x i).framer =
        framing (EthernetFramer.step x.framer (framerInputs x i)) := rfl
    have hsampled : (ArpFramer.sampled x i).length =
        (EthernetFramer.sampled x.framer (framerInputs x i)).length := rfl
    rw [List.length_append, length_packets_handed, hstep, hsampled]
    omega
  · exact (h.sampled_le fun q hq => hlen q (mem_packets_append _ hq)).trans hbegun

end Cycle

/-! ## Whole runs -/

section Runs

variable {cfg : Config} {x : State} {is js ks : List Inputs} {i : Inputs}

theorem AfterReset.arp (h : AfterReset x) : Arp.AfterReset x.arp := by
  obtain ⟨x₀, i, hi, rfl⟩ := h
  exact ⟨x₀.arp, arpInputs x₀ i, hi, rfl⟩

theorem AfterReset.framer (h : AfterReset x) : EthernetFramer.AfterReset x.framer := by
  obtain ⟨x₀, i, hi, rfl⟩ := h
  exact ⟨x₀.framer, framerInputs x₀ i, hi, rfl⟩

theorem addresses_afterReset (h : AfterReset x) : Addresses cfg x [] [] [] [] [] := by
  have hpipe := (h.arp.atRest.merges (M := ∅)).1
  have hsends : Sends cfg x.arp [] [] [] [] := sends_afterReset h.arp
  obtain ⟨x₀, i, hi, rfl⟩ := h
  have hi' : (arpInputs x₀ i).reset = true := hi
  have hout : (step x₀ i).arp.output = Arp.Beat.none ∧
      (step x₀ i).arp.framed = Arp.Beat.none := by
    simp [step, Arp.step, hi']
  have hidle : (step x₀ i).framer.framerState = .idle := by
    have hf : (framerInputs x₀ i).reset = true := hi
    simp [step, EthernetFramer.step, EthernetFramer.framerProcess, hf]
  refine ⟨by rwa [hpipe], ?_, fun _ => rfl, ?_, List.nil_prefix, ?_⟩
  · simp [Flagged, hout, Arp.Beat.none]
  · rw [framing, hidle]
    rfl
  · simp [hout, Arp.Beat.none]

theorem run_of_addresses (h : Addresses cfg x [] [] [] [] []) (hsteady : ∀ i ∈ is, Steady cfg i)
    (hlen : ∀ q ∈ packets (collect step accepted x is), 29 ≤ q.length) :
    ∃ ms, Addresses cfg (run step x is) (collect step accepted x is) (collect step handed x is)
      (collect step asked x is) (collect step sampled x is) ms := by
  induction is using List.reverseRecOn with
  | nil => exact ⟨[], h⟩
  | append_singleton is i ih =>
    have hbefore : ∀ q ∈ packets (collect step accepted x is), 29 ≤ q.length := by
      intro q hq
      apply hlen
      rw [collect_append]
      exact mem_packets_append _ hq
    obtain ⟨ms, h⟩ := ih (fun j hj => hsteady j (by simp [hj])) hbefore
    simp only [collect_concat, run_concat] at hlen ⊢
    exact h.step (hsteady i (by simp)) hlen

theorem addresses_run (hs : AfterReset x) (hsteady : ∀ i ∈ is, Steady cfg i)
    (hlen : ∀ q ∈ packets (collect step accepted x is), 29 ≤ q.length) :
    ∃ ms, Addresses cfg (run step x is) (collect step accepted x is) (collect step handed x is)
      (collect step asked x is) (collect step sampled x is) ms :=
  run_of_addresses (addresses_afterReset hs) hsteady hlen

/-- A reply is for a request that has been received. -/
theorem requested_of_heard (h : Arp.Heard cfg.ip x.arp []) (hsteady : ∀ i ∈ is, Steady cfg i) :
    ∀ a ∈ collect step asked x is, Arp.Requested cfg.ip (collect step received x is) a := by
  suffices key : Arp.Heard cfg.ip (run step x is).arp (collect step received x is) ∧
      ∀ a ∈ collect step asked x is, Arp.Requested cfg.ip (collect step received x is) a from key.2
  induction is using List.reverseRecOn with
  | nil => exact ⟨h, by simp⟩
  | append_singleton is i ih =>
    obtain ⟨hheard, hbefore⟩ := ih fun j hj => hsteady j (by simp [hj])
    have hlocal := (hsteady i (by simp)).local (run step x is)
    simp only [collect_concat, run_concat]
    refine ⟨hheard.step hlocal.1 hlocal.2.2, fun a ha => ?_⟩
    have ha : Arp.Requested cfg.ip (collect step received x is) a := by
      rcases List.mem_append.mp ha with ha | ha
      · exact hbefore a ha
      · unfold asked asks at ha
        split at ha
        · next hstart =>
          rw [List.mem_singleton.mp ha]
          simp only [Arp.startsReply, Bool.and_eq_true] at hstart
          exact hheard.pending hstart.2
        · cases ha
    exact ha.mono (List.prefix_append _ _)

theorem asked_requested (hs : AfterReset x) (hsteady : ∀ i ∈ is, Steady cfg i) :
    ∀ a ∈ collect step asked x is, Arp.Requested cfg.ip (collect step received x is) a :=
  requested_of_heard (Arp.heard_afterReset hs.arp) hsteady

/-- What `arp` has sent only grows. -/
theorem total_le (x : State) (hks : ∀ i ∈ ks, i.arp.reset = false) :
    collect step handed x js ++ Arp.pipe (run step x js).arp <+:
      collect step handed x (js ++ ks) ++ Arp.pipe (run step x (js ++ ks)).arp := by
  rw [collect_append, run_append, List.append_assoc, List.prefix_append_right_inj]
  generalize run step x js = y
  induction ks generalizing y with
  | nil => exact List.prefix_refl _
  | cons i ks ih =>
    have hreset : (arpInputs y i).reset = false := hks i (by simp)
    have hpipe := Arp.pipe_step (s := y.arp) hreset
    have hrest := ih (fun j hj => hks j (by simp [hj])) (step y i)
    rw [collect_cons, run_cons, List.append_assoc]
    apply List.IsPrefix.trans ⟨_, hpipe.symm⟩
    exact (List.prefix_append_right_inj _).mpr hrest

theorem framer_step (x : State) (i : Inputs) :
    (step x i).framer = EthernetFramer.step x.framer (framerInputs x i) := rfl

theorem toList_offer (x : State) (i : Inputs) :
    (EthernetFramer.offer (framerInputs x i)).toList = x.arp.output.held := by
  cases hv : x.arp.output.tvalid <;>
    simp [EthernetFramer.offer, framerInputs, Arp.Beat.held, hv]

/-- The framer takes what `arp` hands over. -/
theorem handed_framer (x : State) (i : Inputs) :
    Sync.handed EthernetFramer.offer EthernetFramer.sAxisTready x.framer (framerInputs x i) =
      handed x i := by
  rw [handed_eq]
  cases hv : x.arp.output.tvalid <;>
    cases hr : EthernetFramer.sAxisTready x.framer (framerInputs x i) <;>
    simp [Sync.handed, EthernetFramer.offer, framerInputs, hv] <;>
    simpa [framerInputs, hv] using hr

/-- **`arp` is a source that follows the handshake.** -/
theorem feeds_framer {bs : List ((Byte × Bool) × Bool)} (hreset : ∀ i ∈ is, i.arp.reset = false)
    (hbs : collect step handed x is ++ Arp.pipe (run step x is).arp <+: bs) :
    Feeds false EthernetFramer.step EthernetFramer.offer EthernetFramer.sAxisTready bs x.framer
      (inputs step framerInputs x is) := by
  refine feeds_component (π := State.framer) framer_step ?_ ?_
  · rintro js i ks rfl
    have hsame : (fun y k => Sync.handed EthernetFramer.offer EthernetFramer.sAxisTready
        (State.framer y) (framerInputs y k)) = handed := by
      funext y k
      exact handed_framer y k
    rw [hsame, toList_offer]
    refine List.IsPrefix.trans ?_ ((total_le x fun j hj => hreset j (by simp [hj])).trans hbs)
    exact (List.prefix_append_right_inj _).mpr (List.prefix_append _ _)
  · intro y i hi j hready hvalid
    have hv : y.arp.output.tvalid = true := by
      by_contra hv
      simp [EthernetFramer.offer, framerInputs, hv] at hvalid
    -- the output register stands still
    have hstall : Arp.outputTready y.arp (arpInputs y i) = false := by
      simp [Arp.outputTready, arpInputs, hready, hv]
    have hkeep : (step y i).arp.output = y.arp.output := by
      have hi' : (arpInputs y i).reset = false := hreset i hi
      simp [step, Arp.step, hi', hstall]
    simp [EthernetFramer.offer, framerInputs, hkeep, hv]

/-- The frame that the framer makes of a packet, with the destination of the packet. -/
theorem frameBeats_words (cfg : Config) {m : Packet} (hm : m.words cfg ≠ []) :
    EthernetFramer.frameBeats cfg.mac (m.destination cfg) (m.words cfg) = beats (m.frame cfg) := by
  have htype : (m.words cfg).head?.any Prod.snd = m.isArp := by
    rw [Packet.words, Arp.tag] at hm ⊢
    cases hp : m.payload cfg with
    | nil => simp [hp] at hm
    | cons b q => simp
  have hbytes : (m.words cfg).map Prod.fst = m.payload cfg := by
    simp [Packet.words, Arp.tag, Function.comp_def]
  rw [EthernetFramer.frameBeats, htype, hbytes, Packet.frame]

/-- Addresses that are the first of the destinations give the first of the frames. -/
theorem zipWith_frameBeats_le (cfg : Config) {ms : List Packet}
    (hms : ∀ m ∈ ms, m.words cfg ≠ []) {dsts : List (BitVec 48)}
    (hdsts : dsts <+: ms.map (Packet.destination cfg)) :
    (List.zipWith (EthernetFramer.frameBeats cfg.mac) dsts (ms.map (Packet.words cfg))).flatten <+:
      ms.flatMap fun m => beats (m.frame cfg) := by
  induction ms generalizing dsts with
  | nil => simp
  | cons m ms ih =>
    cases dsts with
    | nil => exact List.nil_prefix
    | cons d dsts =>
      rw [List.map_cons, List.cons_prefix_cons] at hdsts
      obtain ⟨rfl, hrest⟩ := hdsts
      rw [List.map_cons, List.zipWith_cons_cons, List.flatten_cons, List.flatMap_cons,
        frameBeats_words cfg (hms m (by simp)), List.prefix_append_right_inj]
      exact ih (fun m hm => hms m (by simp [hm])) hrest

/-- **Every frame carries the destination of its packet.** In every run in which the addresses at
the ports do not change and the data packets have at least 29 bytes there are packets `ms` such that

* the words handed to the framer are the first of theirs, the bytes accepted from the data source
  are the first of the data packets, and the replies are those that have been started, each for the
  sender of a request that has been received;
* the bytes taken from the framer are the first of their frames. A frame begins with the configured
  address for a data packet, with the address of the requester for a reply, the same that the packet
  has in its target hardware address, and with the broadcast address for an announcement. -/
theorem taken_prefix_addressed (cfg : Config) {x : State} {is : List Inputs} (hs : AfterReset x)
    (hsteady : ∀ i ∈ is, Steady cfg i)
    (hlen : ∀ q ∈ packets (collect step accepted x is), 29 ≤ q.length) :
    ∃ ms : List Packet,
      collect step handed x is <+: ms.flatMap (fun m => beats (m.words cfg)) ∧
      collect step accepted x is <+: (ms.filterMap Packet.data?).flatMap beats ∧
      ms.filterMap Packet.reply? = collect step asked x is ∧
      (∀ a ∈ collect step asked x is, Arp.Requested cfg.ip (collect step received x is) a) ∧
      collect step taken x is <+: ms.flatMap (fun m => beats (m.frame cfg)) ∧
      ∀ m ∈ ms, (m.frame cfg).take 6 = macBytes (m.destination cfg) ∧
        ∀ tha tpa, m = .reply tha tpa →
          Arp.segment 18 24 (m.payload cfg) = (m.frame cfg).take 6 := by
  obtain ⟨ms, h⟩ := addresses_run hs hsteady hlen
  obtain ⟨htotal, hdata, hreply, hbegun⟩ := h.sends.prefixes
  refine ⟨_, (List.prefix_append _ _).trans htotal, hdata, hreply, asked_requested hs hsteady, ?_,
    fun m _ => ⟨rfl, by rintro tha tpa rfl; rfl⟩⟩
  have hne : ∀ m ∈ ms ++ ongoing (run step x is).arp (collect step accepted x is),
      m.words cfg ≠ [] := by
    intro m hm
    rcases List.mem_append.mp hm with hm | hm
    · exact h.sends.words_ne_nil hm
    · exact words_ne_nil_of_mem_ongoing hm
  have hfeeds := feeds_framer (fun i hi => (hsteady i hi).1) htotal
  rw [← List.flatMap_map] at hfeeds
  have hsteady' : Always EthernetFramer.step (EthernetFramer.Steady cfg.mac) x.framer
      (inputs step framerInputs x is) :=
    (always_component (π := State.framer) framer_step x is).mpr
      ((always_of_forall hsteady x).mono fun _ _ hi => ⟨hi.1, hi.2.1⟩)
  have hps : [] ∉ (ms ++ ongoing (run step x is).arp (collect step accepted x is)).map
      (Packet.words cfg) := by
    intro hmem
    obtain ⟨m, hm, hnil⟩ := List.mem_map.mp hmem
    exact hne m hm hnil
  obtain ⟨p, -, -, e⟩ := EthernetFramer.pending_run hs.framer hps hsteady' hfeeds
  rw [collect_component (π := State.framer) framer_step,
    collect_component (π := State.framer) framer_step] at e
  refine List.IsPrefix.trans ⟨p, e.symm⟩ (zipWith_frameBeats_le cfg hne ?_)
  rw [hbegun]
  exact h.sampled

/-- A state after reset. -/
def cleared : State :=
  step ⟨Arp.cleared, EthernetFramer.cleared⟩
    { arp := { reset := true, macAddressIn := 0, ipAddressIn := 0 } }

/-- A request arrives during a data packet of 29 bytes, and an announcement is asked for while the
reply is sent. -/
theorem taken_prefix_addressed_three :
    let cfg : Config := ⟨0x001122334455, 0x0A000001, 0x0A0B0C0D0E0F⟩
    let i : Arp.Inputs :=
      { macAddressIn := cfg.mac, ipAddressIn := cfg.ip, destinationMacIn := cfg.destinationMac }
    let data : Arp.Inputs := { i with sAxisTdata := 0xAB, sAxisTvalid := true }
    let is : List Inputs := (Arp.receive data (Arp.requestFrom 7) ++
      [data, { data with sAxisTlast := true }] ++ List.replicate 20 i ++
      [{ i with sendGarpIn := true }] ++ List.replicate 125 i).map fun i => { arp := i }
    (packets (collect step taken cleared is)).map (·.take 6) =
        [macBytes 0x0A0B0C0D0E0F, macBytes 0x000000000007, macBytes 0xFFFFFFFFFFFF] ∧
      ∃ ms : List Packet, ms.filterMap Packet.reply? = [(0x000000000007, 0x0A000007)] ∧
        collect step taken cleared is <+: ms.flatMap fun m => beats (m.frame cfg) := by
  intro cfg i data is
  obtain ⟨ms, -, -, hreply, -, hframes, -⟩ := taken_prefix_addressed cfg
    (show AfterReset cleared from ⟨_, _, rfl, rfl⟩) (show ∀ i ∈ is, Steady cfg i by decide +kernel)
    (by decide +kernel)
  exact ⟨by decide +kernel, ms, hreply.trans (by decide +kernel), hframes⟩

end Runs

end RmiiEthernet.ArpFramer
