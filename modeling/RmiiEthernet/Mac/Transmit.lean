import RmiiEthernet.Arp.Readdress
import RmiiEthernet.Mac.Datapath
import RmiiEthernet.PacketAfifo.Whole
import RmiiEthernet.Rmii.Frames
import RmiiEthernet.Sync.Clocks

/-!
# From the user to the line

The transmit direction of `rmii_mac` over every interleaving of the two clocks. `arp` and the framer
turn the packets of the user into frames, with replies and announcements between them;
`packet_afifo` hands a frame to the clock of the PHY only when it is complete, so `rmii_mac_tx`,
which cannot wait inside a packet, never runs dry (`feeds_rmiiMacTx`). Hence there are whole frames
on the line and nothing else (`line_frames_user`).
-/

namespace RmiiEthernet.ArpFramer

open Sync EthernetFcs EthernetFrame

/-! ## The framer of a circuit that is at rest -/

variable {cfg : Config} {x : State} {is : List Inputs}

/-- Nothing is in progress and no reply is asked for. -/
structure Resting (x : State) : Prop extends AtRest x where
  crc : EthernetFramer.CrcAfter x.framer []
  rxByteCnt : x.arp.rx.rxByteCnt = 0
  replyPending : x.arp.rx.replyPending = false

theorem resting_reset {i : Inputs} (hi : i.arp.reset = true) : Resting (step x i) where
  toAtRest := atRest_reset hi
  crc := by
    simp [EthernetFramer.CrcAfter, EthernetFramer.held, step, framerInputs, EthernetFramer.step,
      EthernetFramer.framerProcess, EthernetFramer.outputProcess, hi]
  rxByteCnt := by simp [step, arpInputs, Arp.step, Arp.Parser.step, hi]
  replyPending := by simp [step, arpInputs, Arp.step, Arp.Parser.step, hi]

theorem Resting.addresses (h : Resting x) : Addresses cfg x [] [] [] [] [] := by
  have hpipe := (h.arp.merges (M := ∅)).1
  have hidle := h.arp.fsmState
  refine ⟨⟨?_, rfl, answering_idle hidle, fun _ hne => absurd rfl hne,
    fun hbusy => absurd hidle hbusy⟩, ?_, fun _ => rfl, ?_, List.nil_prefix, ?_⟩
  · rw [hpipe, opened, if_pos hidle]
    rfl
  · simp [Flagged, h.arp.output, h.arp.framed, Arp.Beat.none]
  · rw [framing, h.framer.framerState]
    rfl
  · simp [h.arp.output, Arp.Beat.none]

theorem Resting.pending (h : Resting x) {src : BitVec 48} {ps : List (List (Byte × Bool))}
    (hps : [] ∉ ps) :
    EthernetFramer.Pending src (x.framer, ⟨ps.flatMap beats, false⟩) ps [] := by
  refine ⟨hps, [], .idle h.framer.framerState h.framer.fcsState ?_ h.framer.framedTlast h.crc rfl,
    ?_⟩
  · simp [EthernetFramer.held, h.framer.framedTvalid]
  · simp [EthernetFramer.shown, h.framer.outputTvalid]

theorem Resting.heard (h : Resting x) (ip : BitVec 32) : Arp.Heard ip x.arp [] := by
  refine ⟨⟨[], [], Arp.parses_nil h.rxByteCnt, by simp, rfl, by simp⟩, fun hpending => ?_⟩
  simp [h.replyPending] at hpending

/-- While a frame is begun whose payload is not complete, a part of it is still owed. -/
theorem ne_nil_of_framing {src : BitVec 48} {s : EthernetFramer.State}
    {todo : List ((Byte × Bool) × Bool)} {fresh : List (List (Byte × Bool))}
    {w : List (Byte × Bool)} (h : EthernetFramer.Owes src s todo fresh w)
    (hf : framing s = true) : w ≠ [] := by
  cases h with
  | idle hidle => simp [framing, hidle, EthernetFramer.FramerState.position] at hf
  | busy k c m =>
    apply List.ne_nil_of_length_pos
    rw [length_beats, EthernetFramer.closed, List.length_append]
    exact Nat.add_pos_right _ (List.length_pos_of_ne_nil EthernetFramer.fcsBytes_ne_nil)
  | closing m hclosing => simp [framing, hclosing, EthernetFramer.FramerState.position] at hf
  | inserting hdata hahead =>
    rw [framing, hahead] at hf
    cases hs : s.fcsState <;>
      simp_all [EthernetFramer.FcsState.ahead, EthernetFramer.FramerState.position]

/-- The frame that is made of the words of a packet. -/
def frameOf (src dst : BitVec 48) (q : List (Byte × Bool)) : List Byte :=
  EthernetFrame.frame dst src (q.head?.any Prod.snd) (q.map Prod.fst)

theorem flatten_zipWith_frameBeats (src : BitVec 48) (dsts : List (BitVec 48))
    (ps : List (List (Byte × Bool))) :
    (List.zipWith (EthernetFramer.frameBeats src) dsts ps).flatten =
      (List.zipWith (frameOf src) dsts ps).flatMap beats := by
  rw [List.flatMap_def, List.map_zipWith]
  rfl

theorem ne_nil_of_mem_zipWith {src : BitVec 48} {dsts : List (BitVec 48)}
    {ps : List (List (Byte × Bool))} {f : List Byte}
    (hf : f ∈ List.zipWith (frameOf src) dsts ps) : f ≠ [] := by
  obtain ⟨k, hk, rfl⟩ := List.mem_iff_getElem.mp hf
  rw [List.getElem_zipWith]
  exact List.cons_ne_nil _ _

/-- A frame is complete only when its packet is. -/
theorem length_packets_taken_le {src : BitVec 48} {y : EthernetFramer.State × Source (Byte × Bool)}
    {ps fresh : List (List (Byte × Bool))} {dsts : List (BitVec 48)} {bs p : List (Byte × Bool)}
    {n : ℕ} (hp : EthernetFramer.Pending src y fresh p) (hle : dsts.length ≤ ps.length)
    (e : (List.zipWith (EthernetFramer.frameBeats src) dsts ps).flatten = bs ++ p)
    (hcount : dsts.length = n + (framing y.1).toNat) : (packets bs).length ≤ n := by
  rw [flatten_zipWith_frameBeats] at e
  have hlength : (List.zipWith (frameOf src) dsts ps).length = dsts.length := by
    rw [List.length_zipWith]
    omega
  cases hf : framing y.1 with
  | true =>
    obtain ⟨-, w, hw, rfl⟩ := hp
    have hlt := length_packets_lt (fun _ => ne_nil_of_mem_zipWith) e
      (List.append_ne_nil_of_right_ne_nil _ (ne_nil_of_framing hw hf))
    rw [hf, Bool.toNat_true] at hcount
    omega
  | false =>
    have hpre := (Sync.packets_prefix ⟨p, e.symm⟩).length_le
    rw [(packets_flatMap_beats fun _ => ne_nil_of_mem_zipWith).1, hlength, hcount, hf] at hpre
    exact hpre

/-- Nothing is on its way through `arp` and the framer. -/
structure Drained (x : State) : Prop where
  pipe : Arp.pipe x.arp = []
  framer : EthernetFramer.AtRest x.framer

instance (x : State) : Decidable (Drained x) :=
  decidable_of_iff (Arp.pipe x.arp = [] ∧ EthernetFramer.AtRest x.framer)
    ⟨fun h => ⟨h.1, h.2⟩, fun h => ⟨h.pipe, h.framer⟩⟩

/-- A framer at rest owes nothing. -/
theorem eq_nil_of_pending {src : BitVec 48} {y : EthernetFramer.State × Source (Byte × Bool)}
    {fresh : List (List (Byte × Bool))} {p : List (Byte × Bool)} (h : EthernetFramer.AtRest y.1)
    (hp : EthernetFramer.Pending src y fresh p) : p = [] := by
  obtain ⟨-, w, hw, rfl⟩ := hp
  have hshown : EthernetFramer.shown y.1 = [] := by
    simp [EthernetFramer.shown, h.outputTvalid]
  rw [hshown, List.nil_append]
  cases hw with
  | idle => rfl
  | busy k c m hposition => simp [h.framerState, EthernetFramer.FramerState.position] at hposition
  | closing m hclosing => simp [h.framerState] at hclosing
  | inserting hdata => exact absurd h.fcsState hdata

theorem fst_run_framer (y : EthernetFramer.State × Source (Byte × Bool))
    (is : List EthernetFramer.Inputs) :
    (run EthernetFramer.fed y is).1 = run EthernetFramer.step y.1 is :=
  run_proj (π := Prod.fst) (fun _ _ => rfl) y is

theorem Addresses.words_ne_nil {acc : List (Byte × Bool)} {out : List ((Byte × Bool) × Bool)}
    {reqs : List (BitVec 48 × BitVec 32)} {dsts : List (BitVec 48)} {ms : List Packet}
    (h : Addresses cfg x acc out reqs dsts ms) {m : Packet} (hm : m ∈ ms ++ ongoing x.arp acc) :
    m.words cfg ≠ [] := by
  rcases List.mem_append.mp hm with hm | hm
  · exact h.sends.words_ne_nil hm
  · exact words_ne_nil_of_mem_ongoing hm

/-- **The frames of a run** from rest on: `ms` are the packets of `arp`, and `p` is what is still to
come of the frames that have been begun. -/
structure Frames (cfg : Config) (x : State) (is : List Inputs) (ms : List Packet)
    (p : List (Byte × Bool)) : Prop where
  addresses : Addresses cfg (run step x is) (collect step accepted x is) (collect step handed x is)
    (collect step asked x is) (collect step sampled x is) ms
  pending : ∃ y fresh, y.1 = (run step x is).framer ∧ EthernetFramer.Pending cfg.mac y fresh p
  length_le : (collect step sampled x is).length ≤
    (ms ++ ongoing (run step x is).arp (collect step accepted x is)).length
  frames : (List.zipWith (EthernetFramer.frameBeats cfg.mac) (collect step sampled x is)
    ((ms ++ ongoing (run step x is).arp (collect step accepted x is)).map
      (Packet.words cfg))).flatten = collect step taken x is ++ p

variable {ms : List Packet} {p : List (Byte × Bool)}

theorem Resting.exists_frames (h : Resting x) (hsteady : ∀ i ∈ is, Steady cfg i)
    (hlen : ∀ q ∈ packets (collect step accepted x is), 29 ≤ q.length) :
    ∃ ms p, Frames cfg x is ms p := by
  obtain ⟨ms, haddr⟩ := run_of_addresses h.addresses hsteady hlen
  have hps : [] ∉ (ms ++ ongoing (run step x is).arp (collect step accepted x is)).map
      (Packet.words cfg) := by
    intro hmem
    obtain ⟨m, hm, hnil⟩ := List.mem_map.mp hmem
    exact haddr.words_ne_nil hm hnil
  have hfeeds := feeds_framer (fun i hi => (hsteady i hi).1) haddr.sends.prefixes.1
  rw [← List.flatMap_map] at hfeeds
  have hsteady' : Always EthernetFramer.step (EthernetFramer.Steady cfg.mac) x.framer
      (inputs step framerInputs x is) :=
    (always_component (π := State.framer) framer_step x is).mpr
      ((always_of_forall hsteady x).mono fun _ _ hi => ⟨hi.1, hi.2.1⟩)
  obtain ⟨p, hp, hle, e⟩ := EthernetFramer.run_of_pending (h.pending hps) hsteady' hfeeds
  rw [collect_component (π := State.framer) framer_step,
    collect_component (π := State.framer) framer_step] at e
  rw [collect_component (π := State.framer) framer_step, List.length_map] at hle
  refine ⟨ms, p, haddr, ⟨_, _, ?_, hp⟩, hle, e⟩
  rw [fst_run_framer, run_component (π := State.framer) framer_step]

/-- Those that are complete are frames of packets that are complete. -/
theorem Frames.packets_taken (h : Frames cfg x is ms p) :
    packets (collect step taken x is) <+: ms.map (Packet.frame cfg) := by
  obtain ⟨y, fresh, hy, hp⟩ := h.pending
  have hcomplete : (packets (collect step taken x is)).length ≤ ms.length := by
    have hcount := h.addresses.count
    rw [← hy] at hcount
    refine (length_packets_taken_le hp (by rw [List.length_map]; exact h.length_le) h.frames
      hcount).trans ?_
    rw [← List.length_map (Packet.words cfg), ← h.addresses.sends.packets_total.1]
    exact (Sync.packets_prefix (List.prefix_append _ _)).length_le
  have hframes : ∀ f ∈ (ms ++ ongoing (run step x is).arp (collect step accepted x is)).map
      (Packet.frame cfg), f ≠ [] := by
    intro f hf
    obtain ⟨m, -, rfl⟩ := List.mem_map.mp hf
    exact List.cons_ne_nil _ _
  have hpre := packets_prefix ((List.prefix_append _ p).trans (h.frames ▸
    zipWith_frameBeats_le cfg (fun _ => h.addresses.words_ne_nil)
      (h.addresses.sends.prefixes.2.2.2 ▸ h.addresses.sampled)))
  rw [← List.flatMap_map, (packets_flatMap_beats hframes).1, List.map_append] at hpre
  exact List.prefix_of_prefix_length_le hpre (List.prefix_append _ _) (by simpa using hcomplete)

/-- When nothing is on its way, all of them have been taken. -/
theorem Frames.taken_eq (h : Frames cfg x is ms p) (hdrained : Drained (run step x is)) :
    collect step taken x is = (ms.map (Packet.frame cfg)).flatMap beats := by
  obtain ⟨y, fresh, hy, hp⟩ := h.pending
  have hframes := h.frames
  rw [eq_nil_of_pending (by rw [hy]; exact hdrained.framer) hp, List.append_nil,
    flatten_zipWith_frameBeats] at hframes
  -- every packet has been begun, so there are as many frames as packets
  have hsampled : (collect step sampled x is).length = ms.length := by
    have htotal := h.addresses.sends.packets_total.1
    rw [hdrained.pipe, List.append_nil] at htotal
    rw [h.addresses.count, htotal, framing, hdrained.framer.framerState, List.length_map]
    rfl
  have hpackets := h.packets_taken
  rw [← hframes, (packets_flatMap_beats fun _ => ne_nil_of_mem_zipWith).1] at hpackets
  rw [← hframes, hpackets.eq_of_length (by simp [hsampled])]

/-- **The frames taken from the framer**, from rest on. -/
theorem Resting.packets_taken (h : Resting x) (hsteady : ∀ i ∈ is, Steady cfg i)
    (hlen : ∀ q ∈ packets (collect step accepted x is), 29 ≤ q.length) :
    ∃ ms : List Packet,
      ms.filterMap Packet.data? = packets (collect step accepted x is) ∧
      (∀ a ∈ ms.filterMap Packet.reply?,
        Arp.Requested cfg.ip (collect step received x is) a) ∧
      packets (collect step taken x is) <+: ms.map (Packet.frame cfg) ∧
      (Drained (run step x is) →
        collect step taken x is = (ms.map (Packet.frame cfg)).flatMap beats) := by
  obtain ⟨ms, p, hf⟩ := h.exists_frames hsteady hlen
  refine ⟨ms, hf.addresses.sends.data, fun a ha => ?_, hf.packets_taken, hf.taken_eq⟩
  apply requested_of_heard (h.heard cfg.ip) hsteady
  rw [← hf.addresses.sends.prefixes.2.2.1, List.filterMap_append]
  exact List.mem_append_left _ ha

end RmiiEthernet.ArpFramer

namespace RmiiEthernet.RmiiMac

open Sync EthernetFcs ArpFramer RmiiMacTx

variable {T R : ℕ} {cfg : Config} {s : State T R} {es : List Edge} {e : Edge}

/-! ## The parts -/

/-- What `arp` and the framer get at an edge. -/
def arpFramerIn (s : State T R) : Edge → List ArpFramer.Inputs
  | .user i => [arpFramerInputs s i]
  | .phy _ _ => []

/-- What `rmii_mac_tx` gets at an edge. -/
def rmiiMacTxIn (s : State T R) : Edge → List RmiiMacTx.Inputs
  | .user _ => []
  | .phy _ _ => [rmiiMacTxInputs s]

theorem clocked_arpFramer :
    Clocked ArpFramer.step State.arpFramer (step (T := T) (R := R)) arpFramerIn := by
  intro s e
  cases e <;> rfl

theorem clocked_rmiiMacTx :
    Clocked RmiiMacTx.step State.rmiiMacTx (step (T := T) (R := R)) rmiiMacTxIn := by
  intro s e
  cases e <;> rfl

theorem txPacketAfifo_step (s : State T R) (e : Edge) :
    (step s e).txPacketAfifo = PacketAfifo.step s.txPacketAfifo (txPacketAfifoEdge s e) := by
  cases e <;> rfl

/-- No reset is on its way to the clock of the PHY. -/
def Unreset (s : State T R) : Prop :=
  s.resetPulseTransfer.aPulseR = false ∧ s.resetPulseTransfer.bFf0 = false ∧
    s.resetPulseTransfer.bFf1 = false

theorem Unreset.resetClk50 (h : Unreset s) : resetClk50 s = false := by
  simp [RmiiMac.resetClk50, PacketAfifo.PulseTransfer.bPulseOut, h.2.2]

theorem Unreset.step (h : Unreset s) (he : Steady cfg e) : Unreset (step s e) := by
  obtain ⟨h₁, h₂, h₃⟩ := h
  cases e with
  | user i =>
    refine ⟨?_, h₂, h₃⟩
    simp [RmiiMac.step, userStep, PacketAfifo.PulseTransfer.stepA, he.1, h₁]
  | phy crsDv rxd => exact ⟨h₁, h₁, h₂⟩

theorem unreset_run (h : Unreset s) (hsteady : ∀ e ∈ es, Steady cfg e) :
    Unreset (run step s es) :=
  run_invariant (fun _ _ h he => h.step he) h (always_of_forall hsteady s)

/-- Nothing is in progress in the transmit direction. -/
structure TransmitIdle (s : State T R) : Prop where
  unreset : Unreset s
  arpFramer : Resting s.arpFramer
  txPacketAfifo : PacketAfifo.PowerUp s.txPacketAfifo
  rmiiMacTx : RmiiMacTx.Waiting s.rmiiMacTx

/-- A state in which nothing is in progress. -/
def idle (T R : ℕ) : State T R where
  resetPulseTransfer := ⟨false, ⟨false, false⟩, false, false, false⟩
  arpFramer := ArpFramer.cleared
  txPacketAfifo := PacketAfifo.initial T
  rmiiMacTx := RmiiMacTx.cleared
  rmiiMacRx := RmiiMacRx.cleared
  afifo := (PacketAfifo.initial 11).afifo
  ethernetDeframer := EthernetDeframer.cleared
  rxPacketBuffer := RxPacketBuffer.cleared R
  rmiiMacCounters := ⟨0, 0, 0, 0, 0⟩

theorem idle_transmitIdle (T R : ℕ) : TransmitIdle (idle T R) where
  unreset := ⟨rfl, rfl, rfl⟩
  arpFramer := ArpFramer.resting_reset rfl
  txPacketAfifo := PacketAfifo.initial_powerUp T
  rmiiMacTx := RmiiMacTx.cleared_waiting

/-! ## The frames -/

theorem collect_accepted (s : State T R) (es : List Edge) :
    collect ArpFramer.step ArpFramer.accepted s.arpFramer (collect step arpFramerIn s es) =
      collect step accepted s es := by
  rw [clocked_arpFramer.collect_eq]
  congr 1
  funext s e
  cases e <;> simp [arpFramerIn, accepted]

theorem collect_framed (s : State T R) (es : List Edge) :
    collect ArpFramer.step ArpFramer.taken s.arpFramer (collect step arpFramerIn s es) =
      collect step framed s es := by
  rw [clocked_arpFramer.collect_eq]
  congr 1
  funext s e
  cases e <;> simp [arpFramerIn, framed, txPacketAfifoEdge, PacketAfifo.accepted,
    ArpFramer.taken, EthernetFramer.taken, framerInputs, arpFramerInputs]

theorem collect_received (s : State T R) (es : List Edge) :
    collect ArpFramer.step ArpFramer.received s.arpFramer (collect step arpFramerIn s es) =
      collect step received s es := by
  rw [clocked_arpFramer.collect_eq]
  congr 1
  funext s e
  cases e with
  | user i =>
    simp only [arpFramerIn, collect_cons, collect_nil, List.append_nil]
    rfl
  | phy crsDv rxd => rfl

theorem steady_arpFramerIn (hsteady : ∀ e ∈ es, Steady cfg e) :
    ∀ i ∈ collect step arpFramerIn s es, ArpFramer.Steady cfg i := by
  intro i hi
  obtain ⟨es₁, e, es₂, rfl, hmem⟩ := mem_collect_iff.mp hi
  cases e with
  | user j =>
    obtain rfl := List.mem_singleton.mp hmem
    obtain ⟨hreset, hmac, hip, hdest, -⟩ := hsteady (.user j) (by simp)
    exact ⟨hreset, hmac, hip, hdest⟩
  | phy crsDv rxd => cases hmem

/-- **The frames that go into the packet FIFO.** -/
theorem framed_isPrefix (h : Resting s.arpFramer) (hsteady : ∀ e ∈ es, Steady cfg e)
    (hlen : ∀ q ∈ packets (collect step accepted s es), 29 ≤ q.length) :
    ∃ ms : List Packet,
      ms.filterMap Packet.data? = packets (collect step accepted s es) ∧
      (∀ a ∈ ms.filterMap Packet.reply?,
        Arp.Requested cfg.ip (collect step received s es) a) ∧
      packets (collect step framed s es) <+: ms.map (Packet.frame cfg) ∧
      (ArpFramer.Drained (run step s es).arpFramer →
        collect step framed s es = (ms.map (Packet.frame cfg)).flatMap beats) := by
  rw [← collect_accepted] at hlen ⊢
  rw [← collect_received, ← collect_framed, ← clocked_arpFramer.run_eq]
  exact h.packets_taken (steady_arpFramerIn hsteady) hlen

/-! ## The packet FIFO -/

theorem collect_txPacketAfifo {B : Type*} {obs : PacketAfifo.State T → PacketAfifo.Edge → List B}
    (s : State T R) (es : List Edge) :
    collect PacketAfifo.step obs s.txPacketAfifo (inputs step txPacketAfifoEdge s es) =
      collect step (fun s e => obs s.txPacketAfifo (txPacketAfifoEdge s e)) s es :=
  collect_component (π := State.txPacketAfifo) txPacketAfifo_step s es

theorem noReset_txPacketAfifo (s : State T R) (hsteady : ∀ e ∈ es, Steady cfg e) :
    Always PacketAfifo.step PacketAfifo.NoReset s.txPacketAfifo
      (inputs step txPacketAfifoEdge s es) := by
  rw [always_component (π := State.txPacketAfifo) txPacketAfifo_step]
  refine (always_of_forall hsteady s).mono fun s e he => ?_
  cases e with
  | user i => exact he.1
  | phy crsDv rxd => trivial

/-- What the transmitter takes is what the packet FIFO hands over. -/
theorem handed_rmiiMacTx (s : State T R) (e : Edge) :
    collect RmiiMacTx.step (Sync.handed offer RmiiMacTx.sAxisTready) s.rmiiMacTx (rmiiMacTxIn s e) =
      PacketAfifo.sent s.txPacketAfifo (txPacketAfifoEdge s e) := by
  cases e with
  | user i => rfl
  | phy crsDv rxd =>
    cases hv : s.txPacketAfifo.mAxisTvalid <;> cases hr : s.rmiiMacTx.sAxisTready <;>
      simp [rmiiMacTxIn, rmiiMacTxInputs, Sync.handed, offer, RmiiMacTx.sAxisTready,
        txPacketAfifoEdge, PacketAfifo.sent, hv, hr]

/-- **The packet FIFO feeds the transmitter** with complete packets, and with no pause inside them,
at every interleaving of the two clocks. -/
theorem feeds_rmiiMacTx (hT : 1 ≤ T) (h : PacketAfifo.PowerUp s.txPacketAfifo)
    (hsteady : ∀ e ∈ es, Steady cfg e) :
    Feeds true RmiiMacTx.step offer RmiiMacTx.sAxisTready
      ((packets (collect step framed s es)).flatMap beats) s.rmiiMacTx
      (collect step rmiiMacTxIn s es) := by
  have hone : ∀ (s : State T R) (e : Edge), rmiiMacTxIn s e = [] ∨ ∃ i, rmiiMacTxIn s e = [i] ∧
      (offer i).isSome = s.txPacketAfifo.mAxisTvalid := by
    intro s e
    cases e with
    | user i => exact .inl rfl
    | phy crsDv rxd =>
      refine .inr ⟨_, rfl, ?_⟩
      cases hv : s.txPacketAfifo.mAxisTvalid <;> simp [offer, rmiiMacTxInputs, hv]
  refine clocked_rmiiMacTx.feeds hone ?_ ?_
  · rintro ks e ls rfl i hi
    have hks : ∀ e ∈ ks, Steady cfg e := fun e he => hsteady e (by simp [he])
    have hshown := PacketAfifo.sent_prefix_packets hT h (noReset_txPacketAfifo s hks)
    rw [collect_txPacketAfifo, collect_txPacketAfifo,
      run_component (π := State.txPacketAfifo) txPacketAfifo_step] at hshown
    have hoffer : (offer i).toList = PacketAfifo.offered (run step s ks).txPacketAfifo := by
      cases e with
      | user j => cases hi
      | phy crsDv rxd =>
        obtain rfl := List.mem_singleton.mp hi
        cases hv : (run step s ks).txPacketAfifo.mAxisTvalid <;>
          simp [offer, rmiiMacTxInputs, PacketAfifo.offered, hv]
    have hsent : (fun y k => collect RmiiMacTx.step (Sync.handed offer RmiiMacTx.sAxisTready)
        (State.rmiiMacTx y) (rmiiMacTxIn y k)) =
        fun (y : State T R) k => PacketAfifo.sent y.txPacketAfifo (txPacketAfifoEdge y k) := by
      funext y k
      exact handed_rmiiMacTx y k
    rw [hsent, hoffer]
    exact hshown.trans
      ((Sync.packets_prefix (Sync.collect_prefix s (List.prefix_append _ _))).flatMap _)
  · rintro ks e ls rfl hv hlast
    have hks : ∀ e ∈ ks, Steady cfg e := fun e he => hsteady e (by simp [he])
    have hcounts := PacketAfifo.counts_run h (noReset_txPacketAfifo s hks)
    rw [run_component (π := State.txPacketAfifo) txPacketAfifo_step] at hcounts
    have hreset : PacketAfifo.NoReset (run step s ks).txPacketAfifo
        (txPacketAfifoEdge (run step s ks) e) := by
      cases e with
      | user i => exact (hsteady (.user i) (by simp)).1
      | phy crsDv rxd => trivial
    change (step (run step s ks) e).txPacketAfifo.mAxisTvalid = true
    rw [txPacketAfifo_step]
    rw [handed_rmiiMacTx] at hlast
    exact (PacketAfifo.noGap_of_counts hcounts hreset hv).1 fun b hb => (hlast b hb).2

/-! ## The line -/

/-- The line up to and including the state at the end. -/
def lineSoFar (s : State T R) (es : List Edge) : List (Bool × BitVec 2) :=
  collect step line s es ++ [onLine (run step s es).rmiiMacTx]

theorem line_rmiiMacTx (s : State T R) (es : List Edge) :
    RmiiMacTx.line s.rmiiMacTx (collect step rmiiMacTxIn s es) = lineSoFar s es := by
  rw [RmiiMacTx.line, clocked_rmiiMacTx.collect_eq, clocked_rmiiMacTx.run_eq, lineSoFar]
  congr 2
  funext s e
  cases e <;> rfl

theorem reset_rmiiMacTxIn (h : Unreset s) (hsteady : ∀ e ∈ es, Steady cfg e) :
    ∀ i ∈ collect step rmiiMacTxIn s es, i.reset = false := by
  intro i hi
  obtain ⟨es₁, e, es₂, rfl, hmem⟩ := mem_collect_iff.mp hi
  cases e with
  | user j => cases hmem
  | phy crsDv rxd =>
    obtain rfl := List.mem_singleton.mp hmem
    exact (unreset_run h fun e he => hsteady e (by simp [he])).resetClk50

/-- A line that carries the first of some packets is the beginning of one that carries them all. -/
theorem prefix_frames_append {gs : List ℕ} {ps qs : List (List Byte)} {n : ℕ}
    {l : List (Bool × BitVec 2)} (hgs : gs.length = ps.length ∧ Gapped gs)
    (hl : l <+: frames gs ps ++ quiet n) (hpq : ps <+: qs) :
    ∃ gs' n', gs'.length = qs.length ∧ Gapped gs' ∧ l <+: frames gs' qs ++ quiet n' := by
  obtain ⟨rs, rfl⟩ := hpq
  refine ⟨gs ++ List.replicate rs.length (n + 48), n, ?_, gapped_append hgs.2 (by simp), ?_⟩
  · simp [hgs.1]
  · rw [frames_append hgs.1, List.append_assoc]
    refine hl.trans ?_
    rw [List.prefix_append_right_inj]
    exact quiet_prefix_frames n rs

/-- The beat that the packet FIFO hands over at an edge. -/
def sent (s : State T R) (e : Edge) : List (Byte × Bool) :=
  PacketAfifo.sent s.txPacketAfifo (txPacketAfifoEdge s e)

theorem lines_user (hT : 1 ≤ T) (h : TransmitIdle s) (hsteady : ∀ e ∈ es, Steady cfg e) :
    ∃ x, x.1 = (run step s es).rmiiMacTx ∧
      collect step sent s es ++ x.2.todo = (packets (collect step framed s es)).flatMap beats ∧
      Lines (packets (collect step framed s es)) x (lineSoFar s es) := by
  have hfeeds := feeds_rmiiMacTx hT h.txPacketAfifo hsteady
  have hlines := lines_run h.rmiiMacTx (fun _ => ne_nil_of_mem_packets)
    (reset_rmiiMacTxIn h.unreset hsteady) hfeeds
  rw [line_rmiiMacTx] at hlines
  have hsum := handed_append_unsent hfeeds
  rw [clocked_rmiiMacTx.collect_eq] at hsum
  refine ⟨_, by rw [fst_run_fed, clocked_rmiiMacTx.run_eq], ?_, hlines⟩
  refine Eq.trans ?_ hsum
  congr 2
  funext y e
  exact (handed_rmiiMacTx y e).symm

/-- Nothing is on its way in the transmit direction. -/
structure Drained (s : State T R) : Prop where
  arpFramer : ArpFramer.Drained s.arpFramer
  txPacketAfifo : PacketAfifo.Drained s.txPacketAfifo
  rmiiMacTx : s.rmiiMacTx.fsmState = .idle

instance (s : State T R) : Decidable (Drained s) :=
  decidable_of_iff (ArpFramer.Drained s.arpFramer ∧ PacketAfifo.Drained s.txPacketAfifo ∧
      s.rmiiMacTx.fsmState = .idle)
    ⟨fun h => ⟨h.1, h.2.1, h.2.2⟩, fun h => ⟨h.arpFramer, h.txPacketAfifo, h.rmiiMacTx⟩⟩

/-- When nothing is in the packet FIFO, there are whole frames only, all of them handed over. -/
theorem framed_of_drained (hT : 1 ≤ T) (h : TransmitIdle s) (hsteady : ∀ e ∈ es, Steady cfg e)
    (hdrained : PacketAfifo.Drained (run step s es).txPacketAfifo) {bs : List (Byte × Bool)}
    (hsum : collect step sent s es ++ bs = (packets (collect step framed s es)).flatMap beats) :
    bs = [] ∧ collect step framed s es = (packets (collect step framed s es)).flatMap beats := by
  have hsent : collect step sent s es = collect step framed s es := by
    have hall := PacketAfifo.sent_eq_accepted hT h.txPacketAfifo (noReset_txPacketAfifo s hsteady)
      (by rwa [run_component (π := State.txPacketAfifo) txPacketAfifo_step])
    rwa [collect_txPacketAfifo, collect_txPacketAfifo] at hall
  have hcut := beats_packets (collect step framed s es)
  rw [← hsum, hsent, List.append_assoc, List.append_right_eq_self, List.append_eq_nil_iff] at hcut
  refine ⟨hcut.1, ?_⟩
  rw [← hsum, hsent, hcut.1, List.append_nil]

/-- When nothing is on its way, the line has carried all the frames. -/
theorem line_of_drained (hT : 1 ≤ T) (h : TransmitIdle s) (hsteady : ∀ e ∈ es, Steady cfg e)
    (hdrained : RmiiMac.Drained (run step s es)) :
    ∃ gs n, gs.length = (packets (collect step framed s es)).length ∧ Gapped gs ∧
      (packets (collect step framed s es) ≠ [] → 48 ≤ n) ∧
      lineSoFar s es = frames gs (packets (collect step framed s es)) ++ quiet n := by
  obtain ⟨x, hx, hsum, gs, done, fresh, g, hbetween | ⟨r, q, hwithin⟩⟩ := lines_user hT h hsteady
  · have htodo := (framed_of_drained hT h hsteady hdrained.txPacketAfifo hsum).1
    have hfresh : fresh = [] := by
      have hsplit := hbetween.split
      rw [hbetween.todo, List.flatMap_eq_nil_iff] at htodo
      refine List.eq_nil_iff_forall_not_mem.mpr fun r hr => ?_
      have hmem : r ∈ packets (collect step framed s es) := by
        rw [hsplit]
        exact List.mem_append_right _ hr
      have hbeats := map_fst_beats r
      rw [htodo r hr] at hbeats
      exact ne_nil_of_mem_packets hmem hbeats.symm
    have hdone : packets (collect step framed s es) = done := by
      rw [hbetween.split, hfresh, List.append_nil]
    rw [hdone]
    exact ⟨gs, g, hbetween.gaps.1, hbetween.gaps.2,
      hbetween.idle (by rw [hx]; exact hdrained.rmiiMacTx), hbetween.line⟩
  · have hsending := hwithin.sending
    rw [hx, hdrained.rmiiMacTx] at hsending
    cases hsending

theorem packets_framed {ms : List Packet}
    (h : collect step framed s es = (ms.map (Packet.frame cfg)).flatMap beats) :
    packets (collect step framed s es) = ms.map (Packet.frame cfg) := by
  have hne : ∀ f ∈ ms.map (Packet.frame cfg), f ≠ [] := by
    intro f hf
    obtain ⟨m, -, rfl⟩ := List.mem_map.mp hf
    exact List.cons_ne_nil _ _
  rw [h, (packets_flatMap_beats hne).1]

/-- **From the user to the line.** At every interleaving of the two clocks, in which the addresses
do not change and the packets of the user have at least 29 bytes, there are packets `ms` such that
the data packets among them are the complete ones that have been accepted from the user, every reply
among them is for a request that has been received, and the line is the beginning of one that
carries their frames, each complete, with its preamble, and 48 cycles at least between two of them.
While `tx_en` is low, the line has carried whole frames, and all of them when nothing is on its way
any more. -/
theorem line_frames_user (cfg : Config) (hT : 1 ≤ T) (h : TransmitIdle s)
    (hsteady : ∀ e ∈ es, Steady cfg e)
    (hlen : ∀ q ∈ packets (collect step accepted s es), 29 ≤ q.length) :
    ∃ ms : List Packet,
      ms.filterMap Packet.data? = packets (collect step accepted s es) ∧
      (∀ a ∈ ms.filterMap Packet.reply?,
        Arp.Requested cfg.ip (collect step received s es) a) ∧
      (∃ gs n, gs.length = ms.length ∧ Gapped gs ∧
        lineSoFar s es <+: frames gs (ms.map (Packet.frame cfg)) ++ quiet n) ∧
      ((run step s es).rmiiMacTx.txEn = false → ∃ gs done n, done <+: ms ∧
        gs.length = done.length ∧ Gapped gs ∧
        lineSoFar s es = frames gs (done.map (Packet.frame cfg)) ++ quiet n) ∧
      (RmiiMac.Drained (run step s es) → ∃ gs n, gs.length = ms.length ∧ Gapped gs ∧
        lineSoFar s es = frames gs (ms.map (Packet.frame cfg)) ++ quiet n) := by
  obtain ⟨ms, hdata, hreply, hframes, hall⟩ := framed_isPrefix h.arpFramer hsteady hlen
  obtain ⟨x, hx, -, hlines⟩ := lines_user hT h hsteady
  refine ⟨ms, hdata, hreply, ?_, fun hoff => ?_, fun hdrained => ?_⟩
  · obtain ⟨gs, n, hlength, hgapped, hl⟩ := hlines.prefix_frames
    obtain ⟨gs', n', hlength', hgapped', hl'⟩ :=
      prefix_frames_append ⟨hlength, hgapped⟩ hl hframes
    exact ⟨gs', n', by rw [hlength', List.length_map], hgapped', hl'⟩
  · obtain ⟨gs, done, fresh, n, hsplit, hlength, hgapped, -, hl⟩ :=
      hlines.of_txEn (by rw [hx]; exact hoff)
    -- the packets on the line are the first of the frames
    have hdone : done <+: ms.map (Packet.frame cfg) :=
      List.IsPrefix.trans ⟨fresh, hsplit.symm⟩ hframes
    have htake := List.prefix_iff_eq_take.mp hdone
    rw [← List.map_take] at htake
    have hle : done.length ≤ ms.length := by simpa using hdone.length_le
    refine ⟨gs, ms.take done.length, n, List.take_prefix _ _, ?_, hgapped, ?_⟩
    · rw [List.length_take, Nat.min_eq_left hle, hlength]
    · rw [← htake]
      exact hl
  · obtain ⟨gs, n, hlength, hgapped, -, hl⟩ := line_of_drained hT h hsteady hdrained
    rw [packets_framed (hall hdrained.arpFramer)] at hlength hl
    exact ⟨gs, n, by simpa using hlength, hgapped, hl⟩

/-- A packet of 29 bytes is accepted, framed and sent. -/
theorem line_frames_user_one :
    let cfg : Config := ⟨0x001122334455, 0x0A000001, 0x0A0B0C0D0E0F⟩
    let i : UserInputs :=
      { sourceMacIn := cfg.mac, ipAddressIn := cfg.ip, destinationMacIn := cfg.destinationMac }
    let data : UserInputs := { i with mTxAxisTdata := 0xAB, mTxAxisTvalid := true }
    let es : List Edge := List.replicate 43 (.user data) ++
      [.user { data with mTxAxisTlast := true }] ++ List.replicate 20 (.user i) ++
      List.replicate 260 (.phy false 0)
    ∃ ms : List Packet, ms.filterMap Packet.data? = [List.replicate 29 0xAB] ∧
      ∃ gs n, gs.length = ms.length ∧ Gapped gs ∧
        lineSoFar (idle 6 6) es <+: frames gs (ms.map (Packet.frame cfg)) ++ quiet n := by
  intro cfg i data es
  obtain ⟨ms, hdata, -, hline, -, -⟩ := line_frames_user cfg (show 1 ≤ 6 by decide)
    (idle_transmitIdle 6 6) (show ∀ e ∈ es, Steady cfg e by decide +kernel) (by decide +kernel)
  exact ⟨ms, hdata.trans (by decide +kernel), hline⟩

end RmiiEthernet.RmiiMac
