import RmiiEthernet.Mac.Peers
import RmiiEthernet.Udp.Delivery
import RmiiEthernet.Udp.Framer

/-!
# Payloads from board to board

`toplevel` joins a `udp_ip_framer` to the transmit side of the MAC and a `udp_ip_deframer` to its
receive side. Here the other ports of the two are open, and two boards have their lines crossed.

The MACs of the two boards are the two sides of `RmiiMacPeers` (`macs_step`): they carry what the
framer of the one hands over to the deframer of the other. What it hands over are datagrams, which
are packets that the MAC takes, and the deframer finds the payloads in them
(`payloads_between_boards`).
-/

namespace RmiiEthernet.UdpFramer

variable {cfg : Udp.Config} {s : State} {g : List EthernetFcs.Byte}
  {p : List (EthernetFcs.Byte × Bool)}

/-- No complete payload is left, and no part of a datagram. -/
structure Drained (s : State) : Prop where
  framerState : s.framerState = .idle
  framedTvalid : s.framedTvalid = false
  outputTvalid : s.outputTvalid = false
  packetLengthValid : s.packetLengthValid = false
  outputValidR : s.lengthFifo.outputValidR = false
  emptySig : s.lengthFifo.emptySig = true

instance (s : State) : Decidable (Drained s) :=
  decidable_of_iff (s.framerState = .idle ∧ s.framedTvalid = false ∧ s.outputTvalid = false ∧
      s.packetLengthValid = false ∧ s.lengthFifo.outputValidR = false ∧
      s.lengthFifo.emptySig = true)
    ⟨fun ⟨h₁, h₂, h₃, h₄, h₅, h₆⟩ => ⟨h₁, h₂, h₃, h₄, h₅, h₆⟩,
      fun ⟨h₁, h₂, h₃, h₄, h₅, h₆⟩ => ⟨h₁, h₂, h₃, h₄, h₅, h₆⟩⟩

theorem Owes.eq_nil (h : Owes cfg s g p) (hd : Drained s) : p = [] := by
  obtain ⟨cur, lc, w, ps, g₀, hphase, hstores, -, -, -, rfl⟩ := h
  obtain ⟨l, hl, e⟩ := hstores.length
  rw [hl.empty_iff.mp hd.emptySig, Fifo.front, hd.outputValidR] at e
  obtain ⟨-, hps⟩ := List.append_eq_nil_iff.mp e.symm
  have hw : w = [] := by
    cases hphase with
    | idle => rfl
    | busy k cur hsends =>
      have hposition := hsends.position
      rw [hd.framerState] at hposition
      cases hposition
  -- the input register does not hold the last byte of a payload
  have hreg : Sync.collect Sync.cutStep Sync.cutEmit g₀ (inputReg s) = [] := by
    unfold inputReg
    split <;> simp [hd.packetLengthValid, Sync.cutEmit]
  rw [List.map_eq_nil_iff.mp hps, hreg, hw, shown, framed, hd.outputTvalid, hd.framedTvalid]
  rfl

end RmiiEthernet.UdpFramer

namespace RmiiEthernet.UdpNode

open Sync EthernetFcs

variable {T R : ℕ}

/-! ## One board -/

/-- The registers of the framer, the MAC and the deframer. -/
structure State (T R : ℕ) where
  udpFramer : UdpFramer.State
  rmiiMac : RmiiMac.State T R
  udpDeframer : UdpDeframer.State

/-- The ports of the three in one cycle of `clk`, those between them not used. -/
structure Inputs where
  udpFramer : UdpFramer.Inputs
  rmiiMac : RmiiMac.UserInputs
  udpDeframer : UdpDeframer.Inputs

/-- A rising edge of `clk` or of the clock of the PHY. -/
inductive Edge
  | clk (i : Inputs)
  | phy (crsDv : Bool) (rxd : RmiiMacRx.DiBit)

section Wiring

variable (s : State T R) (i : Inputs)

/-- `ethernet_tx_axis`. -/
def rmiiMacInputs : RmiiMac.UserInputs :=
  { i.rmiiMac with
    mTxAxisTdata := s.udpFramer.outputTdata
    mTxAxisTvalid := s.udpFramer.outputTvalid
    mTxAxisTlast := s.udpFramer.outputTlast }

/-- `ethernet_tx_axis_tready`. -/
def ethernetTxAxisTready : Bool :=
  Arp.sAxisTready s.rmiiMac.arpFramer.arp (ArpFramer.arpInputs s.rmiiMac.arpFramer
    (RmiiMac.arpFramerInputs s.rmiiMac (rmiiMacInputs s i)))

/-- `i_udp_ip_framer`. -/
def udpFramerInputs : UdpFramer.Inputs :=
  { i.udpFramer with mAxisTready := ethernetTxAxisTready s i }

/-- `ethernet_rx_axis`. -/
def udpDeframerInputs : UdpDeframer.Inputs :=
  { i.udpDeframer with
    sAxisTdata := s.rmiiMac.rxPacketBuffer.fifoDout.1
    sAxisTvalid := RxPacketBuffer.mAxisTvalid s.rmiiMac.rxPacketBuffer
      (RmiiMac.rxPacketBufferInputs s.rmiiMac (rmiiMacInputs s i))
    sAxisTlast := s.rmiiMac.rxPacketBuffer.fifoDout.2 }

end Wiring

/-- One rising edge. -/
def step (s : State T R) : Edge → State T R
  | .clk i =>
    { udpFramer := UdpFramer.step s.udpFramer (udpFramerInputs s i)
      rmiiMac := RmiiMac.step s.rmiiMac (.user (rmiiMacInputs s i))
      udpDeframer := UdpDeframer.step s.udpDeframer (udpDeframerInputs s i) }
  | .phy crsDv rxd => { s with rmiiMac := RmiiMac.step s.rmiiMac (.phy crsDv rxd) }

/-- What the registers of the three components are set to. -/
structure Config where
  mac : RmiiMac.Config
  udp : Udp.Config
  receiver : UdpDeframer.Receiver

/-- No reset, everything enabled, the configuration at the ports, and `tlast` of the payloads low
with `tvalid`. -/
def Steady (cfg : Config) (i : Inputs) : Prop :=
  RmiiMac.Steady cfg.mac (.user i.rmiiMac) ∧ (∀ s, UdpFramer.Steady cfg.udp s i.udpFramer) ∧
    ∀ s, UdpDeframer.Listens cfg.receiver s i.udpDeframer

instance (cfg : Config) (i : Inputs) : Decidable (Steady cfg i) :=
  decidable_of_iff (RmiiMac.Steady cfg.mac (.user i.rmiiMac) ∧
      UdpFramer.Steady cfg.udp UdpFramer.cleared i.udpFramer ∧
      UdpDeframer.Listens cfg.receiver ⟨0, 0, .idle, 0, 0, false, false, 0, 0, 0⟩ i.udpDeframer)
    ⟨fun h => ⟨h.1, fun _ => h.2.1, fun _ => h.2.2⟩, fun h => ⟨h.1, h.2.1 _, h.2.2 _⟩⟩

end RmiiEthernet.UdpNode

namespace RmiiEthernet.UdpPeers

open Sync EthernetFcs UdpNode

variable {T R : ℕ}

/-! ## Two boards -/

/-- Two boards. -/
abbrev State (T R : ℕ) := Bool → UdpNode.State T R

/-- A rising edge of the clock of one of the boards, or of the clock of the line. -/
inductive Edge
  | clk (k : Bool) (i : UdpNode.Inputs)
  | line

/-- What one board gets at an edge: it hears the other one. -/
def edgesOf (k : Bool) (x : State T R) : Edge → List UdpNode.Edge
  | .clk j i => if j = k then [.clk i] else []
  | .line => [.phy (x !k).rmiiMac.rmiiMacTx.txEn (x !k).rmiiMac.rmiiMacTx.txd]

/-- One edge. -/
def step (x : State T R) (e : Edge) : State T R := fun k => run UdpNode.step (x k) (edgesOf k x e)

/-- The edges of the clock of one board. -/
def Edge.isClk (k : Bool) : Edge → Bool
  | .clk j _ => j == k
  | .line => false

/-- The edges of the clock of the line. -/
def Edge.isLine : Edge → Bool
  | .clk _ _ => false
  | .line => true

/-- No reset, and the configurations at the ports. -/
def Steady (cfg : Bool → UdpNode.Config) : Edge → Prop
  | .clk k i => UdpNode.Steady (cfg k) i
  | .line => True

instance (cfg : Bool → UdpNode.Config) (e : Edge) : Decidable (Steady cfg e) :=
  match e with
  | .clk k i => inferInstanceAs (Decidable (UdpNode.Steady (cfg k) i))
  | .line => .isTrue trivial

variable {cfg : Bool → UdpNode.Config} {k : Bool} {x : State T R} {es : List Edge}

/-! ## The MACs -/

/-- The MACs of the two boards. -/
def macs (x : State T R) : RmiiMacPeers.State T R := fun k => (x k).rmiiMac

/-- The edge of the MACs. -/
def macEdge (x : State T R) : Edge → RmiiMacPeers.Edge
  | .clk k i => .user k (rmiiMacInputs (x k) i)
  | .line => .line

/-- **The MACs of the two boards** are two MACs with crossed lines. -/
theorem macs_step (x : State T R) (e : Edge) :
    macs (step x e) = RmiiMacPeers.step (macs x) (macEdge x e) := by
  funext k
  cases e with
  | clk j i =>
    by_cases hj : j = k
    · subst hj
      simp [macs, step, edgesOf, macEdge, RmiiMacPeers.step, RmiiMacPeers.edgesOf, UdpNode.step]
    · simp [macs, step, edgesOf, macEdge, RmiiMacPeers.step, RmiiMacPeers.edgesOf, hj]
  | line => rfl

/-- The edges of the MACs in a run. -/
def macEdges (x : State T R) (es : List Edge) : List RmiiMacPeers.Edge :=
  inputs step macEdge x es

theorem run_macs (x : State T R) (es : List Edge) :
    run RmiiMacPeers.step (macs x) (macEdges x es) = macs (run step x es) :=
  run_component macs_step x es

/-- A reading of one MAC at the edges of the boards. -/
theorem collect_macs {B : Type*} (obs : RmiiMac.State T R → RmiiMac.Edge → List B) (k : Bool)
    (x : State T R) (es : List Edge) :
    collect RmiiMac.step obs (macs x k) (RmiiMacPeers.side k (macs x) (macEdges x es)) =
      collect step (fun x e => collect RmiiMac.step obs (x k).rmiiMac
        (RmiiMacPeers.edgesOf k (macs x) (macEdge x e))) x es := by
  rw [RmiiMacPeers.side, (RmiiMacPeers.clocked_side k).collect_eq, macEdges,
    collect_component macs_step]
  rfl

theorem steady_macs (hsteady : ∀ e ∈ es, Steady cfg e) :
    ∀ e ∈ macEdges x es, RmiiMacPeers.Steady (fun k => (cfg k).mac) e := by
  intro e he
  obtain ⟨js, j, ks, rfl, rfl⟩ := exists_of_mem_inputs he
  have hj := hsteady j (by simp)
  cases j with
  | clk k i => exact hj.1
  | line => trivial

theorem countP_macEdges (k : Bool) (x : State T R) (es : List Edge) :
    (macEdges x es).countP (RmiiMacPeers.Edge.isUser k) = es.countP (Edge.isClk k) :=
  countP_inputs (fun x e => by cases e <;> rfl) x es

theorem macEdges_append (x : State T R) (es fs : List Edge) :
    macEdges x (es ++ fs) = macEdges x es ++ macEdges (run step x es) fs := inputs_append x es fs

/-! ## The framer and the deframer of a board -/

/-- What the framer of a board gets at an edge. -/
def framerIn (k : Bool) (x : State T R) : Edge → List UdpFramer.Inputs
  | .clk j i => if j = k then [udpFramerInputs (x k) i] else []
  | .line => []

/-- What the deframer of a board gets at an edge. -/
def deframerIn (k : Bool) (x : State T R) : Edge → List UdpDeframer.Inputs
  | .clk j i => if j = k then [udpDeframerInputs (x k) i] else []
  | .line => []

theorem clocked_framer (k : Bool) :
    Clocked UdpFramer.step (fun x : State T R => (x k).udpFramer) step (framerIn k) := by
  intro x e
  cases e with
  | clk j i => by_cases hj : j = k <;> simp [step, edgesOf, framerIn, UdpNode.step, hj]
  | line => rfl

theorem clocked_deframer (k : Bool) :
    Clocked UdpDeframer.step (fun x : State T R => (x k).udpDeframer) step (deframerIn k) := by
  intro x e
  cases e with
  | clk j i => by_cases hj : j = k <;> simp [step, edgesOf, deframerIn, UdpNode.step, hj]
  | line => rfl

/-- The beats of payloads accepted by a board in a run. -/
def accepted (k : Bool) (x : State T R) (es : List Edge) : List (Byte × Bool) :=
  collect UdpFramer.step UdpFramer.accepted (x k).udpFramer (collect step (framerIn k) x es)

/-- The beats of payloads shown by a board in a run. -/
def shown (k : Bool) (x : State T R) (es : List Edge) : List (Byte × Bool) :=
  collect UdpDeframer.step UdpDeframer.shown (x k).udpDeframer (collect step (deframerIn k) x es)

/-- **The MAC accepts what the framer hands over.** -/
theorem taken_eq_accepted (k : Bool) (x : State T R) (es : List Edge) :
    collect UdpFramer.step UdpFramer.taken (x k).udpFramer (collect step (framerIn k) x es) =
      collect RmiiMac.step RmiiMac.accepted (macs x k)
        (RmiiMacPeers.side k (macs x) (macEdges x es)) := by
  rw [(clocked_framer k).collect_eq, collect_macs]
  congr 1
  funext x e
  cases e with
  | clk j i =>
    by_cases hj : j = k
    · subst hj
      simp only [framerIn, macEdge, RmiiMacPeers.edgesOf, if_pos]
      rfl
    · simp [framerIn, macEdge, RmiiMacPeers.edgesOf, hj]
  | line => rfl

/-- **The deframer gets what the MAC shows.** -/
theorem arrived_eq_shown (k : Bool) (x : State T R) (es : List Edge) :
    collect UdpDeframer.step UdpDeframer.arrived (x k).udpDeframer
        (collect step (deframerIn k) x es) =
      collect RmiiMac.step RmiiMac.shown (macs x k)
        (RmiiMacPeers.side k (macs x) (macEdges x es)) := by
  rw [(clocked_deframer k).collect_eq, collect_macs]
  congr 1
  funext x e
  cases e with
  | clk j i =>
    by_cases hj : j = k
    · subst hj
      simp only [deframerIn, macEdge, RmiiMacPeers.edgesOf, if_pos]
      rfl
    · simp [deframerIn, macEdge, RmiiMacPeers.edgesOf, hj]
  | line => rfl

theorem steady_framer (hsteady : ∀ e ∈ es, Steady cfg e) :
    Always UdpFramer.step (UdpFramer.Steady (cfg k).udp) (x k).udpFramer
      (collect step (framerIn k) x es) := by
  refine (clocked_framer k).always_iff x es |>.mpr ?_
  refine (always_of_forall hsteady x).mono fun x e he => ?_
  cases e with
  | clk j i =>
    by_cases hj : j = k
    · subst hj
      simp only [framerIn, if_pos, always_cons, always_nil, and_true]
      exact he.2.1 (x j).udpFramer
    · simp [framerIn, hj]
  | line => trivial

theorem listens_deframer (hsteady : ∀ e ∈ es, Steady cfg e) :
    Always UdpDeframer.step (UdpDeframer.Listens (cfg k).receiver) (x k).udpDeframer
      (collect step (deframerIn k) x es) := by
  refine (clocked_deframer k).always_iff x es |>.mpr ?_
  refine (always_of_forall hsteady x).mono fun x e he => ?_
  cases e with
  | clk j i =>
    by_cases hj : j = k
    · subst hj
      simp only [deframerIn, if_pos, always_cons, always_nil, and_true]
      exact he.2.2 (x j).udpDeframer
    · simp [deframerIn, hj]
  | line => trivial

theorem length_deframerIn (k : Bool) (x : State T R) (es : List Edge) :
    (collect step (deframerIn k) x es).length = es.countP (Edge.isClk k) := by
  induction es generalizing x with
  | nil => rfl
  | cons e es ih =>
    rw [collect_cons, List.length_append, ih, List.countP_cons, Nat.add_comm]
    cases e with
    | clk j i => by_cases hj : j = k <;> simp [deframerIn, Edge.isClk, hj]
    | line => rfl

theorem accepted_append (k : Bool) (x : State T R) (es fs : List Edge) :
    accepted k x (es ++ fs) = accepted k x es ++ accepted k (run step x es) fs := by
  rw [accepted, accepted, accepted, collect_append, collect_append, (clocked_framer k).run_eq]

theorem shown_append (k : Bool) (x : State T R) (es fs : List Edge) :
    shown k x (es ++ fs) = shown k x es ++ shown k (run step x es) fs := by
  rw [shown, shown, shown, collect_append, collect_append, (clocked_deframer k).run_eq]

/-- A beat in the output register of the deframer is shown at the next edge of its clock. -/
theorem output_isPrefix_shown (h : 1 ≤ es.countP (Edge.isClk k)) :
    UdpDeframer.output (x k).udpDeframer <+: shown k x es := by
  rw [← length_deframerIn k x es] at h
  obtain ⟨i, is, his⟩ := List.exists_cons_of_length_pos h
  rw [shown, his, collect_cons]
  exact List.prefix_append _ _

/-! ## From the one board to the other -/

/-- The states of the line of a board in a run. -/
def line (k : Bool) (x : State T R) (es : List Edge) : List (Bool × RmiiMacRx.DiBit) :=
  collect RmiiMac.step RmiiMac.line (macs x k) (RmiiMacPeers.side k (macs x) (macEdges x es))

/-- Nothing that a board has accepted completely is on its way to the line. -/
structure Drained (s : UdpNode.State T R) : Prop where
  udpFramer : UdpFramer.Drained s.udpFramer
  rmiiMac : RmiiMac.Drained s.rmiiMac

instance (s : UdpNode.State T R) : Decidable (Drained s) :=
  decidable_of_iff (UdpFramer.Drained s.udpFramer ∧ RmiiMac.Drained s.rmiiMac)
    ⟨fun h => ⟨h.1, h.2⟩, fun h => ⟨h.udpFramer, h.rmiiMac⟩⟩

/-- The payload fits into a datagram, and the datagram into the packet buffer of the other board. -/
def Fits (R : ℕ) (q : List Byte) : Prop := q.length ≤ 2047 ∧ q.length + 30 ≤ 2 ^ R

instance (R : ℕ) (q : List Byte) : Decidable (Fits R q) := inferInstanceAs (Decidable (_ ∧ _))

/-- **A connection** from the board `k` to the other one, both of them at rest: the addresses and
the port are those that the other one listens to, and the payloads fit. -/
structure Connection (cfg : Bool → UdpNode.Config) (k : Bool) (x : State T R) (es : List Edge) :
    Prop where
  depth : 1 ≤ T ∧ 6 ≤ R
  udpFramer : UdpFramer.AfterReset (x k).udpFramer
  transmit : RmiiMac.TransmitIdle (x k).rmiiMac
  receive : RmiiMac.ReceiveIdle (x !k).rmiiMac
  udpDeframer : UdpDeframer.AfterReset (x !k).udpDeframer
  steady : ∀ e ∈ es, Steady cfg e
  mac : (cfg k).mac.destinationMac = (cfg !k).mac.mac
  address : (cfg k).udp.destinationAddress = (cfg !k).receiver.address
  port : (cfg k).udp.destinationPort = (cfg !k).receiver.port
  paces : Paces 3 (Edge.isClk !k) Edge.isLine es
  fits : ∀ q ∈ packets (accepted k x es), Fits R q

section Connection

variable {fs gs : List Edge}

theorem Connection.left (h : Connection cfg k x (fs ++ gs)) : Connection cfg k x fs :=
  { h with
    steady := fun e he => h.steady e (List.mem_append_left _ he)
    paces := fun ks hks => h.paces ks (hks.trans (List.infix_append' [] fs gs))
    fits := fun q hq => h.fits q (by rw [accepted_append]; exact mem_packets_append _ hq) }

/-- What the MAC has accepted are datagrams. -/
theorem Connection.packets_accepted (h : Connection cfg k x es) :
    packets (collect RmiiMac.step RmiiMac.accepted (macs x k)
        (RmiiMacPeers.side k (macs x) (macEdges x es))) <+:
      (packets (accepted k x es)).map (Udp.datagram (cfg k).udp) := by
  rw [← taken_eq_accepted]
  exact UdpFramer.packets_taken_prefix h.udpFramer (steady_framer h.steady)
    fun q hq => (h.fits q hq).1

/-- The datagrams fit into the packet buffer. -/
theorem Connection.fits_macs (h : Connection cfg k x es) :
    ∀ q ∈ packets (collect RmiiMac.step RmiiMac.accepted (macs x k)
      (RmiiMacPeers.side k (macs x) (macEdges x es))), RmiiMacPeers.Fits R q := by
  intro f hf
  obtain ⟨q, hq, rfl⟩ := List.mem_map.mp (h.packets_accepted.subset hf)
  have hpos := List.length_pos_of_ne_nil (ne_nil_of_mem_packets hq)
  have hfits := (h.fits q hq).2
  rw [RmiiMacPeers.Fits, Udp.datagram, List.length_append, Udp.length_headers]
  omega

theorem Connection.paces_macs (h : Connection cfg k x es) :
    Paces 3 (RmiiMacPeers.Edge.isUser !k) RmiiMacPeers.Edge.isLine (macEdges x es) :=
  h.paces.inputs (fun x e => by cases e <;> rfl) (fun x e => by cases e <;> rfl) x

/-- The deframer gets the first of the datagrams. -/
theorem Connection.arrived_isPrefix (h : Connection cfg k x es) :
    collect UdpDeframer.step UdpDeframer.arrived (x !k).udpDeframer
        (collect step (deframerIn !k) x es) <+:
      (packets (accepted k x es)).flatMap fun q => beats (Udp.datagram (cfg k).udp q) := by
  rw [arrived_eq_shown, ← List.flatMap_map]
  exact (RmiiMacPeers.shown_peer_isPrefix h.depth.1 h.depth.2
    h.transmit h.receive h.mac (steady_macs h.steady) h.paces_macs h.fits_macs).trans
      (h.packets_accepted.flatMap _)

/-- The deframer listens to the address and the port of the datagrams. -/
theorem Connection.steady_deframer (h : Connection cfg k x es) :
    Always UdpDeframer.step (UdpDeframer.Steady (cfg k).udp) (x !k).udpDeframer
      (collect step (deframerIn !k) x es) :=
  (listens_deframer h.steady).mono fun _ _ hi =>
    ⟨hi.1, hi.2.1, hi.2.2.1.trans h.port.symm, hi.2.2.2.1.trans h.address.symm⟩

/-- What has arrived at the deframer, its headers taken off, has been shown but for the beat in the
output register. -/
theorem Connection.shown_append_output (h : Connection cfg k x es) :
    collect cutStep UdpDeframer.payloadBy [] (collect UdpDeframer.step UdpDeframer.arrived
        (x !k).udpDeframer (collect step (deframerIn !k) x es)) =
      shown (!k) x es ++ UdpDeframer.output (run step x es !k).udpDeframer := by
  have hrun := (UdpDeframer.follows_run h.udpDeframer h.steady_deframer
    (fun _ => ne_nil_of_mem_packets) h.arrived_isPrefix).2
  rwa [(clocked_deframer (!k)).run_eq] at hrun

/-- What the deframer has shown are the first of the payloads. -/
theorem Connection.shown_isPrefix (h : Connection cfg k x es) :
    shown (!k) x es <+: (packets (accepted k x es)).flatMap beats := by
  have hall : collect cutStep UdpDeframer.payloadBy [] ((packets (accepted k x es)).flatMap
      fun q => beats (Udp.datagram (cfg k).udp q)) = (packets (accepted k x es)).flatMap beats :=
    UdpDeframer.collect_payloadBy_datagrams fun _ => ne_nil_of_mem_packets
  rw [← hall]
  refine List.IsPrefix.trans ⟨_, h.shown_append_output.symm⟩ ?_
  exact collect_prefix _ h.arrived_isPrefix

/-- When the framer holds nothing, the MAC has accepted all the datagrams. -/
theorem Connection.packets_drained (h : Connection cfg k x es)
    (hdrained : Drained (run step x es k)) :
    packets (collect RmiiMac.step RmiiMac.accepted (macs x k)
        (RmiiMacPeers.side k (macs x) (macEdges x es))) =
      (packets (accepted k x es)).map (Udp.datagram (cfg k).udp) := by
  obtain ⟨p, hp, e⟩ := UdpFramer.owes_run h.udpFramer (steady_framer h.steady)
    fun q hq => (h.fits q hq).1
  rw [(clocked_framer k).run_eq] at hp
  rw [hp.eq_nil hdrained.udpFramer, List.append_nil, UdpFramer.datagrams, taken_eq_accepted,
    ← List.flatMap_map] at e
  rw [← e, (packets_flatMap_beats _).1]
  · rfl
  · intro f hf
    obtain ⟨q, -, rfl⟩ := List.mem_map.mp hf
    exact List.cons_ne_nil _ _

/-- All the datagrams have arrived when the line has been quiet. -/
theorem Connection.arrived_eq (h : Connection cfg k x (fs ++ gs))
    (hdrained : Drained (run step x fs k))
    (hquiet : ∀ d ∈ line k (run step x fs) gs, d.1 = false)
    (hcount : 2 ^ R + 6 ≤ gs.countP (Edge.isClk !k)) :
    collect UdpDeframer.step UdpDeframer.arrived (x !k).udpDeframer
        (collect step (deframerIn !k) x (fs ++ gs)) =
      (packets (accepted k x fs)).flatMap fun q => beats (Udp.datagram (cfg k).udp q) := by
  have hsteady := steady_macs (x := x) h.steady
  have hpaces := h.paces_macs
  have hfits := h.fits_macs
  rw [macEdges_append] at hsteady hpaces hfits
  rw [arrived_eq_shown, macEdges_append,
    RmiiMacPeers.shown_peer_eq h.depth.1 h.depth.2 h.transmit
      h.receive h.mac hsteady hpaces hfits (by rw [run_macs]; exact hdrained.rmiiMac)
      (by rw [run_macs]; exact hquiet) (by rwa [countP_macEdges]),
    h.left.packets_drained hdrained, List.flatMap_map]

/-- All the payloads have been shown when the line has been quiet. -/
theorem Connection.shown_eq (h : Connection cfg k x (fs ++ gs))
    (hdrained : Drained (run step x fs k))
    (hquiet : ∀ d ∈ line k (run step x fs) gs, d.1 = false)
    (hcount : 2 ^ R + 7 ≤ gs.countP (Edge.isClk !k)) :
    shown (!k) x (fs ++ gs) = (packets (accepted k x fs)).flatMap beats := by
  have hall := h.shown_append_output
  rw [h.arrived_eq hdrained hquiet (by omega),
    UdpDeframer.collect_payloadBy_datagrams fun _ => ne_nil_of_mem_packets] at hall
  -- the last beat is in the output register before the last edge
  obtain ⟨gs₁, gs₂, rfl, hcount₁, hcount₂⟩ := exists_append_countP (a := 2 ^ R + 6) (b := 1) hcount
  rw [← List.append_assoc] at h hall ⊢
  have hbefore := h.left.shown_append_output
  have hquiet₁ : ∀ d ∈ line k (run step x fs) gs₁, d.1 = false := by
    intro d hd
    refine hquiet d ?_
    rw [line, macEdges_append, RmiiMacPeers.side_append, collect_append]
    exact List.mem_append_left _ hd
  rw [h.left.arrived_eq hdrained hquiet₁ hcount₁,
    UdpDeframer.collect_payloadBy_datagrams fun _ => ne_nil_of_mem_packets] at hbefore
  refine List.IsPrefix.eq_of_length_le ⟨_, hall.symm⟩ (List.IsPrefix.length_le ?_)
  rw [hbefore, shown_append (!k) x (fs ++ gs₁), List.prefix_append_right_inj]
  exact output_isPrefix_shown hcount₂

end Connection

/-- **From board to board.** Two boards with crossed lines, at every interleaving of their clocks
with the clock of the line, in which the configuration does not change and the clock of the
receiving board is not left out at four edges of the line in a row. If the other board listens to
the addresses and the port that the one sends to, and the payloads fit into a datagram and the
datagrams into the packet buffer, then the other board shows the payloads that the one has
accepted, in order and nothing else, whatever is sent by `arp` and in the other direction. All those
accepted until nothing was on its way to the line are shown when the line has been quiet for
`2 ^ R + 7` edges of the other clock. -/
theorem payloads_between_boards (h : Connection cfg k x es) :
    shown (!k) x es <+: (packets (accepted k x es)).flatMap beats ∧
      ∀ fs gs, es = fs ++ gs → Drained (run step x fs k) →
        (∀ d ∈ line k (run step x fs) gs, d.1 = false) →
        2 ^ R + 7 ≤ gs.countP (Edge.isClk !k) →
        shown (!k) x es = (packets (accepted k x fs)).flatMap beats := by
  refine ⟨h.shown_isPrefix, ?_⟩
  rintro fs gs rfl hdrained hquiet hcount
  exact h.shown_eq hdrained hquiet hcount

/-- The ports of a board to which nothing is offered. -/
def quietInputs (cfg : UdpNode.Config) : UdpNode.Inputs where
  udpFramer :=
    { sourcePortIn := cfg.udp.sourcePort
      destinationPortIn := cfg.udp.destinationPort
      srcAddressIn := cfg.udp.srcAddress
      destinationAddressIn := cfg.udp.destinationAddress
      ipChecksumInitIn := cfg.udp.ipChecksumInit }
  rmiiMac :=
    { sourceMacIn := cfg.mac.mac
      ipAddressIn := cfg.mac.ip
      destinationMacIn := cfg.mac.destinationMac }
  udpDeframer :=
    { destinationPortIn := cfg.receiver.port
      destinationAddressIn := cfg.receiver.address
      broadcastAddressIn := cfg.receiver.broadcast }

/-- A byte of a payload is offered. -/
def payloadInputs (cfg : UdpNode.Config) (b : Byte) (last : Bool) : UdpNode.Inputs :=
  { quietInputs cfg with
    udpFramer :=
      { (quietInputs cfg).udpFramer with
        sAxisTdata := b
        sAxisTvalid := true
        sAxisTlast := last } }

/-- The MAC addresses of the two boards. -/
def benchMac (k : Bool) : BitVec 48 := if k then 0x001122334455 else 0x0A0B0C0D0E0F

/-- Their IP addresses. -/
def benchIp (k : Bool) : BitVec 32 := if k then 0x0A000001 else 0x0A000002

/-- Two boards in one network, which use the same port. -/
def benchConfig (k : Bool) : UdpNode.Config where
  mac := ⟨benchMac k, benchIp k, benchMac !k⟩
  udp := ⟨1000, 2000, benchIp k, benchIp !k, 0x1234⟩
  receiver := ⟨2000, benchIp k, 0x0A0000FF⟩

/-- A board at rest. -/
def bench : UdpNode.State 6 6 := ⟨UdpFramer.cleared, RmiiMac.idle 6 6, UdpDeframer.cleared⟩

/-- The one board accepts a payload of two bytes, and the line, three times as fast as the clock of
the other board, carries its frame. -/
def benchPayload : List Edge :=
  [.clk true (payloadInputs (benchConfig true) 0xAA false),
    .clk true (payloadInputs (benchConfig true) 0xBB true)] ++
  List.replicate 80 (.clk true (quietInputs (benchConfig true))) ++
  (List.replicate 116 [.line, .line, .line, .clk false (quietInputs (benchConfig false))]).flatten

/-- The line is quiet. -/
def benchQuiet : List Edge :=
  (List.replicate 24 [.line, .line, .line, .clk false (quietInputs (benchConfig false)),
    .clk false (quietInputs (benchConfig false)),
    .clk false (quietInputs (benchConfig false))]).flatten

/-- The payload comes to the other board. -/
theorem payloads_between_boards_two :
    shown false (fun _ => bench) (benchPayload ++ benchQuiet) = beats [0xAA, 0xBB] := by
  have hpackets : packets (accepted true (fun _ => bench) (benchPayload ++ benchQuiet)) =
      [[0xAA, 0xBB]] := by decide +kernel
  have hbefore : packets (accepted true (fun _ => bench) benchPayload) = [[0xAA, 0xBB]] := by
    decide +kernel
  have hconnection : Connection benchConfig true (fun _ => bench) (benchPayload ++ benchQuiet) :=
    { depth := by decide
      udpFramer := UdpFramer.cleared_afterReset
      transmit := RmiiMac.idle_transmitIdle 6 6
      receive := RmiiMac.idle_receiveIdle 6 6
      udpDeframer := UdpDeframer.cleared_afterReset
      steady := by decide +kernel
      mac := rfl
      address := rfl
      port := rfl
      paces := by decide +kernel
      fits := by rw [hpackets]; decide }
  obtain ⟨-, hdelivers⟩ := payloads_between_boards hconnection
  have hall := hdelivers benchPayload benchQuiet rfl (by decide +kernel) (by decide +kernel)
    (by decide +kernel)
  rw [hbefore] at hall
  simpa using hall

end RmiiEthernet.UdpPeers
