import RmiiEthernet.Udp.Peers

/-!
# The echo of a board

`toplevel` sends back the payloads that it receives: `rx_fifo_fifo` stands between its
`udp_ip_deframer` and its `udp_ip_framer`. Nothing looks at `full` of this FIFO, and while it is
empty `tlast` of the row behind the last word is at the framer.

Neither matters on the first round through the memory, and then a host whose line is crossed with
that of `toplevel` gets back what it has sent (`payloads_return`).
-/

namespace RmiiEthernet.Toplevel

open Sync EthernetFcs

variable {T R : ℕ}

/-! ## The board -/

/-- The registers of `toplevel`. -/
structure State (T R : ℕ) where
  node : UdpNode.State T R
  rxFifo : Fifo.State 10 (Byte × Bool)

section Wiring

variable (s : State T R) (i : UdpNode.Inputs)

/-- `udp_tx_axis`. -/
def nodeInputs : UdpNode.Inputs :=
  { i with
    udpFramer :=
      { i.udpFramer with
        sAxisTdata := s.rxFifo.dataOutR.1
        sAxisTvalid := !s.rxFifo.empty
        sAxisTlast := s.rxFifo.dataOutR.2 } }

/-- The ports of `rx_fifo_fifo`. The reset is not used. -/
def rxFifoInputs : Fifo.Inputs (Byte × Bool) where
  sreset := false
  writeData := (s.node.udpDeframer.deframedTdata, s.node.udpDeframer.deframedTlast)
  writeEn := s.node.udpDeframer.deframedTvalid
  readEn := UdpFramer.ready s.node.udpFramer

end Wiring

/-- One rising edge. -/
def step (s : State T R) : UdpNode.Edge → State T R
  | .clk i =>
    { node := UdpNode.step s.node (.clk (nodeInputs s i))
      rxFifo := Fifo.step s.rxFifo (rxFifoInputs s) }
  | .phy crsDv rxd => { s with node := UdpNode.step s.node (.phy crsDv rxd) }

variable {s : State T R} {i : UdpNode.Inputs}

/-- While the empty FIFO shows no `tlast`, the framer gets what it can stand. -/
theorem steady_nodeInputs {cfg : UdpNode.Config} (hi : UdpNode.Steady cfg i)
    (hblank : s.rxFifo.outputValidR = false → s.rxFifo.dataOutR = (0, false)) :
    UdpNode.Steady cfg (nodeInputs s i) := by
  refine ⟨hi.1, fun t => ?_, hi.2.2⟩
  obtain ⟨hreset, hen, -, hports⟩ := hi.2.1 t
  refine ⟨hreset, hen, fun hv => ?_, hports⟩
  have hvalid : s.rxFifo.outputValidR = false := by simpa [nodeInputs, Fifo.State.empty] using hv
  simp [nodeInputs, hblank hvalid]

end RmiiEthernet.Toplevel

namespace RmiiEthernet.EchoPeers

open Sync EthernetFcs Toplevel

variable {T R : ℕ}

/-! ## A host and a board -/

/-- A host, whose payload ports are open, and a `toplevel`. -/
structure State (T R : ℕ) where
  host : UdpNode.State T R
  echo : Toplevel.State T R

/-- The two without the FIFO; the host is `true`. -/
def boards (x : State T R) : UdpPeers.State T R
  | true => x.host
  | false => x.echo.node

/-- One edge. -/
def step (x : State T R) (e : UdpPeers.Edge) : State T R where
  host := run UdpNode.step x.host (UdpPeers.edgesOf true (boards x) e)
  echo := run Toplevel.step x.echo (UdpPeers.edgesOf false (boards x) e)

/-- The edge of the two without the FIFO. -/
def boardEdge (x : State T R) : UdpPeers.Edge → UdpPeers.Edge
  | .clk true i => .clk true i
  | .clk false i => .clk false (nodeInputs x.echo i)
  | .line => .line

/-- What the FIFO gets at an edge. -/
def fifoIn (x : State T R) : UdpPeers.Edge → List (Fifo.Inputs (Byte × Bool))
  | .clk true _ => []
  | .clk false _ => [rxFifoInputs x.echo]
  | .line => []

variable {cfg : Bool → UdpNode.Config} {x : State T R} {es : List UdpPeers.Edge}

theorem boards_step (x : State T R) (e : UdpPeers.Edge) :
    boards (step x e) = UdpPeers.step (boards x) (boardEdge x e) := by
  funext k
  cases e with
  | clk j i => cases j <;> cases k <;> rfl
  | line => cases k <;> rfl

/-- The edges of the two without the FIFO in a run. -/
def boardEdges (x : State T R) (es : List UdpPeers.Edge) : List UdpPeers.Edge :=
  inputs step boardEdge x es

theorem run_boards (x : State T R) (es : List UdpPeers.Edge) :
    run UdpPeers.step (boards x) (boardEdges x es) = boards (run step x es) :=
  run_component boards_step x es

theorem boardEdges_append (x : State T R) (es fs : List UdpPeers.Edge) :
    boardEdges x (es ++ fs) = boardEdges x es ++ boardEdges (run step x es) fs :=
  inputs_append x es fs

/-- Nothing is on the line from one of the two. -/
def Quiet (k : Bool) (x : State T R) (e : UdpPeers.Edge) : Prop :=
  e.isLine = true → (boards x k).rmiiMac.rmiiMacTx.txEn = false

instance (k : Bool) (x : State T R) (e : UdpPeers.Edge) : Decidable (Quiet k x e) := by
  unfold Quiet
  infer_instance

theorem forall_mem_line_iff {k : Bool} :
    (∀ d ∈ UdpPeers.line k (boards x) (boardEdges x es), d.1 = false) ↔
      Always step (Quiet k) x es := by
  rw [UdpPeers.line, UdpPeers.collect_macs, boardEdges, collect_component boards_step,
    forall_mem_collect_iff]
  refine always_congr_of_split fun js e ks _ => ?_
  cases e with
  | clk j i =>
    cases j <;> cases k <;>
      simp [boardEdge, UdpPeers.macEdge, RmiiMacPeers.edgesOf, RmiiMac.line, Quiet,
        UdpPeers.Edge.isLine]
  | line =>
    simp [boardEdge, UdpPeers.macEdge, RmiiMacPeers.edgesOf, RmiiMac.line, Quiet,
      UdpPeers.Edge.isLine, UdpPeers.macs]

theorem isClk_boardEdge (k : Bool) (x : State T R) (e : UdpPeers.Edge) :
    (boardEdge x e).isClk k = e.isClk k := by
  cases e with
  | clk j i => cases j <;> rfl
  | line => rfl

theorem isLine_boardEdge (x : State T R) (e : UdpPeers.Edge) :
    (boardEdge x e).isLine = e.isLine := by
  cases e with
  | clk j i => cases j <;> rfl
  | line => rfl

theorem countP_boardEdges (k : Bool) (x : State T R) (es : List UdpPeers.Edge) :
    (boardEdges x es).countP (UdpPeers.Edge.isClk k) = es.countP (UdpPeers.Edge.isClk k) :=
  countP_inputs (isClk_boardEdge k) x es

theorem clocked_rxFifo :
    Clocked Fifo.step (fun x : State T R => x.echo.rxFifo) step fifoIn := by
  intro x e
  cases e with
  | clk j i => cases j <;> rfl
  | line => rfl

/-! ## What passes -/

section Beats

variable (x : State T R) (es : List UdpPeers.Edge)

/-- The beats that the host sends. -/
def sent : List (Byte × Bool) := UdpPeers.accepted true (boards x) (boardEdges x es)

/-- The beats that `toplevel` receives. -/
def received : List (Byte × Bool) := UdpPeers.shown false (boards x) (boardEdges x es)

/-- The beats that `toplevel` sends. -/
def answered : List (Byte × Bool) := UdpPeers.accepted false (boards x) (boardEdges x es)

/-- The beats that come back to the host. -/
def returned : List (Byte × Bool) := UdpPeers.shown true (boards x) (boardEdges x es)

/-- What is received is offered to the FIFO. -/
theorem received_eq :
    received x es = collect Fifo.step Fifo.offered x.echo.rxFifo (collect step fifoIn x es) := by
  rw [received, UdpPeers.shown, (UdpPeers.clocked_deframer false).collect_eq, boardEdges,
    collect_component boards_step, clocked_rxFifo.collect_eq]
  congr 1
  funext x e
  cases e with
  | clk j i => cases j <;> rfl
  | line => rfl

/-- What is sent back is taken from the FIFO. -/
theorem answered_eq :
    answered x es = collect Fifo.step Fifo.taken x.echo.rxFifo (collect step fifoIn x es) := by
  rw [answered, UdpPeers.accepted, (UdpPeers.clocked_framer false).collect_eq, boardEdges,
    collect_component boards_step, clocked_rxFifo.collect_eq]
  congr 1
  funext x e
  cases e with
  | clk j i =>
    cases j with
    | true => rfl
    | false =>
      change UdpFramer.accepted x.echo.node.udpFramer (UdpNode.udpFramerInputs x.echo.node
        (nodeInputs x.echo i)) ++ [] = Fifo.taken x.echo.rxFifo (rxFifoInputs x.echo) ++ []
      rw [List.append_nil, List.append_nil]
      cases hv : x.echo.rxFifo.outputValidR <;>
        simp [UdpFramer.accepted, Fifo.taken, Fifo.front, rxFifoInputs, UdpNode.udpFramerInputs,
          nodeInputs, Fifo.State.empty, hv]
  | line => rfl

end Beats

theorem unreset_fifoIn (x : State T R) (es : List UdpPeers.Edge) :
    ∀ i ∈ collect step fifoIn x es, i.sreset = false := by
  intro i hi
  obtain ⟨fs, e, gs, -, hmem⟩ := mem_collect_iff.mp hi
  cases e with
  | clk j i => cases j <;> simp_all [fifoIn, rxFifoInputs]
  | line => cases hmem

/-! ## There and back -/

/-- **A round trip** from the host to `toplevel` and back, everything at rest and the FIFO as it
is powered up: each of the two listens to the addresses and the port that the other one sends to,
the payloads fit, and together they have less bytes than the FIFO has rows. -/
structure RoundTrip (cfg : Bool → UdpNode.Config) (x : State T R) (es : List UdpPeers.Edge) :
    Prop where
  depth : 1 ≤ T ∧ 6 ≤ R
  udpFramer : ∀ k, UdpFramer.AfterReset (boards x k).udpFramer
  transmit : ∀ k, RmiiMac.TransmitIdle (boards x k).rmiiMac
  receive : ∀ k, RmiiMac.ReceiveIdle (boards x k).rmiiMac
  udpDeframer : ∀ k, UdpDeframer.AfterReset (boards x k).udpDeframer
  rxFifo : Fifo.PowerUp x.echo.rxFifo
  rows : ∀ p, x.echo.rxFifo.ram p = (0, false)
  register : x.echo.rxFifo.dataOutR = (0, false)
  steady : ∀ e ∈ es, UdpPeers.Steady cfg e
  mac : ∀ k, (cfg k).mac.destinationMac = (cfg !k).mac.mac
  address : ∀ k, (cfg k).udp.destinationAddress = (cfg !k).receiver.address
  port : ∀ k, (cfg k).udp.destinationPort = (cfg !k).receiver.port
  paces : ∀ k, Paces 3 (UdpPeers.Edge.isClk k) UdpPeers.Edge.isLine es
  fits : ∀ q ∈ packets (sent x es), UdpPeers.Fits R q
  bytes : (sent x es).length < 2 ^ 10

section RoundTrip

variable {fs gs hs : List UdpPeers.Edge}

theorem sent_append (x : State T R) (fs gs : List UdpPeers.Edge) :
    sent x (fs ++ gs) = sent x fs ++ sent (run step x fs) gs := by
  rw [sent, boardEdges_append, UdpPeers.accepted_append, run_boards]
  rfl

theorem RoundTrip.left (h : RoundTrip cfg x (fs ++ gs)) : RoundTrip cfg x fs :=
  { h with
    steady := fun e he => h.steady e (List.mem_append_left _ he)
    paces := fun k => Paces.of_infix (h.paces k) (List.prefix_append _ _).isInfix
    fits := fun q hq => h.fits q (by rw [sent_append]; exact mem_packets_append _ hq)
    bytes := by
      have hbytes := h.bytes
      rw [sent_append, List.length_append] at hbytes
      omega }

theorem RoundTrip.paces_boards (h : RoundTrip cfg x es) (k : Bool) :
    Paces 3 (UdpPeers.Edge.isClk k) UdpPeers.Edge.isLine (boardEdges x es) :=
  (h.paces k).inputs (isClk_boardEdge k) isLine_boardEdge x

/-- The way to `toplevel`. -/
theorem RoundTrip.there (h : RoundTrip cfg x es)
    (hsteady : ∀ e ∈ boardEdges x es, UdpPeers.Steady cfg e) :
    UdpPeers.Connection cfg true (boards x) (boardEdges x es) where
  depth := h.depth
  udpFramer := h.udpFramer true
  transmit := h.transmit true
  receive := h.receive false
  udpDeframer := h.udpDeframer false
  steady := hsteady
  mac := h.mac true
  address := h.address true
  port := h.port true
  paces := h.paces_boards false
  fits := h.fits

/-- The FIFO does not get more bytes than the host has sent. -/
theorem RoundTrip.firstRound (h : RoundTrip cfg x es)
    (hsteady : ∀ e ∈ boardEdges x es, UdpPeers.Steady cfg e) :
    Fifo.FirstRound (0, false) (run step x es).echo.rxFifo (received x es).length ∧
      collect Fifo.step Fifo.written x.echo.rxFifo (collect step fifoIn x es) = received x es := by
  have hle : (received x es).length ≤ (sent x es).length := by
    conv_rhs => rw [← beats_packets (sent x es)]
    rw [List.length_append]
    exact (h.there hsteady).shown_isPrefix.length_le.trans (Nat.le_add_right _ _)
  have hbytes := h.bytes
  obtain ⟨hround, hwritten⟩ := (h.rxFifo.firstRound h.rows h.register).run (unreset_fifoIn x es)
    (by rw [← received_eq]; omega)
  rw [← received_eq, Nat.zero_add, clocked_rxFifo.run_eq] at hround
  exact ⟨hround, hwritten.trans (received_eq x es).symm⟩

/-- The framer of `toplevel` gets no `tlast` without a byte. -/
theorem RoundTrip.steady_boards (h : RoundTrip cfg x es) :
    ∀ e ∈ boardEdges x es, UdpPeers.Steady cfg e := by
  induction es using List.reverseRecOn with
  | nil => simp [boardEdges, inputs]
  | append_singleton es e ih =>
    have hbefore := ih h.left
    have hround := (h.left.firstRound hbefore).1
    have he := h.steady e (by simp)
    rw [boardEdges_append]
    refine List.forall_mem_append.mpr ⟨hbefore, fun f hf => ?_⟩
    obtain rfl := List.mem_singleton.mp hf
    cases e with
    | clk k i =>
      cases k with
      | true => exact he
      | false => exact steady_nodeInputs he hround.register
    | line => trivial

/-- What is sent back are the first of the beats received, and all of them when the FIFO is
empty. -/
theorem RoundTrip.answered_isPrefix (h : RoundTrip cfg x es) :
    answered x es <+: received x es ∧
      ((run step x es).echo.rxFifo.outputValidR = false →
        (run step x es).echo.rxFifo.emptySig = true → answered x es = received x es) := by
  obtain ⟨hholds, hfront⟩ := h.rxFifo.holds
  obtain ⟨m, hm, e⟩ := hholds.content_run (unreset_fifoIn x es)
  rw [hfront, (h.firstRound h.steady_boards).2, ← answered_eq, List.nil_append,
    List.nil_append] at e
  rw [clocked_rxFifo.run_eq] at hm e
  refine ⟨⟨_, e.symm⟩, fun hv he => ?_⟩
  rw [e, hm.empty_iff.mp he, Fifo.front, hv]
  simp

/-- The packets that are sent back are the first of those that the host has sent. -/
theorem RoundTrip.packets_answered (h : RoundTrip cfg x es) :
    packets (answered x es) <+: packets (sent x es) := by
  have hpackets := packets_prefix
    (h.answered_isPrefix.1.trans (h.there h.steady_boards).shown_isPrefix)
  rwa [(packets_flatMap_beats fun _ => ne_nil_of_mem_packets).1] at hpackets

/-- The way back. -/
theorem RoundTrip.back (h : RoundTrip cfg x es) :
    UdpPeers.Connection cfg false (boards x) (boardEdges x es) where
  depth := h.depth
  udpFramer := h.udpFramer false
  transmit := h.transmit false
  receive := h.receive true
  udpDeframer := h.udpDeframer true
  steady := h.steady_boards
  mac := h.mac false
  address := h.address false
  port := h.port false
  paces := h.paces_boards true
  fits := fun q hq => h.fits q (h.packets_answered.subset hq)

/-- The FIFO is empty, and what has been taken from it is on the line. -/
structure Answered (x : State T R) : Prop where
  outputValidR : x.echo.rxFifo.outputValidR = false
  emptySig : x.echo.rxFifo.emptySig = true
  node : UdpPeers.Drained x.echo.node

instance (x : State T R) : Decidable (Answered x) :=
  decidable_of_iff (x.echo.rxFifo.outputValidR = false ∧ x.echo.rxFifo.emptySig = true ∧
      UdpPeers.Drained x.echo.node)
    ⟨fun h => ⟨h.1, h.2.1, h.2.2⟩, fun h => ⟨h.outputValidR, h.emptySig, h.node⟩⟩

/-- All the payloads are back when both lines have been quiet. -/
theorem RoundTrip.returned_eq (h : RoundTrip cfg x (fs ++ gs ++ hs))
    (hdrained : UdpPeers.Drained (run step x fs).host)
    (hquiet : ∀ d ∈ UdpPeers.line true (boards (run step x fs)) (boardEdges (run step x fs) gs),
      d.1 = false)
    (hcount : 2 ^ R + 7 ≤ gs.countP (UdpPeers.Edge.isClk false))
    (hanswered : Answered (run step x (fs ++ gs)))
    (hback : ∀ d ∈ UdpPeers.line false (boards (run step x (fs ++ gs)))
      (boardEdges (run step x (fs ++ gs)) hs), d.1 = false)
    (hlast : 2 ^ R + 7 ≤ hs.countP (UdpPeers.Edge.isClk true)) :
    returned x (fs ++ gs ++ hs) = (packets (sent x fs)).flatMap beats := by
  have hthere := h.left.there h.left.steady_boards
  have hreturn := h.back
  rw [boardEdges_append] at hthere hreturn
  have hreceived : received x (fs ++ gs) = (packets (sent x fs)).flatMap beats := by
    rw [received, boardEdges_append]
    exact hthere.shown_eq (by rw [run_boards]; exact hdrained) (by rw [run_boards]; exact hquiet)
      (by rwa [countP_boardEdges])
  have hshown : returned x (fs ++ gs ++ hs) = (packets (answered x (fs ++ gs))).flatMap beats := by
    rw [returned, boardEdges_append]
    exact hreturn.shown_eq (by rw [run_boards]; exact hanswered.node)
      (by rw [run_boards]; exact hback) (by rwa [countP_boardEdges])
  rw [hshown, h.left.answered_isPrefix.2 hanswered.outputValidR hanswered.emptySig, hreceived,
    (packets_flatMap_beats fun _ => ne_nil_of_mem_packets).1]

/-- **The payloads come back.** A host and a `toplevel` with crossed lines, at every interleaving of
their clocks with the clock of the line, in which the configuration does not change and neither of
their clocks is left out at four edges of the line in a row. What comes back to the host are the
payloads that it has sent, in order and nothing else. All those that it has sent until nothing was
on its way to the line are back when its line has been quiet for `2 ^ R + 7` edges of the clock of
`toplevel`, nothing has been left to send back there, and then the other line has been quiet for as
many edges of the clock of the host. -/
theorem payloads_return (h : RoundTrip cfg x es) :
    returned x es <+: (packets (sent x es)).flatMap beats ∧
      ∀ fs gs hs, es = fs ++ gs ++ hs →
        UdpPeers.Drained (run step x fs).host →
        (∀ d ∈ UdpPeers.line true (boards (run step x fs)) (boardEdges (run step x fs) gs),
          d.1 = false) →
        2 ^ R + 7 ≤ gs.countP (UdpPeers.Edge.isClk false) →
        Answered (run step x (fs ++ gs)) →
        (∀ d ∈ UdpPeers.line false (boards (run step x (fs ++ gs)))
          (boardEdges (run step x (fs ++ gs)) hs), d.1 = false) →
        2 ^ R + 7 ≤ hs.countP (UdpPeers.Edge.isClk true) →
        returned x es = (packets (sent x fs)).flatMap beats := by
  refine ⟨h.back.shown_isPrefix.trans (h.packets_answered.flatMap _), ?_⟩
  rintro fs gs hs rfl hdrained hquiet hcount hanswered hback hlast
  exact h.returned_eq hdrained hquiet hcount hanswered hback hlast

/-! A payload of two bytes -/

open UdpPeers

/-- Both boards at rest, and the FIFO as it is powered up. -/
def benchState : State 6 6 := ⟨bench, bench, ⟨fun _ => (0, false), 0, 0, (0, false), false⟩⟩

/-- Three edges of the line and one of each board. -/
def benchRound : List Edge :=
  [.line, .line, .line, .clk false (quietInputs (benchConfig false)),
    .clk true (quietInputs (benchConfig true))]

/-- The host sends the payload. -/
def benchThere : List Edge :=
  [.clk true (payloadInputs (benchConfig true) 0xAA false),
    .clk true (payloadInputs (benchConfig true) 0xBB true)] ++
  List.replicate 80 (.clk true (quietInputs (benchConfig true))) ++
  (List.replicate 116 benchRound).flatten

/-- `toplevel` sends it back. -/
def benchBack : List Edge :=
  List.replicate 100 (.clk false (quietInputs (benchConfig false))) ++
  (List.replicate 117 benchRound).flatten

/-- Both lines are quiet. -/
def benchSilence : List Edge :=
  (List.replicate 24 (benchRound ++
    List.replicate 2 (.clk true (quietInputs (benchConfig true))))).flatten

/-- What one evaluation of the run shows. -/
theorem run_bench :
    Always step (Quiet false) benchState benchThere ∧
      UdpPeers.Drained (run step benchState benchThere).host ∧
      Always step (Quiet true) (run step benchState benchThere) benchBack ∧
      Answered (run step (run step benchState benchThere) benchBack) ∧
      Always step (Quiet false) (run step (run step benchState benchThere) benchBack)
        benchSilence := by
  -- The line from `toplevel` on the way there is there to look at each state in turn: states that
  -- stand within one another are too deep to evaluate.
  decide +kernel

/-- The payload is back. -/
theorem payloads_return_two :
    returned benchState (benchThere ++ benchBack ++ benchSilence) = beats [0xAA, 0xBB] := by
  have hboards : boards benchState = fun _ => bench := by
    funext k
    cases k <;> rfl
  have hsent : sent benchState (benchThere ++ benchBack ++ benchSilence) = beats [0xAA, 0xBB] := by
    decide +kernel
  have hpackets : packets (sent benchState (benchThere ++ benchBack ++ benchSilence)) =
      [[0xAA, 0xBB]] := by rw [hsent]; decide
  have hbefore : packets (sent benchState benchThere) = [[0xAA, 0xBB]] := by decide +kernel
  have htrip : RoundTrip benchConfig benchState (benchThere ++ benchBack ++ benchSilence) :=
    { depth := by decide
      udpFramer := fun k => by rw [hboards]; exact UdpFramer.cleared_afterReset
      transmit := fun k => by rw [hboards]; exact RmiiMac.idle_transmitIdle 6 6
      receive := fun k => by rw [hboards]; exact RmiiMac.idle_receiveIdle 6 6
      udpDeframer := fun k => by rw [hboards]; exact UdpDeframer.cleared_afterReset
      rxFifo := ⟨rfl, rfl, rfl⟩
      rows := fun _ => rfl
      register := rfl
      steady := by decide +kernel
      mac := by decide
      address := by decide
      port := by decide
      paces := by decide +kernel
      fits := by rw [hpackets]; decide
      bytes := by rw [hsent]; decide }
  obtain ⟨hdrained, hquiet, hanswered, hback⟩ := And.right run_bench
  rw [← run_append] at hanswered hback
  have hall := (payloads_return htrip).2 benchThere benchBack benchSilence rfl hdrained
    (forall_mem_line_iff.mpr hquiet) (by decide +kernel) hanswered
    (forall_mem_line_iff.mpr hback) (by decide +kernel)
  rw [hbefore] at hall
  simpa using hall

end RoundTrip

end RmiiEthernet.EchoPeers
