import RmiiEthernet.Ethernet.Deframer
import RmiiEthernet.Ethernet.Framer
import RmiiEthernet.Udp.Deframer
import RmiiEthernet.Udp.Framer

/-!
# The whole stack, back to back

A `udp_ip_framer` feeds an `ethernet_framer`; every beat taken from it is presented to an
`ethernet_deframer`, whose output goes to a `udp_ip_deframer`. The receiving side is configured for
the addresses and the port that the sending side sends to.

Each circuit is a component of the stack: what it does in a run of the stack is what it does alone
on the inputs that the wiring gives it (`run_component`, `collect_component`). So the streams
between the circuits follow one from another, each the first part of what it has to be:

* the beats from the first circuit, datagrams, make a source for the second (`feeds_udp`);
* the beats taken from the second are frames with an idle cycle behind each (`allows_line`);
* the beats from the third are the datagrams again, and those from the last the payloads
  (`shown_prefix_payloads`).

`potential` shows that everything comes through when the sink is ready often enough.
-/

namespace RmiiEthernet.Stack

open Sync EthernetFcs Udp EthernetFrame

/-! ## The circuit -/

/-- The configuration: that of the sender of datagrams, the hardware addresses, and what the
receiver does not depend on. -/
structure Config where
  udp : Udp.Config
  sourceMac : BitVec 48
  destinationMac : BitVec 48
  filterMac : BitVec 48
  broadcastAddress : BitVec 32

/-- The ports in one cycle: the source of the payloads, and the sink of the frames. -/
structure Inputs where
  sAxisTdata : Byte := 0
  sAxisTvalid : Bool := false
  sAxisTlast : Bool := false
  mAxisTready : Bool := true

/-- The four circuits. -/
structure State where
  udpFramer : UdpFramer.State
  ethernetFramer : EthernetFramer.State
  ethernetDeframer : EthernetDeframer.State
  udpDeframer : UdpDeframer.State

section Wiring

variable (cfg : Config) (s : State) (i : Inputs)

/-- `i_ethernet_framer`: its source is `udp_ip_framer`. -/
def ethernetFramerInputs : EthernetFramer.Inputs where
  sourceMacIn := cfg.sourceMac
  destinationMacIn := cfg.destinationMac
  sAxisTdata := s.udpFramer.outputTdata
  sAxisTuser := false
  sAxisTvalid := s.udpFramer.outputTvalid
  sAxisTlast := s.udpFramer.outputTlast
  mAxisTready := i.mAxisTready

/-- `i_udp_ip_framer`: the payloads come from outside. -/
def udpFramerInputs : UdpFramer.Inputs where
  sourcePortIn := cfg.udp.sourcePort
  destinationPortIn := cfg.udp.destinationPort
  srcAddressIn := cfg.udp.srcAddress
  destinationAddressIn := cfg.udp.destinationAddress
  ipChecksumInitIn := cfg.udp.ipChecksumInit
  sAxisTdata := i.sAxisTdata
  sAxisTvalid := i.sAxisTvalid
  sAxisTlast := i.sAxisTlast
  mAxisTready := EthernetFramer.sAxisTready s.ethernetFramer (ethernetFramerInputs cfg s i)

/-- A beat is presented to the deframer in the cycle in which it is taken from the framer. -/
def ethernetDeframerInputs : EthernetDeframer.Inputs where
  filterSourceMacIn := false
  sourceMacIn := cfg.filterMac
  destinationMacIn := cfg.destinationMac
  sAxisTdata := s.ethernetFramer.outputTdata
  sAxisTvalid := s.ethernetFramer.outputTvalid && i.mAxisTready
  sAxisTlast := s.ethernetFramer.outputTlast

/-- `i_udp_ip_deframer`: its source is `ethernet_deframer`. -/
def udpDeframerInputs : UdpDeframer.Inputs where
  destinationPortIn := cfg.udp.destinationPort
  destinationAddressIn := cfg.udp.destinationAddress
  broadcastAddressIn := cfg.broadcastAddress
  sAxisTdata := s.ethernetDeframer.mAxisTdata
  sAxisTvalid := s.ethernetDeframer.mAxisTvalid
  sAxisTlast := s.ethernetDeframer.mAxisTlast

/-- One clock edge of the four circuits. -/
def step : State where
  udpFramer := UdpFramer.step s.udpFramer (udpFramerInputs cfg s i)
  ethernetFramer := EthernetFramer.step s.ethernetFramer (ethernetFramerInputs cfg s i)
  ethernetDeframer := EthernetDeframer.step s.ethernetDeframer (ethernetDeframerInputs cfg s i)
  udpDeframer := UdpDeframer.step s.udpDeframer (udpDeframerInputs cfg s)

end Wiring

/-- All four circuits have been reset. -/
structure AfterReset (s : State) : Prop where
  udpFramer : UdpFramer.AfterReset s.udpFramer
  ethernetFramer : EthernetFramer.AfterReset s.ethernetFramer
  ethernetDeframer : EthernetDeframer.AfterReset s.ethernetDeframer
  udpDeframer : UdpDeframer.AfterReset s.udpDeframer

/-! ## What happens at the ports -/

/-- The beat offered in a cycle. -/
def offer (i : Inputs) : Option (Byte × Bool) :=
  if i.sAxisTvalid then some (i.sAxisTdata, i.sAxisTlast) else none

/-- The handshake is that of `udp_ip_framer`. -/
def sAxisTready (s : State) (_ : Inputs) : Bool := UdpFramer.ready s.udpFramer

/-- The beat that comes out of the stack in a cycle. -/
def shown (s : State) (_ : Inputs) : List (Byte × Bool) := UdpDeframer.output s.udpDeframer

/-- The beat that the `ethernet_framer` takes from the `udp_ip_framer` in a cycle. -/
def sent (cfg : Config) (s : State) (i : Inputs) : List (Byte × Bool) :=
  UdpFramer.taken s.udpFramer (udpFramerInputs cfg s i)

/-- The beat of a frame that goes over the line in a cycle. -/
def carried (cfg : Config) (s : State) (i : Inputs) : List (Byte × Bool) :=
  EthernetFramer.taken s.ethernetFramer (ethernetFramerInputs cfg s i)

/-- A run of the stack whose source has the payloads `ps` to send. -/
structure Fed (cfg : Config) (ps : List (List Byte)) (s : State) (is : List Inputs) : Prop where
  afterReset : AfterReset s
  lengths : ∀ q ∈ ps, 1 ≤ q.length ∧ q.length ≤ 2047
  low : ∀ i ∈ is, i.sAxisTvalid = false → i.sAxisTlast = false
  feeds : Feeds false (step cfg) offer sAxisTready (ps.flatMap beats) s is

/-! ## The sender of datagrams -/

section Sender

variable {cfg : Config} {ps : List (List Byte)} {s : State} {is js : List Inputs}

theorem Fed.left (h : Fed cfg ps s (is ++ js)) : Fed cfg ps s is :=
  ⟨h.afterReset, h.lengths, fun i hi => h.low i (List.mem_append_left _ hi),
    ((always_append _ _ _).mp h.feeds).1⟩

theorem Fed.ne_nil (h : Fed cfg ps s is) : ∀ q ∈ ps, q ≠ [] :=
  fun q hq => List.ne_nil_of_length_pos (h.lengths q hq).1

theorem Fed.packets_prefix (h : Fed cfg ps s is) :
    packets (collect (step cfg) (handed offer sAxisTready) s is) <+: ps := by
  have := Sync.packets_prefix ⟨_, handed_append_unsent h.feeds⟩
  rwa [(packets_flatMap_beats h.ne_nil).1] at this

theorem collect_accepted (cfg : Config) (s : State) (is : List Inputs) :
    collect UdpFramer.step UdpFramer.accepted s.udpFramer
        (inputs (step cfg) (udpFramerInputs cfg) s is) =
      collect (step cfg) (handed offer sAxisTready) s is := by
  rw [collect_component (π := State.udpFramer) fun _ _ => rfl, UdpFramer.accepted_eq_handed]
  rfl

/-- What the `udp_ip_framer` has handed over, and what it owes. -/
theorem Fed.owes (h : Fed cfg ps s is) :
    ∃ p, UdpFramer.Owes cfg.udp (run (step cfg) s is).udpFramer
        (openPacket (collect (step cfg) (handed offer sAxisTready) s is)) p ∧
      UdpFramer.datagrams cfg.udp (packets (collect (step cfg) (handed offer sAxisTready) s is)) =
        collect (step cfg) (sent cfg) s is ++ p := by
  have hπ : ∀ x i, (step cfg x i).udpFramer =
    UdpFramer.step x.udpFramer (udpFramerInputs cfg x i) := fun _ _ => rfl
  have hsteady : Always UdpFramer.step (UdpFramer.Steady cfg.udp) s.udpFramer
      (inputs (step cfg) (udpFramerInputs cfg) s is) :=
    (always_component (π := State.udpFramer) hπ s is).mpr
      ((always_of_forall h.low s).mono fun _ _ hi => ⟨rfl, rfl, hi, rfl, rfl, rfl, rfl, rfl⟩)
  have hlen : ∀ q ∈ packets (collect (step cfg) (handed offer sAxisTready) s is),
      q.length ≤ 2047 := fun q hq => (h.lengths q (h.packets_prefix.subset hq)).2
  obtain ⟨p, hp, e⟩ := UdpFramer.owes_run h.afterReset.udpFramer hsteady
    (by rwa [collect_accepted])
  rw [collect_accepted] at hp e
  rw [run_component (π := State.udpFramer) hπ] at hp
  rw [collect_component (π := State.udpFramer) hπ] at e
  exact ⟨p, hp, e⟩

/-- The beats handed over and the one in the output register are the first of the datagrams. -/
theorem Fed.sent_prefix (h : Fed cfg ps s is) :
    collect (step cfg) (sent cfg) s is ++ UdpFramer.shown (run (step cfg) s is).udpFramer <+:
      UdpFramer.datagrams cfg.udp ps := by
  obtain ⟨p, hp, e⟩ := h.owes
  have hshown := (List.prefix_append_right_inj (collect (step cfg) (sent cfg) s is)).mpr
    hp.shown_prefix
  rw [← e] at hshown
  exact hshown.trans (h.packets_prefix.flatMap _)

end Sender

/-! ## The frames on the line -/

section Frames

variable {cfg : Config} {ps : List (List Byte)} {s : State} {is js ks : List Inputs} {i j : Inputs}

/-- A beat between the framers: `tuser` is low. -/
def untagged (b : Byte × Bool) : (Byte × Bool) × Bool := ((b.1, false), b.2)

/-- The packet that the `ethernet_framer` takes for a payload. -/
def packet (cfg : Config) (q : List Byte) : List (Byte × Bool) :=
  (datagram cfg.udp q).map (·, false)

/-- The frame for a payload. -/
def frameOf (cfg : Config) (q : List Byte) : List Byte :=
  frame cfg.destinationMac cfg.sourceMac false (datagram cfg.udp q)

theorem flatMap_beats_packet (cfg : Config) (ps : List (List Byte)) :
    (ps.map (packet cfg)).flatMap beats = (UdpFramer.datagrams cfg.udp ps).map untagged := by
  rw [List.flatMap_map, UdpFramer.datagrams, List.map_flatMap]
  congr 1
  funext q
  exact beats_map _ _

theorem ethernetFramer_step (cfg : Config) (x : State) (i : Inputs) :
    (step cfg x i).ethernetFramer =
      EthernetFramer.step x.ethernetFramer (ethernetFramerInputs cfg x i) := rfl

theorem handed_eq_sent (x : State) (i : Inputs) :
    handed EthernetFramer.offer EthernetFramer.sAxisTready x.ethernetFramer
        (ethernetFramerInputs cfg x i) =
      (sent cfg x i).map untagged := by
  cases hv : x.udpFramer.outputTvalid <;>
    cases hr : EthernetFramer.sAxisTready x.ethernetFramer (ethernetFramerInputs cfg x i) <;>
    simp [handed, EthernetFramer.offer, sent, UdpFramer.taken, udpFramerInputs, hr] <;>
    simp [ethernetFramerInputs, hv, untagged]

theorem collect_handed (cfg : Config) (s : State) (is : List Inputs) :
    collect (step cfg) (fun x i => handed EthernetFramer.offer EthernetFramer.sAxisTready
        x.ethernetFramer (ethernetFramerInputs cfg x i)) s is =
      (collect (step cfg) (sent cfg) s is).map untagged := by
  induction is generalizing s with
  | nil => rfl
  | cons i is ih => rw [collect_cons, collect_cons, ih, handed_eq_sent, List.map_append]

/-- **The `udp_ip_framer` is a source that follows the handshake**, with the datagrams to send. -/
theorem Fed.feeds_udp (h : Fed cfg ps s is) :
    Feeds false EthernetFramer.step EthernetFramer.offer EthernetFramer.sAxisTready
      ((ps.map (packet cfg)).flatMap beats) s.ethernetFramer
      (inputs (step cfg) (ethernetFramerInputs cfg) s is) := by
  rw [flatMap_beats_packet]
  refine feeds_component (π := State.ethernetFramer) (ethernetFramer_step cfg) ?_ ?_
  · rintro js i ks rfl
    have hoffer : (EthernetFramer.offer (ethernetFramerInputs cfg (run (step cfg) s js) i)).toList =
        (UdpFramer.shown (run (step cfg) s js).udpFramer).map untagged := by
      cases hv : (run (step cfg) s js).udpFramer.outputTvalid <;>
        simp [EthernetFramer.offer, ethernetFramerInputs, UdpFramer.shown, hv, untagged]
    rw [collect_handed, hoffer, ← List.map_append]
    exact h.left.sent_prefix.map untagged
  · intro x i _ j hready hvalid
    have hv : x.udpFramer.outputTvalid = true := by
      by_contra hv
      simp [EthernetFramer.offer, ethernetFramerInputs, hv] at hvalid
    -- the output register stands still
    have hout : UdpFramer.outputReady x.udpFramer (udpFramerInputs cfg x i) = false := by
      simp [UdpFramer.outputReady, udpFramerInputs, hready, hv]
    obtain ⟨h₁, h₂, h₃⟩ : (step cfg x i).udpFramer.outputTvalid = true ∧
        (step cfg x i).udpFramer.outputTdata = x.udpFramer.outputTdata ∧
        (step cfg x i).udpFramer.outputTlast = x.udpFramer.outputTlast := by
      simp only [step, UdpFramer.step, hout, hv]
      exact ⟨rfl, rfl, rfl⟩
    simp [EthernetFramer.offer, ethernetFramerInputs, h₁, h₂, h₃, hv]

theorem frameBeats_packet (cfg : Config) (q : List Byte) :
    EthernetFramer.frameBeats cfg.sourceMac cfg.destinationMac (packet cfg q) =
      beats (frameOf cfg q) := by
  have htype : (packet cfg q).head?.any Prod.snd = false := rfl
  have hbytes : (packet cfg q).map Prod.fst = datagram cfg.udp q := by
    simp [packet, Function.comp_def]
  rw [EthernetFramer.frameBeats, htype, hbytes, frameOf]

/-- The destination address is the configured one, so the frames are those of the payloads. -/
theorem zipWith_frameBeats (cfg : Config) {dsts : List (BitVec 48)}
    (hdsts : ∀ d ∈ dsts, d = cfg.destinationMac) (ps : List (List Byte)) :
    (List.zipWith (EthernetFramer.frameBeats cfg.sourceMac) dsts (ps.map (packet cfg))).flatten =
      ((ps.take dsts.length).map (frameOf cfg)).flatMap beats := by
  induction dsts generalizing ps with
  | nil => rfl
  | cons d dsts ih =>
    cases ps with
    | nil => rfl
    | cons q ps =>
      obtain rfl := hdsts d (by simp)
      have hrest := ih (fun d hd => hdsts d (by simp [hd])) ps
      simp [frameBeats_packet, hrest]

theorem sampled_eq (cfg : Config) (s : State) (is : List Inputs) :
    ∀ d ∈ collect EthernetFramer.step EthernetFramer.sampled s.ethernetFramer
      (inputs (step cfg) (ethernetFramerInputs cfg) s is), d = cfg.destinationMac := by
  rw [collect_component (π := State.ethernetFramer) (ethernetFramer_step cfg)]
  induction is generalizing s with
  | nil => simp
  | cons i is ih =>
    intro d hd
    rw [collect_cons, List.mem_append] at hd
    rcases hd with hd | hd
    · unfold EthernetFramer.sampled at hd
      split at hd
      · exact List.mem_singleton.mp hd
      · cases hd
    · exact ih _ d hd

theorem packet_ne_nil (cfg : Config) (ps : List (List Byte)) : [] ∉ ps.map (packet cfg) := by
  intro hmem
  obtain ⟨q, -, hq⟩ := List.mem_map.mp hmem
  cases hq

theorem steady_ethernetFramer (cfg : Config) (s : State) (is : List Inputs) :
    Always EthernetFramer.step (EthernetFramer.Steady cfg.sourceMac) s.ethernetFramer
      (inputs (step cfg) (ethernetFramerInputs cfg) s is) :=
  (always_component (π := State.ethernetFramer) (ethernetFramer_step cfg) s is).mpr
    ((always_of_forall (P := fun _ => True) (by simp) s).mono fun _ _ _ => ⟨rfl, rfl⟩)

theorem collect_carried (cfg : Config) (s : State) (is : List Inputs) :
    collect EthernetFramer.step EthernetFramer.taken s.ethernetFramer
        (inputs (step cfg) (ethernetFramerInputs cfg) s is) =
      collect (step cfg) (carried cfg) s is :=
  collect_component (π := State.ethernetFramer) (ethernetFramer_step cfg) s is

/-- **The beats on the line** are the first of the frames for the payloads. -/
theorem Fed.carried_prefix (h : Fed cfg ps s is) :
    collect (step cfg) (carried cfg) s is <+: (ps.map (frameOf cfg)).flatMap beats := by
  obtain ⟨p, -, -, e⟩ := EthernetFramer.pending_run h.afterReset.ethernetFramer
    (packet_ne_nil cfg ps) (steady_ethernetFramer cfg s is) h.feeds_udp
  rw [zipWith_frameBeats cfg (sampled_eq cfg s is), collect_carried] at e
  apply List.IsPrefix.trans ⟨p, e.symm⟩
  rw [List.flatMap_map, List.flatMap_map]
  exact (List.take_prefix _ ps).flatMap _

end Frames

/-! ## The receiver of frames -/

section Receiver

variable {cfg : Config} {ps : List (List Byte)} {s : State} {is js ks : List Inputs} {i j : Inputs}

theorem frameOf_ne_nil (cfg : Config) (ps : List (List Byte)) :
    ∀ f ∈ ps.map (frameOf cfg), f ≠ [] := by
  intro f hf
  obtain ⟨q, -, rfl⟩ := List.mem_map.mp hf
  exact List.cons_ne_nil _ _

/-- Behind the last byte of a frame there is an idle cycle. -/
theorem Fed.gap (h : Fed cfg ps s is) :
    EthernetFramer.Gap (run (step cfg) s is).ethernetFramer := by
  induction is using List.reverseRecOn with
  | nil => exact EthernetFramer.gap_afterReset h.afterReset.ethernetFramer
  | append_singleton is i ih =>
    obtain ⟨p, hp, -⟩ := EthernetFramer.pending_run h.afterReset.ethernetFramer
      (packet_ne_nil cfg ps) (steady_ethernetFramer cfg s is) h.left.feeds_udp
    have hπ : ∀ x i, (EthernetFramer.fed x i).1 = EthernetFramer.step x.1 i := fun _ _ => rfl
    have hstate := run_component (π := State.ethernetFramer) (ethernetFramer_step cfg) s is
    rw [← run_proj hπ (s.ethernetFramer, ⟨(ps.map (packet cfg)).flatMap beats, false⟩)] at hstate
    have hgap := ih h.left
    rw [← hstate] at hgap
    have hstep := hp.gap_step (i := ethernetFramerInputs cfg (run (step cfg) s is) i) hgap rfl
    rw [hstate] at hstep
    rw [run_append]
    exact hstep

theorem ethernetDeframer_step (cfg : Config) (x : State) (i : Inputs) :
    (step cfg x i).ethernetDeframer =
      EthernetDeframer.step x.ethernetDeframer (ethernetDeframerInputs cfg x i) := rfl

/-- What arrives at the `ethernet_deframer` is what is taken from the `ethernet_framer`. -/
theorem collect_arrived (cfg : Config) (s : State) (is : List Inputs) :
    collect EthernetDeframer.step EthernetDeframer.arrived s.ethernetDeframer
        (inputs (step cfg) (ethernetDeframerInputs cfg) s is) =
      collect (step cfg) (carried cfg) s is := by
  rw [collect_component (π := State.ethernetDeframer) (ethernetDeframer_step cfg)]
  rfl

/-- The bytes of the frame on the line, and the idle cycle behind it. -/
theorem Fed.line (h : Fed cfg ps s is) :
    let l := run EthernetDeframer.Line.step ⟨[], false⟩
      (inputs (step cfg) (ethernetDeframerInputs cfg) s is)
    l.frame = openPacket (collect (step cfg) (carried cfg) s is) ∧
      (l.ended = true → (run (step cfg) s is).ethernetFramer.outputTvalid = false) := by
  induction is using List.reverseRecOn with
  | nil => exact ⟨rfl, by simp [inputs]⟩
  | append_singleton is i ih =>
    obtain ⟨hframe, -⟩ := ih h.left
    have hgap := h.left.gap
    rw [inputs_append, run_append, run_append, collect_append, openPacket_append, inputs_cons,
      run_cons, run_cons, collect_cons]
    generalize run EthernetDeframer.Line.step ⟨[], false⟩
      (inputs (step cfg) (ethernetDeframerInputs cfg) s is) = l at *
    generalize run (step cfg) s is = x at *
    rw [← hframe]
    cases hv : x.ethernetFramer.outputTvalid && i.mAxisTready with
    | false =>
      have hcarried : carried cfg x i = [] := by
        simp [carried, EthernetFramer.taken, ethernetFramerInputs, hv]
      simp [hcarried, EthernetDeframer.Line.step, ethernetDeframerInputs, hv, inputs]
    | true =>
      have hcarried : carried cfg x i =
          [(x.ethernetFramer.outputTdata, x.ethernetFramer.outputTlast)] := by
        simp [carried, EthernetFramer.taken, ethernetFramerInputs, hv]
      simp only [hcarried, EthernetDeframer.Line.step, ethernetDeframerInputs, hv, inputs,
        collect_nil, run_nil, run_cons, List.append_nil, if_true]
      rw [Bool.and_eq_true] at hv
      exact ⟨trivial, fun hlast => hgap.outputTvalid_step rfl hv.2 hlast⟩

/-- **The line is one that the `ethernet_deframer` allows.** -/
theorem Fed.allows_line (h : Fed cfg ps s is) :
    Always EthernetDeframer.Line.step EthernetDeframer.Line.Allows ⟨[], false⟩
      (inputs (step cfg) (ethernetDeframerInputs cfg) s is) := by
  induction is using List.reverseRecOn with
  | nil => trivial
  | append_singleton is i ih =>
    obtain ⟨hframe, hended⟩ := h.left.line
    have hpre := h.carried_prefix
    rw [inputs_append, always_append]
    refine ⟨ih h.left, ?_, trivial⟩
    rw [collect_concat] at hpre
    generalize run EthernetDeframer.Line.step ⟨[], false⟩
      (inputs (step cfg) (ethernetDeframerInputs cfg) s is) = l at *
    generalize run (step cfg) s is = x at *
    intro hv
    have hcarried : carried cfg x i =
        [(x.ethernetFramer.outputTdata, x.ethernetFramer.outputTlast)] := if_pos hv
    refine ⟨?_, fun hlast => ?_⟩
    · by_contra hl
      simp [ethernetDeframerInputs, hended (by simpa using hl)] at hv
    · rw [hcarried] at hpre
      obtain ⟨f, hf, -, hwhole⟩ := exists_mem_of_concat_prefix (frameOf_ne_nil cfg ps) hpre
      obtain ⟨q, -, rfl⟩ := List.mem_map.mp hf
      rw [hframe]
      change 15 ≤ (openPacket _ ++ [x.ethernetFramer.outputTdata]).length
      rw [hwhole hlast, frameOf, length_frame, datagram, List.length_append, length_headers]
      omega

/-- The configuration of the `ethernet_deframer`: frames for the destination of the sender. -/
def deframerConfig (cfg : Config) : EthernetDeframer.Config where
  filterSourceMac := false
  sourceMac := cfg.filterMac
  destinationMac := cfg.destinationMac

theorem steady_ethernetDeframer (cfg : Config) (s : State) (is : List Inputs) :
    Always EthernetDeframer.step (EthernetDeframer.Steady (deframerConfig cfg)) s.ethernetDeframer
      (inputs (step cfg) (ethernetDeframerInputs cfg) s is) :=
  (always_component (π := State.ethernetDeframer) (ethernetDeframer_step cfg) s is).mpr
    ((always_of_forall (P := fun _ => True) (by simp) s).mono
      fun _ _ _ => ⟨rfl, rfl, rfl, rfl, rfl⟩)

/-- A frame of the sender is one that the receiver wants. -/
theorem matches_frameOf (cfg : Config) (q : List Byte) :
    EthernetDeframer.Matches (deframerConfig cfg) (frameOf cfg q) :=
  ⟨.inl rfl, nofun, rfl⟩

theorem payloadOf_frame (dst src : BitVec 48) (m : List Byte) :
    EthernetDeframer.payloadOf (frame dst src false m) = m := by
  rw [EthernetDeframer.payloadOf, length_frame, frame, List.append_assoc,
    List.drop_left' (length_header _ _ _), Nat.add_sub_cancel, List.take_left]

/-- A beat of the `ethernet_deframer` with `tuser` low. -/
def good (b : Byte × Bool) : EthernetDeframer.OutBeat := (b.1, b.2, false)

theorem deframed_frameOf (cfg : Config) (q : List Byte) :
    EthernetDeframer.deframed (deframerConfig cfg) (frameOf cfg q) =
      (beats (datagram cfg.udp q)).map good := by
  have hchecked : Checked (frameOf cfg q) := checked_frame _ _ _ _
  rw [EthernetDeframer.deframed, if_pos (matches_frameOf cfg q), frameOf, payloadOf_frame]
  rw [frameOf] at hchecked
  simp [hchecked, good]

/-- What comes of all the frames: the datagrams. -/
theorem expected_frames (cfg : Config) (ps : List (List Byte)) :
    EthernetDeframer.expected (deframerConfig cfg) ((ps.map (frameOf cfg)).flatMap beats) =
      (UdpFramer.datagrams cfg.udp ps).map good := by
  obtain ⟨h₁, h₂⟩ := packets_flatMap_beats (frameOf_ne_nil cfg ps)
  have hnone : EthernetDeframer.deframing (deframerConfig cfg) [] = [] := by
    simp [EthernetDeframer.deframing, EthernetDeframer.payloadOf]
  rw [EthernetDeframer.expected, h₁, h₂, hnone, List.append_nil, List.flatMap_map,
    UdpFramer.datagrams, List.map_flatMap]
  congr 1
  funext q
  exact deframed_frameOf cfg q

/-- **The beats from the `ethernet_deframer`**, those shown and the one in the output register, are
the first of the datagrams, with `tuser` low. -/
theorem Fed.deframed_prefix (h : Fed cfg ps s is) :
    collect (step cfg) (fun x _ => EthernetDeframer.output x.ethernetDeframer) s is ++
        EthernetDeframer.output (run (step cfg) s is).ethernetDeframer <+:
      (UdpFramer.datagrams cfg.udp ps).map good := by
  obtain ⟨p, ⟨-, -, hp⟩, e⟩ := EthernetDeframer.owes_run h.afterReset.ethernetDeframer
    (steady_ethernetDeframer cfg s is) h.allows_line
  have hπ : ∀ x i, (EthernetDeframer.lined x i).1 = EthernetDeframer.step x.1 i := fun _ _ => rfl
  rw [run_proj hπ, run_component (π := State.ethernetDeframer) (ethernetDeframer_step cfg)] at hp
  rw [collect_arrived, collect_component (π := State.ethernetDeframer) (ethernetDeframer_step cfg),
    hp, ← List.append_assoc] at e
  have hall : EthernetDeframer.expected (deframerConfig cfg)
      (collect (step cfg) (carried cfg) s is) <+: (UdpFramer.datagrams cfg.udp ps).map good := by
    rw [← expected_frames, EthernetDeframer.expected, EthernetDeframer.expected,
      ← EthernetDeframer.collect_deframedBy, ← EthernetDeframer.collect_deframedBy]
    exact collect_prefix _ h.carried_prefix
  exact List.IsPrefix.trans ⟨_, e.symm⟩ hall

/-- No frame is dropped. -/
theorem Fed.droppedPacketCountU (h : Fed cfg ps s is) :
    (run (step cfg) s is).ethernetDeframer.droppedPacketCountU = 0 := by
  have hcount := EthernetDeframer.droppedPacketCountU_run h.afterReset.ethernetDeframer
    (steady_ethernetDeframer cfg s is) h.allows_line
  rw [run_component (π := State.ethernetDeframer) (ethernetDeframer_step cfg), collect_arrived]
    at hcount
  rw [hcount, List.countP_eq_zero.mpr]
  · rfl
  · intro f hf
    have hmem := (Sync.packets_prefix h.carried_prefix).subset hf
    rw [(packets_flatMap_beats (frameOf_ne_nil cfg ps)).1] at hmem
    obtain ⟨q, -, rfl⟩ := List.mem_map.mp hmem
    simpa using matches_frameOf cfg q

end Receiver

/-! ## The payloads -/

section Payloads

variable {cfg : Config} {ps : List (List Byte)} {s : State} {is : List Inputs}

/-- A beat without `tuser`. -/
def forget (b : EthernetDeframer.OutBeat) : Byte × Bool := (b.1, b.2.1)

/-- The beats that have come from the `ethernet_deframer`. -/
abbrev deframedBeats (cfg : Config) (s : State) (is : List Inputs) :
    List EthernetDeframer.OutBeat :=
  collect (step cfg) (fun x _ => EthernetDeframer.output x.ethernetDeframer) s is

theorem udpDeframer_step (cfg : Config) (x : State) (i : Inputs) : (step cfg x i).udpDeframer =
    UdpDeframer.step x.udpDeframer (udpDeframerInputs cfg x) := rfl

theorem collect_udpDeframer_arrived (cfg : Config) (s : State) (is : List Inputs) :
    collect UdpDeframer.step UdpDeframer.arrived s.udpDeframer
        (inputs (step cfg) (fun x _ => udpDeframerInputs cfg x) s is) =
      (deframedBeats cfg s is).map forget := by
  rw [collect_component (π := State.udpDeframer) (udpDeframer_step cfg)]
  induction is generalizing s with
  | nil => rfl
  | cons i is ih =>
    have hone : UdpDeframer.arrived s.udpDeframer (udpDeframerInputs cfg s) =
        (EthernetDeframer.output s.ethernetDeframer).map forget := by
      cases hv : s.ethernetDeframer.mAxisTvalid <;>
        simp [UdpDeframer.arrived, udpDeframerInputs, EthernetDeframer.output, hv, forget]
    rw [collect_cons, ih, hone, deframedBeats, deframedBeats, collect_cons, List.map_append]

/-- The `udp_ip_deframer` in a run of the stack. -/
theorem Fed.follows (h : Fed cfg ps s is) :
    UdpDeframer.Follows cfg.udp (run (step cfg) s is).udpDeframer
        (openPacket ((deframedBeats cfg s is).map forget)) ∧
      collect cutStep UdpDeframer.payloadBy [] ((deframedBeats cfg s is).map forget) =
        collect (step cfg) shown s is ++ UdpDeframer.output (run (step cfg) s is).udpDeframer := by
  have hsteady : Always UdpDeframer.step (UdpDeframer.Steady cfg.udp) s.udpDeframer
      (inputs (step cfg) (fun x _ => udpDeframerInputs cfg x) s is) :=
    (always_component (π := State.udpDeframer) (udpDeframer_step cfg) s is).mpr
      ((always_of_forall (P := fun _ => True) (by simp) s).mono fun _ _ _ => ⟨rfl, rfl, rfl, rfl⟩)
  have hpre := ((List.prefix_append _ _).trans h.deframed_prefix).map forget
  rw [List.map_map, show forget ∘ good = id from rfl, List.map_id] at hpre
  have hrun := UdpDeframer.follows_run h.afterReset.udpDeframer hsteady h.ne_nil
    (by rwa [collect_udpDeframer_arrived])
  rw [run_component (π := State.udpDeframer) (udpDeframer_step cfg), collect_udpDeframer_arrived,
    collect_component (π := State.udpDeframer) (udpDeframer_step cfg)] at hrun
  exact hrun

/-- What has come out of the stack, with the beat in the output register. -/
theorem Fed.shown_prefix (h : Fed cfg ps s is) :
    collect (step cfg) shown s is ++ UdpDeframer.output (run (step cfg) s is).udpDeframer <+:
      ps.flatMap beats := by
  have hpre := ((List.prefix_append _ _).trans h.deframed_prefix).map forget
  rw [List.map_map, show forget ∘ good = id from rfl, List.map_id] at hpre
  have hall : collect cutStep UdpDeframer.payloadBy [] ((deframedBeats cfg s is).map forget) <+:
      collect cutStep UdpDeframer.payloadBy [] (UdpFramer.datagrams cfg.udp ps) :=
    collect_prefix _ hpre
  rw [h.follows.2, UdpFramer.datagrams, UdpDeframer.collect_payloadBy_datagrams h.ne_nil] at hall
  exact hall

/-- No beat comes from the `ethernet_deframer` with `tuser`. -/
theorem Fed.mAxisTuser (h : Fed cfg ps s is)
    (hv : (run (step cfg) s is).ethernetDeframer.mAxisTvalid = true) :
    (run (step cfg) s is).ethernetDeframer.mAxisTuser = false := by
  have hmem := h.deframed_prefix.subset (List.mem_append_right _
    (by rw [EthernetDeframer.output, if_pos hv]; exact List.mem_singleton_self _))
  obtain ⟨b, -, hb⟩ := List.mem_map.mp hmem
  exact (congrArg (fun c => c.2.2) hb).symm

end Payloads

/-! ## Progress -/

section Progress

variable {cfg : Config} {ps : List (List Byte)} {s : State} {is js ks : List Inputs} {i : Inputs}
  {g : List Byte} {p : List (Byte × Bool)}

/-- How many cycles, at most, the `ethernet_framer` is away from taking a beat. -/
def distance (f : EthernetFramer.FramerState) : ℕ :=
  match f.position, f with
  | some k, _ => 15 - k
  | none, .fcs1 => 20
  | none, .fcs2 => 19
  | none, .fcs3 => 18
  | none, .fcs4 => 17
  | none, _ => 16

theorem distance_le (f : EthernetFramer.FramerState) : distance f ≤ 20 := by
  cases f <;> decide

theorem distance_pos (f : EthernetFramer.FramerState) : 0 < distance f := by
  cases f <;> decide

/-- A cycle in which the `ethernet_framer` takes nothing brings it nearer to taking a beat that is
offered, unless its own output is stalled. -/
theorem distance_step {f : EthernetFramer.State} {a : EthernetFramer.Inputs}
    (hreset : a.reset = false) (henable : a.enableIn = true)
    (hnone : (EthernetFramer.sAxisTready f a && a.sAxisTvalid) = false) :
    distance (EthernetFramer.step f a).framerState ≤
      distance f.framerState -
        (if EthernetFramer.outputReady f a && a.sAxisTvalid then 1 else 0) := by
  cases hready : EthernetFramer.outputReady f a with
  | false =>
    rw [EthernetFramer.step_of_stalled hready hreset]
    simp
  | true =>
    rw [EthernetFramer.step_of_ready hready hreset]
    cases hv : a.sAxisTvalid <;> cases hf : f.framerState <;>
      simp [EthernetFramer.advance, EthernetFramer.State.frame, EthernetFramer.State.pause,
        EthernetFramer.sAxisTready, hf, hv, henable, hready, distance,
        EthernetFramer.FramerState.position] at hnone ⊢

/-- An upper bound for the cycles with `m_axis_tready_in` until the `ethernet_framer` has taken the
beats `p`. -/
def potential (s : State) (p : List (Byte × Bool)) : ℕ :=
  if p = [] then 0
  else 32 * p.length + UdpFramer.rank s.udpFramer + distance s.ethernetFramer.framerState

/-- Nothing is at the output of the `udp_ip_framer`: it comes nearer to sending. -/
theorem potential_step_empty (h : UdpFramer.Owes cfg.udp s.udpFramer g p) (hp : p ≠ [])
    (hsteady : UdpFramer.Steady cfg.udp s.udpFramer (udpFramerInputs cfg s i))
    (hout : s.udpFramer.outputTvalid = false) :
    potential (step cfg s i) p ≤ potential s p - (if i.mAxisTready then 1 else 0) := by
  have hlt : UdpFramer.rank (step cfg s i).udpFramer < _ := h.rank_step hp hsteady hout
  have hle := distance_step (f := s.ethernetFramer) (a := ethernetFramerInputs cfg s i) rfl rfl
    (by simp [ethernetFramerInputs, hout])
  rw [potential, potential, if_neg hp, if_neg hp, ethernetFramer_step]
  split <;> split at hle <;> omega

/-- A beat is refused: the `ethernet_framer` comes nearer to taking it. -/
theorem potential_step_refused (hp : p ≠ []) (hout : s.udpFramer.outputTvalid = true)
    (hr : EthernetFramer.sAxisTready s.ethernetFramer (ethernetFramerInputs cfg s i) = false) :
    potential (step cfg s i) p ≤ potential s p - (if i.mAxisTready then 1 else 0) := by
  have hle := distance_step (f := s.ethernetFramer) (a := ethernetFramerInputs cfg s i) rfl rfl
    (by rw [hr]; rfl)
  have hpos := distance_pos s.ethernetFramer.framerState
  have hzero : UdpFramer.rank s.udpFramer = 0 := by simp [UdpFramer.rank, hout]
  have hkeep : UdpFramer.rank (step cfg s i).udpFramer = 0 := by
    simp only [UdpFramer.rank, step, UdpFramer.step, UdpFramer.outputReady, udpFramerInputs, hr,
      hout]
    rfl
  rw [potential, potential, if_neg hp, if_neg hp, ethernetFramer_step, hkeep, hzero]
  cases ht : i.mAxisTready with
  | false =>
    simp only [Bool.false_eq_true, if_false]
    split at hle <;> omega
  | true =>
    have hmoves : (EthernetFramer.outputReady s.ethernetFramer (ethernetFramerInputs cfg s i) &&
        (ethernetFramerInputs cfg s i).sAxisTvalid) = true := by
      simp [EthernetFramer.outputReady, ethernetFramerInputs, ht, hout]
    rw [if_pos hmoves] at hle
    simp only [if_true]
    omega

/-- A beat is taken: there is one less to come. -/
theorem potential_step_taken {p' : List (Byte × Bool)} (hlen : p.length = p'.length + 1) :
    potential (step cfg s i) p' ≤ potential s p - (if i.mAxisTready then 1 else 0) := by
  have hrank := UdpFramer.rank_le (step cfg s i).udpFramer
  have hdist := distance_le (step cfg s i).ethernetFramer.framerState
  have hp : p ≠ [] := List.ne_nil_of_length_pos (by omega)
  rw [potential, potential, if_neg hp]
  split
  · omega
  · split <;> omega

/-- **One cycle** in which the source hands nothing over lowers the potential. -/
theorem potential_step (h : UdpFramer.Owes cfg.udp s.udpFramer g p)
    (hlow : i.sAxisTvalid = false → i.sAxisTlast = false)
    (hacc : handed offer sAxisTready s i = []) :
    ∃ p', UdpFramer.Owes cfg.udp (step cfg s i).udpFramer g p' ∧ p = sent cfg s i ++ p' ∧
      potential (step cfg s i) p' ≤ potential s p - (if i.mAxisTready then 1 else 0) := by
  have hsteady : UdpFramer.Steady cfg.udp s.udpFramer (udpFramerInputs cfg s i) :=
    ⟨rfl, rfl, hlow, rfl, rfl, rfl, rfl, rfl⟩
  have hacc : UdpFramer.accepted s.udpFramer (udpFramerInputs cfg s i) = [] := by
    rw [UdpFramer.accepted_eq_handed]
    exact hacc
  obtain ⟨p', h', e⟩ := UdpFramer.owes_step _ g p _ h hsteady (by simp [hacc])
  simp only [hacc, run_nil, collect_nil, List.flatMap_nil, List.append_nil] at h' e
  refine ⟨p', h', e, ?_⟩
  by_cases hp : p = []
  · rw [hp] at e
    have hp' : p' = [] := (List.append_eq_nil_iff.mp e.symm).2
    simp [potential, hp']
  · cases hout : s.udpFramer.outputTvalid with
    | false =>
      have htaken : UdpFramer.taken s.udpFramer (udpFramerInputs cfg s i) = [] := by
        simp [UdpFramer.taken, hout]
      rw [htaken, List.nil_append] at e
      rw [← e]
      exact potential_step_empty h hp hsteady hout
    | true =>
      cases hr : EthernetFramer.sAxisTready s.ethernetFramer (ethernetFramerInputs cfg s i) with
      | false =>
        have htaken : UdpFramer.taken s.udpFramer (udpFramerInputs cfg s i) = [] := by
          simp [UdpFramer.taken, udpFramerInputs, hr]
        rw [htaken, List.nil_append] at e
        rw [← e]
        exact potential_step_refused hp hout hr
      | true =>
        have htaken : (UdpFramer.taken s.udpFramer (udpFramerInputs cfg s i)).length = 1 := by
          simp [UdpFramer.taken, hout, udpFramerInputs, hr]
        have hlen := congrArg List.length e
        rw [List.length_append, htaken, Nat.add_comm] at hlen
        exact potential_step_taken hlen

theorem potential_run (h : UdpFramer.Owes cfg.udp s.udpFramer g p)
    (hlow : ∀ i ∈ is, i.sAxisTvalid = false → i.sAxisTlast = false)
    (hacc : collect (step cfg) (handed offer sAxisTready) s is = []) :
    ∃ p', UdpFramer.Owes cfg.udp (run (step cfg) s is).udpFramer g p' ∧
      p = collect (step cfg) (sent cfg) s is ++ p' ∧
      potential (run (step cfg) s is) p' ≤ potential s p - is.countP (·.mAxisTready) := by
  induction is generalizing s p with
  | nil => exact ⟨p, h, rfl, by simp⟩
  | cons i is ih =>
    rw [collect_cons, List.append_eq_nil_iff] at hacc
    obtain ⟨p₁, h₁, e₁, hle₁⟩ := potential_step h (hlow i (by simp)) hacc.1
    obtain ⟨p₂, h₂, e₂, hle₂⟩ := ih h₁ (fun j hj => hlow j (by simp [hj])) hacc.2
    refine ⟨p₂, h₂, by rw [e₁, e₂, collect_cons, List.append_assoc], ?_⟩
    rw [run_cons, List.countP_cons]
    omega

/-- **All the datagrams have been handed over** to the `ethernet_framer`, when the sink has been
ready often enough. -/
theorem Fed.sent_eq (h : Fed cfg ps s (js ++ ks))
    (hsent : unsent false (step cfg) offer sAxisTready (ps.flatMap beats) s js = [])
    (hcount : 32 * (UdpFramer.datagrams cfg.udp ps).length + 25 ≤ ks.countP (·.mAxisTready)) :
    collect (step cfg) (sent cfg) s (js ++ ks) = UdpFramer.datagrams cfg.udp ps := by
  have hall := handed_append_unsent h.left.feeds
  rw [hsent, List.append_nil] at hall
  have hsum := handed_append_unsent h.feeds
  have hrest : collect (step cfg) (handed offer sAxisTready) (run (step cfg) s js) ks = [] := by
    rw [collect_append, hall, List.append_assoc] at hsum
    exact (List.append_eq_nil_iff.mp (List.append_right_eq_self.mp hsum)).1
  obtain ⟨p₁, hp₁, e₁⟩ := h.left.owes
  rw [hall, (packets_flatMap_beats h.ne_nil).1] at e₁
  obtain ⟨p₂, -, e₂, hle⟩ := potential_run hp₁
    (fun i hi => h.low i (List.mem_append_right _ hi)) hrest
  have hnil : p₂ = [] := by
    by_contra hp₂
    have hlen := congrArg List.length e₁
    have hpos := List.length_pos_of_ne_nil hp₂
    have hrank := UdpFramer.rank_le (run (step cfg) s js).udpFramer
    have hdist := distance_le (run (step cfg) s js).ethernetFramer.framerState
    have hstart : potential (run (step cfg) s js) p₁ ≤ 32 * p₁.length + 25 := by
      unfold potential
      split <;> omega
    rw [List.length_append] at hlen
    rw [potential, if_neg hp₂] at hle
    omega
  rw [hnil, List.append_nil] at e₂
  rw [collect_append, e₁, ← e₂]

/-- **All the frames have been carried over the line** six ready cycles later. -/
theorem Fed.carried_eq (h : Fed cfg ps s (js ++ ks))
    (hsent : collect (step cfg) (sent cfg) s js = UdpFramer.datagrams cfg.udp ps)
    (hcount : 6 ≤ ks.countP (·.mAxisTready)) :
    collect (step cfg) (carried cfg) s (js ++ ks) = (ps.map (frameOf cfg)).flatMap beats := by
  have hfeeds := h.feeds_udp
  have hsteady := steady_ethernetFramer cfg s (js ++ ks)
  have hcarried := collect_carried cfg s (js ++ ks)
  have hdsts := sampled_eq cfg s (js ++ ks)
  rw [inputs_append] at hfeeds hsteady hcarried hdsts
  have hunsent := handed_append_unsent h.left.feeds_udp
  rw [collect_component (π := State.ethernetFramer) (ethernetFramer_step cfg), collect_handed,
    hsent, flatMap_beats_packet, List.append_right_eq_self] at hunsent
  have hready : (inputs (step cfg) (ethernetFramerInputs cfg) (run (step cfg) s js) ks).countP
      (·.mAxisTready) = ks.countP (·.mAxisTready) := by
    apply countP_inputs
    intro x i
    rfl
  obtain ⟨hlen, htaken⟩ := EthernetFramer.frames_taken h.afterReset.ethernetFramer
    (packet_ne_nil cfg ps) hsteady hfeeds (by rwa [flatMap_beats_packet]) (by rwa [hready])
  rw [← hcarried, htaken, zipWith_frameBeats cfg hdsts, hlen, List.length_map, List.take_length]

end Progress

/-! ## Every run -/

section Runs

variable {cfg : Config} {ps : List (List Byte)} {s : State} {js : List Inputs} {i j k : Inputs}

/-- **All the datagrams have come out of the `ethernet_deframer`** two cycles later. -/
theorem Fed.deframed_eq (h : Fed cfg ps s (js ++ [i, j]))
    (hcarried : collect (step cfg) (carried cfg) s js = (ps.map (frameOf cfg)).flatMap beats) :
    deframedBeats cfg s (js ++ [i, j]) = (UdpFramer.datagrams cfg.udp ps).map good := by
  have hpre := h.carried_prefix
  rw [collect_append, hcarried] at hpre
  have hquiet := List.append_right_eq_self.mp (hpre.eq_of_length_le (by simp))
  rw [collect_cons, collect_cons, List.append_eq_nil_iff, List.append_eq_nil_iff] at hquiet
  obtain ⟨hi, hj, -⟩ := hquiet
  have hnone : ∀ x a, carried cfg x a = [] →
      (ethernetDeframerInputs cfg x a).sAxisTvalid = false := by
    intro x a hnone
    by_contra hv
    rw [Bool.not_eq_false] at hv
    simp [carried, EthernetFramer.taken, ethernetFramerInputs] at hnone
    simp [ethernetDeframerInputs] at hv
    simp [hnone hv.1] at hv
  have hsteady := steady_ethernetDeframer cfg s (js ++ [i, j])
  have hline := h.allows_line
  have hshown : collect EthernetDeframer.step EthernetDeframer.shown s.ethernetDeframer
      (inputs (step cfg) (ethernetDeframerInputs cfg) s (js ++ [i, j])) =
      deframedBeats cfg s (js ++ [i, j]) :=
    collect_component (π := State.ethernetDeframer) (ethernetDeframer_step cfg) s (js ++ [i, j])
  have harrived := collect_arrived cfg s (js ++ [i, j])
  rw [inputs_append] at hsteady hline hshown harrived
  rw [deframedBeats, ← expected_frames, ← hcarried]
  refine hshown.symm.trans ((EthernetDeframer.shown_of_quiet h.afterReset.ethernetDeframer hsteady
    hline (hnone _ _ hi) (hnone _ _ hj)).trans (congrArg _ (harrived.trans ?_)))
  rw [collect_append, collect_cons, collect_cons, hi, hj]
  simp

/-- **All the payloads have come out of the stack** one cycle later. -/
theorem Fed.shown_eq (h : Fed cfg ps s (js ++ [i]))
    (hdeframed : deframedBeats cfg s js = (UdpFramer.datagrams cfg.udp ps).map good) :
    collect (step cfg) shown s (js ++ [i]) = ps.flatMap beats := by
  have hall := h.left.follows.2
  rw [hdeframed, List.map_map, show forget ∘ good = id from rfl, List.map_id, UdpFramer.datagrams,
    UdpDeframer.collect_payloadBy_datagrams h.ne_nil] at hall
  rw [collect_concat, shown, hall]

theorem length_datagrams (cfg : Udp.Config) (ps : List (List Byte)) :
    (UdpFramer.datagrams cfg ps).length = (ps.flatMap (datagram cfg)).length := by
  simp [UdpFramer.datagrams, List.length_flatMap, length_beats]

/-- **The stack delivers the payloads.** With a source that follows the handshake and has payloads
of 1 to 2047 bytes to send, the beats that come out are at every time the first of those payloads,
no beat comes out of the `ethernet_deframer` with `tuser`, and nothing is dropped. Once the source
has handed over everything, all the payloads have come out after as many ready cycles as stated. -/
theorem shown_prefix_payloads (cfg : Config) (ps : List (List Byte)) {s : State}
    {is : List Inputs} (h : AfterReset s) (hps : ∀ q ∈ ps, 1 ≤ q.length ∧ q.length ≤ 2047)
    (hlow : ∀ i ∈ is, i.sAxisTvalid = false → i.sAxisTlast = false)
    (hfeeds : Feeds false (step cfg) offer sAxisTready (ps.flatMap beats) s is) :
    collect (step cfg) shown s is <+: ps.flatMap beats ∧
      ((run (step cfg) s is).ethernetDeframer.mAxisTvalid = true →
        (run (step cfg) s is).ethernetDeframer.mAxisTuser = false) ∧
      (run (step cfg) s is).ethernetDeframer.droppedPacketCountU = 0 ∧
      (run (step cfg) s is).udpDeframer.droppedPacketsCountU = 0 ∧
      ∀ js ks, is = js ++ ks →
        unsent false (step cfg) offer sAxisTready (ps.flatMap beats) s js = [] →
        32 * ((ps.flatMap fun q => datagram cfg.udp q).length + 2) ≤ ks.countP (·.mAxisTready) →
        collect (step cfg) shown s is = ps.flatMap beats := by
  have h : Fed cfg ps s is := ⟨h, hps, hlow, hfeeds⟩
  refine ⟨(List.prefix_append _ _).trans h.shown_prefix, h.mAxisTuser, h.droppedPacketCountU,
    h.follows.1.dropped, ?_⟩
  rintro js ks rfl hsent hcount
  rw [← length_datagrams] at hcount
  -- until the last datagram is in the framer, until the last frame is on the line, and three cycles
  obtain ⟨k₁, k₂, rfl, h₁, h₂⟩ := exists_append_countP
    (show 32 * (UdpFramer.datagrams cfg.udp ps).length + 25 + (6 + 3) ≤
      ks.countP (·.mAxisTready) by omega)
  obtain ⟨k₂, k₃, rfl, h₂, h₃⟩ := exists_append_countP h₂
  have hlen := h₃.trans List.countP_le_length
  obtain ⟨i, j, k, hlast⟩ := List.length_eq_three.mp
    (show (k₃.drop (k₃.length - 3)).length = 3 by rw [List.length_drop]; omega)
  rw [← List.take_append_drop (k₃.length - 3) k₃, hlast] at h ⊢
  generalize k₃.take (k₃.length - 3) = k₃ at *
  rw [show js ++ (k₁ ++ (k₂ ++ (k₃ ++ [i, j, k]))) =
    js ++ k₁ ++ (k₂ ++ k₃) ++ [i, j] ++ [k] by simp] at h ⊢
  have hsent := h.left.left.left.sent_eq hsent h₁
  have hcarried := h.left.left.carried_eq hsent (by rw [List.countP_append]; omega)
  exact h.shown_eq (h.left.deframed_eq hcarried)

/-- The stack after the reset. -/
def cleared : State where
  udpFramer := UdpFramer.cleared
  ethernetFramer := EthernetFramer.cleared
  ethernetDeframer := EthernetDeframer.cleared
  udpDeframer := UdpDeframer.step ⟨0, 0, .idle, 0, 0, false, false, 0, 0, 0⟩
    { reset := true, destinationPortIn := 0, destinationAddressIn := 0, broadcastAddressIn := 0 }

/-- A payload of one byte from `192.168.0.2:1000` to `192.168.0.1:2000`. -/
theorem shown_prefix_payloads_one :
    let cfg : Config :=
      ⟨⟨1000, 2000, 0xC0A80002, 0xC0A80001, 0x1234⟩, 0x001122334455, 0x0A0B0C0D0E0F, 0, 0⟩
    let quiet : Inputs := { }
    collect (step cfg) shown cleared
        ([{ sAxisTvalid := true, sAxisTdata := 0xAA, sAxisTlast := true }] ++
          List.replicate 992 quiet) =
      [(0xAA, true)] := by
  intro cfg quiet
  have h : AfterReset cleared :=
    ⟨UdpFramer.cleared_afterReset, ⟨_, _, rfl, rfl⟩, EthernetDeframer.cleared_afterReset,
      ⟨_, _, rfl, rfl⟩⟩
  exact (shown_prefix_payloads cfg [[0xAA]] h (by decide) (by decide +kernel)
    (by decide +kernel)).2.2.2.2
    _ _ rfl (by decide +kernel) (by decide +kernel)

end Runs

end RmiiEthernet.Stack
