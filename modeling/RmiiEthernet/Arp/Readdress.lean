import RmiiEthernet.Arp.Addressing
import RmiiEthernet.Ethernet.Headers

/-!
# Addresses that change

The addresses at the ports of `arp` and of the framer are registers that the host writes while the
circuit runs. Whatever they have been, the frames that are begun after the last change carry the new
ones: every frame the address of the sender (`source_later`), and the frame of a data packet the
configured destination (`destination_later`).

The destination is a register of `arp` that follows the port, unless an ARP packet is in progress.
A data packet of three bytes or more does not fit into the pipeline, so that while its first byte
waits for the framer the state machine cannot have started an ARP packet (`Streams.tagged`).
-/

namespace RmiiEthernet.ArpFramer

open Sync EthernetFcs EthernetFrame

/-- A state in which nothing is in progress: the initial one, and the one that a reset leads to. -/
structure AtRest (x : State) : Prop where
  arp : Arp.AtRest x.arp
  framer : EthernetFramer.AtRest x.framer

theorem atRest_reset {x : State} {i : Inputs} (h : i.arp.reset = true) : AtRest (step x i) where
  arp := Arp.AfterReset.atRest ⟨x.arp, arpInputs x i, h, rfl⟩
  framer := EthernetFramer.atRest_reset (i := framerInputs x i) h

/-! ## The two circuits in step -/

section Cycle

variable {x : State} {i : Inputs} {acc : List (Byte × Bool)} {out : List ((Byte × Bool) × Bool)}
  {ms : List (Bool × List Byte)} {q : List Byte}

/-- `arp` has been handed `acc` and the framer has taken `out`, with any addresses at the ports. -/
structure Streams (x : State) (acc : List (Byte × Bool)) (out : List ((Byte × Bool) × Bool))
    (ms : List (Bool × List Byte)) (q : List Byte) : Prop where
  merges : Arp.Merges Set.univ x.arp acc (out ++ Arp.pipe x.arp) ms q
  flagged : Flagged x.arp
  between : x.framer.framerState ≠ .payload → openPacket out = []

/-- Behind complete packets the beats in the pipeline belong to the packet in progress. -/
theorem Streams.tagged (h : Streams x acc out ms q) (hlen : ∀ p ∈ packets acc, 3 ≤ p.length)
    (hpayload : x.framer.framerState ≠ .payload) : Tagged x.arp := by
  have hout := h.between hpayload
  obtain ⟨hpackets, hopen⟩ := h.merges.packets_total
  rw [packets_append, hout] at hpackets
  rw [openPacket_append, hout] at hopen
  change packets out ++ packets (Arp.pipe x.arp) = _ at hpackets
  change openPacket (Arp.pipe x.arp) = _ at hopen
  have hnone : packets (Arp.pipe x.arp) = [] := by
    apply List.eq_nil_iff_forall_not_mem.mpr
    intro p hp
    have hshort := (length_le_of_mem_packets hp).trans (Arp.length_pipe_le x.arp)
    have hmem : p ∈ ms.map fun m => Arp.tag m.1 m.2 := by
      rw [← hpackets]
      exact List.mem_append_right _ hp
    obtain ⟨⟨u, r⟩, hm, rfl⟩ := List.mem_map.mp hmem
    have hshort : r.length ≤ 2 := by simpa [Arp.tag] using hshort
    cases u with
    | true =>
      have hr : r.length = 47 := ((h.merges.arp _ hm).2 rfl).1
      omega
    | false =>
      have hr : r ∈ packets acc := by
        rw [← h.merges.data]
        exact List.mem_map.mpr ⟨(false, r), by simp [hm], rfl⟩
      have := hlen r hr
      omega
  have hpipe := beats_packets (Arp.pipe x.arp)
  rw [hnone, hopen, List.flatMap_nil, List.nil_append] at hpipe
  intro b hb
  rw [← hpipe] at hb
  obtain ⟨c, hc, rfl⟩ := List.mem_map.mp hb
  obtain ⟨d, -, rfl⟩ := List.mem_map.mp hc
  simp

theorem AtRest.streams (h : AtRest x) : Streams x [] [] [] [] := by
  obtain ⟨hpipe, hmerges⟩ := h.arp.merges (M := Set.univ)
  refine ⟨by rwa [hpipe], ?_, fun _ => rfl⟩
  simp [Flagged, h.arp.output, h.arp.framed, Arp.Beat.none]

theorem Streams.step (h : Streams x acc out ms q) (hi : i.arp.reset = false) :
    ∃ ms' q', Streams (step x i) (acc ++ accepted x i) (out ++ handed x i) ms' q' := by
  have hi' : (arpInputs x i).reset = false := hi
  obtain ⟨ms', q', hmerges⟩ := h.merges.step hi' (Set.mem_univ _)
  rw [List.append_assoc, ← Arp.pipe_step hi', ← List.append_assoc] at hmerges
  exact ⟨ms', q', hmerges, h.flagged.step hi', openPacket_handed h.between hi⟩

/-- The register of the destination follows the port. -/
theorem ethDestMac_of_data (h : Streams x acc out ms q) {ms' : List (Bool × List Byte)}
    {q' : List Byte} (h' : Streams (ArpFramer.step x i) (acc ++ accepted x i) (out ++ handed x i)
      ms' q')
    (hlen : ∀ p ∈ packets (acc ++ accepted x i), 3 ≤ p.length) (hi : i.arp.reset = false)
    (hidle : (ArpFramer.step x i).framer.framerState = .idle)
    (hvalid : (ArpFramer.step x i).arp.output.tvalid = true)
    (htuser : (ArpFramer.step x i).arp.output.tuser = false) :
    (ArpFramer.step x i).arp.ethDestMac = i.arp.destinationMacIn := by
  have hpayload : x.framer.framerState ≠ .payload :=
    framerState_ne_payload (i := framerInputs x i) hi hidle
  have htag := h.tagged (fun p hp => hlen p (mem_packets_append _ hp)) hpayload
  have htag' := h'.tagged hlen (by simp [hidle])
  obtain ⟨hsame, hu⟩ := same_packet htag htag' h.flagged hi hpayload hvalid
  have hdata : (ArpFramer.step x i).arp.fsmState = .idle := by
    by_contra hbusy
    have := (htag' _ (output_mem_pipe hvalid)).mpr hbusy
    simp [htuser] at this
  have hbefore : x.arp.fsmState = .idle := by
    by_contra hbusy
    exact hsame.mp hbusy hdata
  have hout : x.arp.output.tuser = false := by
    by_contra htrue
    exact hu (by simpa using htrue) hbefore
  have hi' : (arpInputs x i).reset = false := hi
  simp only [ArpFramer.step, Arp.step, hi', hbefore, hout]
  rfl

/-- The same, with the data packets complete and in progress since the last reset. -/
def Streaming (y : State × List Byte) : Prop :=
  ∃ acc out ms q, Streams y.1 acc out ms q ∧ openPacket acc = y.2 ∧
    ∀ p ∈ packets acc, 3 ≤ p.length

theorem AtRest.streaming (h : AtRest x) : Streaming (x, []) :=
  ⟨[], [], [], [], h.streams, rfl, by simp⟩

/-- The data packets at the port, and resets. -/
abbrev fed : State × List Byte → Inputs → State × List Byte :=
  cutting step (fun _ i => i.arp.reset) accepted

/-- **One cycle**: if a data frame is begun in the next one, then with the address that is at the
port in this one. -/
theorem Streaming.step {y : State × List Byte} (h : Streaming y)
    (hlen : ∀ p ∈ completes accepted y i, 3 ≤ p.length) :
    Streaming (fed y i) ∧ ((fed y i).1.framer.framerState = .idle →
      (fed y i).1.arp.output.tvalid = true → (fed y i).1.arp.output.tuser = false →
        (fed y i).1.arp.ethDestMac = i.arp.destinationMacIn) := by
  cases hi : i.arp.reset with
  | true =>
    have hrest : AtRest (ArpFramer.step y.1 i) := atRest_reset hi
    have hcut : fed y i = (ArpFramer.step y.1 i, []) := by simp [cutting, hi]
    rw [hcut]
    refine ⟨hrest.streaming, fun _ hvalid => ?_⟩
    simp [hrest.arp.output, Arp.Beat.none] at hvalid
  | false =>
    obtain ⟨acc, out, ms, q, hstreams, hopen, hlong⟩ := h
    obtain ⟨ms', q', hstreams'⟩ := hstreams.step hi
    have hcut : fed y i = (ArpFramer.step y.1 i, run cutStep y.2 (accepted y.1 i)) := by
      simp [cutting, hi]
    have hlong' : ∀ p ∈ packets (acc ++ accepted y.1 i), 3 ≤ p.length := by
      intro p hp
      rw [packets_append, hopen] at hp
      exact (List.mem_append.mp hp).elim (hlong p) (hlen p)
    rw [hcut]
    refine ⟨⟨_, _, ms', q', hstreams', ?_, hlong'⟩, ?_⟩
    · rw [openPacket_append, hopen]
    · exact ethDestMac_of_data hstreams hstreams' hlong' hi

end Cycle

/-! ## Whole runs -/

section Runs

variable {x : State} {is js ks : List Inputs} {src dst : BitVec 48}

/-- The frames of a run. -/
def frames (x : State) (is : List Inputs) : List (EthernetFramer.Begun × List Byte) :=
  EthernetFramer.frames x.framer (inputs step framerInputs x is)

/-- The data packets of a run. -/
def dataPackets (x : State) (is : List Inputs) : List (List Byte) :=
  wholePackets step (fun _ i => i.arp.reset) accepted x is

theorem good_frames (hx : AtRest x) (hsrc : ∀ i ∈ ks, i.arp.macAddressIn = src) :
    ∀ f ∈ frames x (js ++ ks), EthernetFramer.Good src js.length f.2 f.1 := by
  have hks : ∀ i ∈ inputs step framerInputs (run step x js) ks, i.sourceMacIn = src := by
    intro i hi
    obtain ⟨as, j, bs, rfl, rfl⟩ := exists_of_mem_inputs hi
    exact hsrc j (by simp)
  have hlength : (inputs step framerInputs x js).length = js.length := length_inputs x js
  intro f hf
  rw [frames, inputs_append] at hf
  rw [← hlength]
  exact EthernetFramer.good_frames hx.framer hks f hf

/-- **The address of the sender** in the frames that are begun after it has been changed. -/
theorem source_later (hx : AtRest x) (hsrc : ∀ i ∈ ks, i.arp.macAddressIn = src) :
    ∀ f ∈ frames x (js ++ ks), js.length ≤ f.1.cycle → (f.2.drop 6).take 6 = macBytes src :=
  fun f hf hT => (good_frames hx hsrc f hf).source hT

theorem streaming_run (hx : AtRest x) (hlen : ∀ p ∈ dataPackets x is, 3 ≤ p.length) :
    Streaming (run fed (x, []) is) := by
  induction is using List.reverseRecOn with
  | nil => exact hx.streaming
  | append_singleton is i ih =>
    rw [dataPackets, wholePackets, collect_concat, List.forall_mem_append] at hlen
    rw [run_concat]
    exact ((ih hlen.1).step hlen.2).1

/-- A data frame is begun with the address that is at the port in the cycle before. -/
theorem dst_of_begun {j i : Inputs} {a : EthernetFramer.Begun} {t : ℕ} (hx : AtRest x)
    (hlen : ∀ p ∈ dataPackets x (js ++ [j]), 3 ≤ p.length)
    (ha : a ∈ EthernetFramer.begun t (run step x (js ++ [j])).framer
      (framerInputs (run step x (js ++ [j])) i)) (hu : a.tuser = false) :
    a.dst = j.arp.destinationMacIn := by
  have hstate : (fed (run fed (x, []) js) j).1 = run step x (js ++ [j]) := by
    have hrun : run fed (x, []) (js ++ [j]) = fed (run fed (x, []) js) j := run_concat _ _ _
    rw [← hrun]
    exact run_proj (π := Prod.fst) (fun _ _ => rfl) (x, []) _
  rw [dataPackets, wholePackets, collect_concat, List.forall_mem_append] at hlen
  have hnext := ((streaming_run hx hlen.1).step hlen.2).2
  rw [hstate] at hnext
  unfold EthernetFramer.begun at ha
  split at ha
  · next hstarts =>
    simp only [EthernetFramer.starts, Bool.and_eq_true, beq_iff_eq] at hstarts
    obtain rfl := List.mem_singleton.mp ha
    exact hnext hstarts.1.2 hstarts.2.1 hu
  · cases ha

/-- **The destination** of the data frames that are begun after it has been changed. -/
theorem destination_later {j : Inputs} (hx : AtRest x)
    (hlen : ∀ p ∈ dataPackets x (js ++ j :: ks), 3 ≤ p.length)
    (hdst : ∀ i ∈ j :: ks, i.arp.destinationMacIn = dst) :
    ∀ f ∈ frames x (js ++ j :: ks), js.length < f.1.cycle →
      (f.2.drop 12).take 2 = [0x08, 0x00] → f.2.take 6 = macBytes dst := by
  intro f hf hT htype
  have hgood : ∀ g ∈ frames x (js ++ j :: ks ++ []),
      EthernetFramer.Good 0 (js ++ j :: ks).length g.2 g.1 := good_frames hx (by simp)
  rw [List.append_nil] at hgood
  have hu : f.1.tuser = false := by
    rw [(hgood f hf).type] at htype
    cases hu : f.1.tuser <;> simp [hu] at htype ⊢
  -- the cycle before the one in which the frame is begun
  obtain ⟨as, i', bs, hsplit, hbegun⟩ := EthernetFramer.exists_begun x.framer _ f hf
  obtain ⟨cs, i, ds, heq, rfl, rfl, -⟩ := exists_of_inputs_eq hsplit
  rw [length_inputs, run_component (π := State.framer) framer_step] at hbegun
  have hcycle : f.1.cycle = cs.length := by
    unfold EthernetFramer.begun at hbegun
    split at hbegun
    · rw [List.mem_singleton.mp hbegun]
    · cases hbegun
  rcases List.eq_nil_or_concat cs with rfl | ⟨cs, k, rfl⟩
  · simp [hcycle] at hT
  · rw [List.concat_eq_append] at hbegun hcycle heq
    rw [List.length_append, List.length_singleton] at hcycle
    rw [List.append_assoc, List.singleton_append] at heq
    have hlen' : ∀ p ∈ dataPackets x (cs ++ [k]), 3 ≤ p.length := by
      intro p hp
      refine hlen p ?_
      rw [heq, ← List.singleton_append, ← List.append_assoc, dataPackets, wholePackets,
        collect_append]
      exact List.mem_append_left _ hp
    rw [(hgood f hf).destination, dst_of_begun hx hlen' hbegun hu,
      hdst k (mem_of_append_eq heq (by omega))]

end Runs

end RmiiEthernet.ArpFramer
