import RmiiEthernet.Mac.Delivery
import RmiiEthernet.Rmii.Link

/-!
# Two MACs on a line

Two `rmii_mac`, each with its own user clock, whose lines are crossed. What one of them sends is
known from its packet FIFO on (`lines_user`), and a receiver on such a line captures the frames
(`run_frames`). They are intact and fit into the packet buffer of the other one, which keeps the
data packets and drops the replies and announcements of `arp`: so the user of the one gets what the
user of the other has sent (`shown_accepted_peer`).
-/

namespace RmiiEthernet.RmiiMacRx

open Sync EthernetFcs

/-! ## A receiver on the line of a transmitter -/

variable {s : State} {ps : List (List Byte)} {gs : List ℕ}

/-- The inputs of a receiver that hears a line. -/
def hearing (l : List (Bool × BitVec 2)) : List Inputs := l.map fun d => ⟨false, d.1, d.2⟩

theorem hearing_append (l l' : List (Bool × BitVec 2)) :
    hearing (l ++ l') = hearing l ++ hearing l' := List.map_append

theorem hearing_quiet (n : ℕ) : hearing (RmiiMacTx.quiet n) = quiet (List.replicate n 0) := by
  simp [hearing, RmiiMacTx.quiet, quiet]

theorem hearing_burst (q : List Byte) :
    hearing (RmiiMacTx.burst q) = carrier (RmiiMacTx.wire q) := by
  simp [hearing, RmiiMacTx.burst, carrier]

/-- **The frames on a line are captured.** -/
theorem Silent.run_frames (h : Silent s) (hwait : s.fsmState = .waitForSfd)
    (hps : ∀ q ∈ ps, q ≠ []) (hgs : gs.length = ps.length ∧ RmiiMacTx.Gapped gs) {n : ℕ}
    (hn : ps ≠ [] → 4 ≤ n) :
    Silent (run step s (hearing (RmiiMacTx.frames gs ps ++ RmiiMacTx.quiet n))) ∧
      (run step s (hearing (RmiiMacTx.frames gs ps ++ RmiiMacTx.quiet n))).fsmState =
        .waitForSfd ∧
      collect step shown s (hearing (RmiiMacTx.frames gs ps ++ RmiiMacTx.quiet n)) =
        ps.flatMap beats := by
  induction ps using List.reverseRecOn generalizing gs n with
  | nil =>
    obtain rfl : gs = [] := List.eq_nil_of_length_eq_zero hgs.1
    obtain ⟨h₁, h₂, h₃⟩ := h.run_quiet (List.replicate n 0)
    rw [← hearing_quiet] at h₁ h₂ h₃
    exact ⟨h₁, h₂.trans hwait, h₃⟩
  | append_singleton ps q ih =>
    rcases List.eq_nil_or_concat gs with rfl | ⟨gs, g, rfl⟩
    · simp at hgs
    rw [List.concat_eq_append] at *
    have hlength : gs.length = ps.length := by simpa using hgs.1
    have hgap : ps ≠ [] → 4 ≤ g := by
      intro hne
      have hmem : g ∈ (gs ++ [g]).tail := by
        cases gs with
        | nil => exact absurd (List.eq_nil_of_length_eq_zero hlength.symm) hne
        | cons a gs => simp
      exact (by norm_num : 4 ≤ 48).trans (hgs.2 g hmem)
    have hgapped : RmiiMacTx.Gapped gs := fun a ha => hgs.2 a (by
      cases gs with
      | nil => cases ha
      | cons b gs => exact List.mem_append_left _ ha)
    obtain ⟨h₁, h₂, h₃⟩ := ih (fun r hr => hps r (by simp [hr])) ⟨hlength, hgapped⟩ hgap
    obtain ⟨hwire, hfinal⟩ := RmiiLink.decode_wire (hps q (by simp))
    obtain ⟨h₄, h₅, h₆⟩ := h₁.run_carrier (RmiiMacTx.wire q)
      (show 4 ≤ (List.replicate n (0 : DiBit)).length by simpa using hn (by simp))
    have hsplit : hearing (RmiiMacTx.frames (gs ++ [g]) (ps ++ [q]) ++ RmiiMacTx.quiet n) =
        hearing (RmiiMacTx.frames gs ps ++ RmiiMacTx.quiet g) ++
          (carrier (RmiiMacTx.wire q) ++ quiet (List.replicate n 0)) := by
      rw [RmiiMacTx.frames_concat hlength, hearing_append, hearing_append, hearing_burst,
        hearing_quiet, List.append_assoc]
    rw [h₂] at h₅ h₆
    rw [hsplit, run_append, collect_append, h₃, h₆, hwire]
    refine ⟨h₄, ?_, by simp⟩
    rw [h₅, Decoder.finalState, hfinal]

/-- A receiver on the line of a transmitter captures the first of the frames. -/
theorem Silent.captured_isPrefix (h : Silent s) (hwait : s.fsmState = .waitForSfd)
    (hps : ∀ q ∈ ps, q ≠ []) (hgs : gs.length = ps.length ∧ RmiiMacTx.Gapped gs) {n : ℕ}
    {l : List (Bool × BitVec 2)} (hl : l <+: RmiiMacTx.frames gs ps ++ RmiiMacTx.quiet n) :
    collect step shown s (hearing l) <+: ps.flatMap beats := by
  obtain ⟨-, -, hall⟩ := h.run_frames hwait hps hgs (show ps ≠ [] → 4 ≤ n + 4 by omega)
  rw [← hall]
  refine collect_prefix s (List.IsPrefix.map _ (hl.trans ?_))
  rw [List.prefix_append_right_inj]
  exact ⟨RmiiMacTx.quiet 4, List.replicate_append_replicate⟩

end RmiiEthernet.RmiiMacRx

namespace RmiiEthernet.EthernetDeframer

open Sync EthernetFcs EthernetFrame

theorem payloadOf_frame (dst src : BitVec 48) (arp : Bool) (m : List Byte) :
    payloadOf (frame dst src arp m) = m := by
  rw [payloadOf, length_frame, frame, List.append_assoc, List.drop_left' (length_header _ _ _),
    Nat.add_sub_cancel, List.take_left]

end RmiiEthernet.EthernetDeframer

namespace RmiiEthernet.RmiiMac

open Sync EthernetFcs EthernetFrame EthernetDeframer

variable {T R : ℕ} {cfg : Config} {s : State T R} {es : List Edge}

/-- No payload of a checked frame is marked. -/
theorem snd_fst_of_mem_payloads {fs : List (List Byte)} (hfs : ∀ f ∈ fs, f ≠ [] ∧ Checked f)
    {b : (Byte × Bool) × Bool} (hb : b ∈ payloads cfg (fs.flatMap beats)) : b.1.2 = false := by
  obtain ⟨hpackets, hopen⟩ := packets_flatMap_beats fun f hf => (hfs f hf).1
  rw [payloads, expected, hpackets, hopen, List.map_append, List.map_flatMap] at hb
  rcases List.mem_append.mp hb with hb | hb
  · obtain ⟨f, hf, hb⟩ := List.mem_flatMap.mp hb
    have hchecked := (hfs f hf).2
    rw [map_toBuffer_deframed, words] at hb
    split at hb
    · rw [beats_map_beats] at hb
      obtain ⟨c, -, rfl⟩ := List.mem_map.mp hb
      simp [hchecked]
    · cases hb
  · rw [map_toBuffer_deframing] at hb
    split at hb <;> simp [payloadOf] at hb

/-- Where only checked frames come over the line, the packet buffer drops nothing. -/
theorem undisturbed_of_checked (h : ReceiveIdle s) (hsteady : ∀ e ∈ es, Steady cfg e)
    (hpaces : Paces 3 Edge.isUser Edge.isPhy es)
    (hshort : ∀ f ∈ packets (collect step captured s es), 15 ≤ f.length)
    {fs : List (List Byte)} (hfs : ∀ f ∈ fs, f ≠ [] ∧ Checked f)
    (hcaptured : collect step captured s es <+: fs.flatMap beats) :
    Always step Undisturbed s es := by
  have hall := (buffered_isPrefix h hsteady hpaces hshort).trans (payloads_isPrefix hcaptured)
  refine always_of_forall_split fun ks e ls hes => ?_
  cases e with
  | phy crsDv rxd => trivial
  | user i =>
    rintro ⟨hpacket, -⟩
    simp only [RxPacketBuffer.packetBad, Bool.and_eq_true] at hpacket
    have hone : buffered (run step s ks) (.user i) = [_] := if_pos hpacket.1.2
    have hmem := hall.subset (mem_collect_iff.mpr
      ⟨ks, _, ls, hes, hone ▸ List.mem_singleton_self _⟩)
    have hgood := snd_fst_of_mem_payloads hfs hmem
    rw [hpacket.2] at hgood
    cases hgood

end RmiiEthernet.RmiiMac

namespace RmiiEthernet.RmiiMacPeers

open Sync EthernetFcs RmiiMac

variable {T R : ℕ}

/-! ## The two sides -/

/-- Two `rmii_mac`. -/
abbrev State (T R : ℕ) := Bool → RmiiMac.State T R

/-- A rising edge of one of the user clocks, or of the clock of the line. -/
inductive Edge
  | user (k : Bool) (i : UserInputs)
  | line

/-- What one side gets at an edge: it hears the other one. -/
def edgesOf (k : Bool) (x : State T R) : Edge → List RmiiMac.Edge
  | .user j i => if j = k then [.user i] else []
  | .line => [.phy (x !k).rmiiMacTx.txEn (x !k).rmiiMacTx.txd]

/-- One edge. -/
def step (x : State T R) (e : Edge) : State T R := fun k => run RmiiMac.step (x k) (edgesOf k x e)

/-- The edges of one side in a run. -/
def side (k : Bool) (x : State T R) (es : List Edge) : List RmiiMac.Edge :=
  collect step (edgesOf k) x es

/-- The edges of the user clock of one side. -/
def Edge.isUser (k : Bool) : Edge → Bool
  | .user j _ => j == k
  | .line => false

/-- The edges of the clock of the line. -/
def Edge.isLine : Edge → Bool
  | .user _ _ => false
  | .line => true

/-- No reset, and the configurations at the ports. -/
def Steady (cfg : Bool → Config) : Edge → Prop
  | .user k i => RmiiMac.Steady (cfg k) (.user i)
  | .line => True

instance (cfg : Bool → Config) (e : Edge) : Decidable (Steady cfg e) := by
  cases e <;> unfold Steady <;> infer_instance

variable {cfg : Bool → Config} {k : Bool} {x : State T R} {es : List Edge} {n : ℕ}

theorem clocked_side (k : Bool) :
    Clocked RmiiMac.step (fun x : State T R => x k) step (edgesOf k) := fun _ _ => rfl

theorem run_side (k : Bool) (x : State T R) (es : List Edge) :
    run RmiiMac.step (x k) (side k x es) = run step x es k :=
  (clocked_side k).run_eq x es

theorem steady_side (hsteady : ∀ e ∈ es, Steady cfg e) :
    ∀ e ∈ side k x es, RmiiMac.Steady (cfg k) e := by
  intro e he
  obtain ⟨fs, f, gs, rfl, hmem⟩ := mem_collect_iff.mp he
  have hf := hsteady f (by simp)
  cases f with
  | line =>
    obtain rfl := List.mem_singleton.mp hmem
    trivial
  | user j i =>
    by_cases hj : j = k
    · subst hj
      obtain rfl : e = .user i := by simpa [edgesOf] using hmem
      exact hf
    · simp [edgesOf, hj] at hmem

theorem paces_side (h : Paces n (Edge.isUser k) Edge.isLine es) :
    Paces n RmiiMac.Edge.isUser RmiiMac.Edge.isPhy (side k x es) := by
  rw [paces_iff] at h ⊢
  unfold side
  generalize 0 = c at h ⊢
  induction es generalizing x c with
  | nil => trivial
  | cons e es ih =>
    rw [collect_cons, always_append]
    obtain ⟨h₁, h₂⟩ := h
    cases e with
    | line => exact ⟨⟨h₁, trivial⟩, ih _ h₂⟩
    | user j i =>
      by_cases hj : j = k
      · simp only [edgesOf, if_pos hj]
        simp only [lag, Edge.isUser, hj, beq_self_eq_true, if_true] at h₁ h₂
        exact ⟨⟨h₁, trivial⟩, ih _ h₂⟩
      · simp only [edgesOf, if_neg hj]
        simp only [lag, Edge.isUser, Edge.isLine, beq_eq_false_iff_ne.mpr hj, Bool.false_eq_true,
          if_false] at h₁ h₂
        exact ⟨trivial, ih _ h₂⟩

theorem unreset_side (hsteady : ∀ e ∈ es, Steady cfg e) (h : Unreset (x k)) :
    Unreset (run step x es k) := by
  rw [← run_side]
  exact unreset_run h (steady_side hsteady)

/-- **One side hears the line of the other.** -/
theorem heard_side (hsteady : ∀ e ∈ es, Steady cfg e) (h : Unreset (x !k)) :
    collect RmiiMac.step rmiiMacRxIn (x !k) (side (!k) x es) =
      RmiiMacRx.hearing (collect RmiiMac.step RmiiMac.line (x k) (side k x es)) := by
  rw [side, side, (clocked_side (!k)).collect_eq, (clocked_side k).collect_eq,
    RmiiMacRx.hearing, ← List.flatMap_pure_eq_map, ← collect_flatMap]
  refine collect_congr_of_always (always_of_forall_split fun fs e gs hes => ?_)
  cases e with
  | user j i =>
    simp only [edgesOf]
    split <;> split <;> rfl
  | line =>
    have hunreset : Unreset (run step x fs !k) :=
      unreset_side (fun f hf => hsteady f (by simp [hes, hf])) h
    simp [edgesOf, rmiiMacRxIn, rmiiMacRxInputs, line, hunreset.resetClk50]

theorem captured_side (hsteady : ∀ e ∈ es, Steady cfg e) (h : Unreset (x !k)) :
    collect RmiiMac.step captured (x !k) (side (!k) x es) =
      collect RmiiMacRx.step RmiiMacRx.shown (x !k).rmiiMacRx
        (RmiiMacRx.hearing (collect RmiiMac.step RmiiMac.line (x k) (side k x es))) := by
  rw [← heard_side hsteady h, clocked_rmiiMacRx.collect_eq]
  congr 1
  funext s e
  cases e <;> simp [captured, rmiiMacRxIn, RmiiMacRx.shown]

theorem rmiiMacRx_side (hsteady : ∀ e ∈ es, Steady cfg e) (h : Unreset (x !k)) :
    (run step x es !k).rmiiMacRx = run RmiiMacRx.step (x !k).rmiiMacRx
      (RmiiMacRx.hearing (collect RmiiMac.step RmiiMac.line (x k) (side k x es))) := by
  rw [← heard_side hsteady h, clocked_rmiiMacRx.run_eq, run_side]

/-! ## From one user to the other -/

/-- Only frames that the one has completed are captured by the other. -/
theorem captured_isPrefix (hT : 1 ≤ T) (ht : TransmitIdle (x k)) (hr : LineIdle (x !k))
    (hsteady : ∀ e ∈ es, Steady cfg e) :
    collect RmiiMac.step captured (x !k) (side (!k) x es) <+:
      (packets (collect RmiiMac.step framed (x k) (side k x es))).flatMap beats := by
  obtain ⟨y, -, -, hlines⟩ := lines_user hT ht (steady_side (x := x) (k := k) hsteady)
  obtain ⟨gs, n, hlength, hgapped, hl⟩ := hlines.prefix_frames
  rw [captured_side hsteady hr.unreset]
  exact hr.rmiiMacRx.1.captured_isPrefix hr.rmiiMacRx.2 (fun _ => ne_nil_of_mem_packets)
    ⟨hlength, hgapped⟩ ((List.prefix_append _ _).trans hl)

/-- What is sent fits into the packet buffer of the other side. -/
def Fits (R : ℕ) (q : List Byte) : Prop := 29 ≤ q.length ∧ q.length ≤ 2 ^ R - 2

instance (R : ℕ) (q : List Byte) : Decidable (Fits R q) := inferInstanceAs (Decidable (_ ∧ _))

theorem length_frame_le (hR : 6 ≤ R) (cfg : RmiiMac.Config) {ms : List ArpFramer.Packet}
    (hms : ∀ q ∈ ms.filterMap ArpFramer.Packet.data?, Fits R q) {m : ArpFramer.Packet}
    (hm : m ∈ ms) : 15 ≤ (m.frame cfg).length ∧ (m.frame cfg).length ≤ 2 ^ R + 16 := by
  have hpow : 2 ^ 6 ≤ 2 ^ R := Nat.pow_le_pow_right (by norm_num) hR
  rw [ArpFramer.Packet.frame, EthernetFrame.length_frame]
  cases m with
  | data q =>
    obtain ⟨h₁, h₂⟩ := hms q (List.mem_filterMap.mpr ⟨_, hm, rfl⟩)
    simp only [ArpFramer.Packet.payload]
    omega
  | reply tha tpa =>
    simp only [ArpFramer.Packet.payload, Arp.length_arpPacket]
    omega
  | announcement =>
    simp only [ArpFramer.Packet.payload, Arp.length_arpPacket]
    omega

/-- Of the frames of the one side the other one delivers the data packets. -/
theorem delivered_frame {cfg cfg' : RmiiMac.Config} (hdest : cfg.destinationMac = cfg'.mac)
    (m : ArpFramer.Packet) :
    EthernetDeframer.delivered (rxConfig cfg') (m.frame cfg) = m.data?.toList.flatMap beats := by
  have harp (dst src : BitVec 48) (q : List Byte) :
      EthernetDeframer.delivered (rxConfig cfg') (EthernetFrame.frame dst src true q) = [] :=
    if_neg fun h => absurd h.1.2.2 (by simp [EthernetFrame.frame, EthernetFrame.header,
      EthernetFrame.macBytes])
  cases m with
  | data q =>
    have hmatches : EthernetDeframer.Matches (rxConfig cfg')
        (EthernetFrame.frame cfg.destinationMac cfg.mac false q) := by
      rw [hdest]
      exact ⟨.inl rfl, fun h => absurd h Bool.false_ne_true, rfl⟩
    change EthernetDeframer.delivered (rxConfig cfg')
      (EthernetFrame.frame cfg.destinationMac cfg.mac false q) = _
    rw [EthernetDeframer.delivered, if_pos ⟨hmatches, EthernetFrame.checked_frame _ _ _ _⟩,
      EthernetDeframer.payloadOf_frame]
    simp [ArpFramer.Packet.data?]
  | reply tha tpa => exact harp _ _ _
  | announcement => exact harp _ _ _

theorem flatMap_delivered_frame {cfg cfg' : RmiiMac.Config}
    (hdest : cfg.destinationMac = cfg'.mac) (ms : List ArpFramer.Packet) :
    (ms.map (ArpFramer.Packet.frame cfg)).flatMap (EthernetDeframer.delivered (rxConfig cfg')) =
      (ms.filterMap ArpFramer.Packet.data?).flatMap beats := by
  induction ms with
  | nil => rfl
  | cons m ms ih =>
    rw [List.map_cons, List.flatMap_cons, ih, delivered_frame hdest]
    cases hm : m.data? <;> simp [hm]

/-- What is known of a run of the two sides: the packets `ms` of the one, the frames it has
completed and the bytes that the other one has captured. -/
structure Carried (cfg : Bool → RmiiMac.Config) (k : Bool) (x : State T R) (es : List Edge)
    (ms : List ArpFramer.Packet) : Prop where
  data : ms.filterMap ArpFramer.Packet.data? =
    packets (collect RmiiMac.step accepted (x k) (side k x es))
  framed : ArpFramer.Drained (run step x es k).arpFramer →
    packets (collect RmiiMac.step framed (x k) (side k x es)) =
      ms.map (ArpFramer.Packet.frame (cfg k))
  captured : collect RmiiMac.step captured (x !k) (side (!k) x es) <+:
    (ms.map (ArpFramer.Packet.frame (cfg k))).flatMap beats
  lengths : ∀ f ∈ ms.map (ArpFramer.Packet.frame (cfg k)), 15 ≤ f.length ∧ f.length ≤ 2 ^ R + 16

theorem exists_carried (hT : 1 ≤ T) (hR : 6 ≤ R) (ht : TransmitIdle (x k)) (hr : LineIdle (x !k))
    (hsteady : ∀ e ∈ es, Steady cfg e)
    (hfits : ∀ q ∈ packets (collect RmiiMac.step accepted (x k) (side k x es)), Fits R q) :
    ∃ ms, Carried cfg k x es ms := by
  obtain ⟨ms, hdata, -, hframes, hall⟩ :=
    framed_isPrefix ht.arpFramer (steady_side hsteady) fun q hq => (hfits q hq).1
  rw [run_side] at hall
  refine ⟨ms, hdata, fun hd => packets_framed (hall hd),
    (captured_isPrefix hT ht hr hsteady).trans (hframes.flatMap _), ?_⟩
  intro f hf
  obtain ⟨m, hm, rfl⟩ := List.mem_map.mp hf
  exact length_frame_le hR _ (by rwa [hdata]) hm

variable {ms : List ArpFramer.Packet}

/-- The frames that are captured, the one in progress included. -/
theorem Carried.of_mem_captured (h : Carried cfg k x es ms) :
    packets (collect RmiiMac.step RmiiMac.captured (x !k) (side (!k) x es)) <+:
        ms.map (ArpFramer.Packet.frame (cfg k)) ∧
      ∀ f ∈ packets (collect RmiiMac.step RmiiMac.captured (x !k) (side (!k) x es)) ++
        [openPacket (collect RmiiMac.step RmiiMac.captured (x !k) (side (!k) x es))],
        f.length ≤ 2 ^ R + 16 := by
  have hne : ∀ f ∈ ms.map (ArpFramer.Packet.frame (cfg k)), f ≠ [] := fun f hf =>
    List.ne_nil_of_length_pos (lt_of_lt_of_le (by norm_num) (h.lengths f hf).1)
  obtain ⟨hpackets, hopen⟩ := packets_flatMap_beats hne
  have hpre := packets_prefix h.captured
  rw [hpackets] at hpre
  refine ⟨hpre, fun f hf => ?_⟩
  rcases List.mem_append.mp hf with hf | hf
  · exact (h.lengths f (hpre.subset hf)).2
  · obtain rfl := List.mem_singleton.mp hf
    obtain ⟨bs, hbs⟩ := h.captured
    obtain ⟨g, hg, hle⟩ := exists_openPacket_prefix
      (collect RmiiMac.step RmiiMac.captured (x !k) (side (!k) x es)) bs
    rw [hbs, hpackets, hopen] at hg
    rcases List.mem_append.mp hg with hg | hg
    · exact hle.length_le.trans (h.lengths g hg).2
    · obtain rfl := List.mem_singleton.mp hg
      exact hle.length_le.trans (Nat.zero_le _)

theorem Carried.undisturbed (h : Carried cfg k x es ms) (hr : ReceiveIdle (x !k))
    (hsteady : ∀ e ∈ es, Steady cfg e) (hpaces : Paces 3 (Edge.isUser !k) Edge.isLine es) :
    Always RmiiMac.step Undisturbed (x !k) (side (!k) x es) := by
  refine undisturbed_of_checked hr (steady_side hsteady) (paces_side hpaces)
    (fun f hf => (h.lengths f (h.of_mem_captured.1.subset hf)).1) (fun f hf => ?_) h.captured
  obtain ⟨m, -, rfl⟩ := List.mem_map.mp hf
  exact ⟨List.cons_ne_nil _ _, EthernetFrame.checked_frame _ _ _ _⟩

/-- When the one side has nothing on its way, the other one has captured all its frames, and it
captures nothing while the line is quiet. -/
theorem captured_of_drained {fs gs : List Edge} (hT : 1 ≤ T) (ht : TransmitIdle (x k))
    (hr : LineIdle (x !k)) (hsteady : ∀ e ∈ fs ++ gs, Steady cfg e)
    (hdrained : RmiiMac.Drained (run step x fs k))
    (hquiet : ∀ d ∈ collect RmiiMac.step RmiiMac.line (run step x fs k)
      (side k (run step x fs) gs), d.1 = false) :
    collect RmiiMac.step captured (x !k) (side (!k) x fs) =
        (packets (collect RmiiMac.step framed (x k) (side k x fs))).flatMap beats ∧
      collect RmiiMac.step captured (run step x fs !k) (side (!k) (run step x fs) gs) = [] := by
  have hfs : ∀ e ∈ fs, Steady cfg e := fun e he => hsteady e (List.mem_append_left _ he)
  have hgs : ∀ e ∈ gs, Steady cfg e := fun e he => hsteady e (List.mem_append_right _ he)
  obtain ⟨ns, n, hlength, hgapped, hn, hl⟩ := line_of_drained hT ht (steady_side hfs)
    (by rw [run_side]; exact hdrained)
  have hps : ∀ q ∈ packets (collect RmiiMac.step framed (x k) (side k x fs)), q ≠ [] :=
    fun _ => ne_nil_of_mem_packets
  generalize packets (collect RmiiMac.step framed (x k) (side k x fs)) = ps at *
  -- the last state of the line has not been heard
  obtain ⟨m, rfl⟩ : ∃ m, n = m + 1 := by
    refine Nat.exists_eq_succ_of_ne_zero ?_
    rintro rfl
    have hnone : ps = [] := by
      by_contra hne
      exact absurd (hn hne) (by norm_num)
    subst hnone
    obtain rfl : ns = [] := List.eq_nil_of_length_eq_zero hlength
    exact absurd hl (List.concat_ne_nil _ _)
  rw [lineSoFar, RmiiMacTx.quiet_succ, ← List.append_assoc] at hl
  have hheard := List.append_inj_left' hl rfl
  obtain ⟨h₁, h₂, h₃⟩ := hr.rmiiMacRx.1.run_frames hr.rmiiMacRx.2 hps ⟨hlength, hgapped⟩
    (show ps ≠ [] → 4 ≤ m by intro hne; have := hn hne; omega)
  rw [← hheard] at h₁ h₂ h₃
  have hunreset := unreset_side hfs hr.unreset
  rw [← rmiiMacRx_side hfs hr.unreset] at h₁
  refine ⟨(captured_side hfs hr.unreset).trans h₃, ?_⟩
  rw [captured_side hgs hunreset]
  generalize collect RmiiMac.step RmiiMac.line (run step x fs k)
    (side k (run step x fs) gs) = ds at hquiet ⊢
  have hoff : RmiiMacRx.hearing ds = RmiiMacRx.quiet (ds.map Prod.snd) := by
    rw [RmiiMacRx.hearing, RmiiMacRx.quiet, List.map_map]
    refine List.map_congr_left fun d hd => ?_
    rw [hquiet d hd]
    rfl
  rw [hoff]
  exact (h₁.run_quiet _).2.2

theorem countP_side (k : Bool) (x : State T R) (es : List Edge) :
    (side k x es).countP RmiiMac.Edge.isUser = es.countP (Edge.isUser k) := by
  unfold side
  induction es generalizing x with
  | nil => rfl
  | cons e es ih =>
    rw [collect_cons, List.countP_append, ih, List.countP_cons, Nat.add_comm]
    cases e with
    | line => rfl
    | user j i => by_cases hj : j = k <;> simp [edgesOf, Edge.isUser, RmiiMac.Edge.isUser, hj]

theorem side_append (k : Bool) (x : State T R) (fs gs : List Edge) :
    side k x (fs ++ gs) = side k x fs ++ side k (run step x fs) gs := collect_append _ _ _

section Delivery

variable {fs gs : List Edge} (hT : 1 ≤ T) (hR : 6 ≤ R) (ht : TransmitIdle (x k))
  (hr : ReceiveIdle (x !k)) (hdest : (cfg k).destinationMac = (cfg !k).mac)

include hT hR ht hr hdest

/-- The one user is shown only what the other one has sent. -/
theorem shown_peer_isPrefix (hsteady : ∀ e ∈ es, Steady cfg e)
    (hpaces : Paces 3 (Edge.isUser !k) Edge.isLine es)
    (hfits : ∀ q ∈ packets (collect RmiiMac.step accepted (x k) (side k x es)), Fits R q) :
    collect RmiiMac.step shown (x !k) (side (!k) x es) <+:
      (packets (collect RmiiMac.step accepted (x k) (side k x es))).flatMap beats := by
  obtain ⟨ms, hms⟩ := exists_carried hT hR ht hr.toLineIdle hsteady hfits
  obtain ⟨hcaptured, hlong⟩ := hms.of_mem_captured
  have hshort : ∀ f ∈ packets (collect RmiiMac.step captured (x !k) (side (!k) x es)),
      15 ≤ f.length := fun f hf => (hms.lengths f (hcaptured.subset hf)).1
  refine (shown_isPrefix (by omega) hr (steady_side hsteady) (paces_side hpaces) hshort hlong
    (hms.undisturbed hr hsteady hpaces)).trans ?_
  rw [← hms.data, ← flatMap_delivered_frame hdest]
  exact hcaptured.flatMap _

/-- What has been sent has been shown when the line has been quiet. -/
theorem shown_peer_eq (hsteady : ∀ e ∈ fs ++ gs, Steady cfg e)
    (hpaces : Paces 3 (Edge.isUser !k) Edge.isLine (fs ++ gs))
    (hfits : ∀ q ∈ packets (collect RmiiMac.step accepted (x k) (side k x (fs ++ gs))), Fits R q)
    (hdrained : RmiiMac.Drained (run step x fs k))
    (hquiet : ∀ d ∈ collect RmiiMac.step RmiiMac.line (run step x fs k)
      (side k (run step x fs) gs), d.1 = false)
    (hcount : 2 ^ R + 6 ≤ gs.countP (Edge.isUser !k)) :
    collect RmiiMac.step shown (x !k) (side (!k) x (fs ++ gs)) =
      (packets (collect RmiiMac.step accepted (x k) (side k x fs))).flatMap beats := by
  obtain ⟨ms, hms⟩ := exists_carried hT hR ht hr.toLineIdle hsteady hfits
  obtain ⟨hcaptured, hlong⟩ := hms.of_mem_captured
  have hshort : ∀ f ∈ packets (collect RmiiMac.step captured (x !k) (side (!k) x (fs ++ gs))),
      15 ≤ f.length := fun f hf => (hms.lengths f (hcaptured.subset hf)).1
  have hbad := hms.undisturbed hr hsteady hpaces
  have hfs : ∀ e ∈ fs, Steady cfg e := fun e he => hsteady e (List.mem_append_left _ he)
  obtain ⟨hall, hnone⟩ := captured_of_drained hT ht hr.toLineIdle hsteady hdrained hquiet
  have hfits' : ∀ q ∈ packets (collect RmiiMac.step accepted (x k) (side k x fs)), Fits R q := by
    intro q hq
    refine hfits q ?_
    rw [side_append, collect_append]
    exact mem_packets_append _ hq
  obtain ⟨ns, hns⟩ := exists_carried hT hR ht hr.toLineIdle hfs hfits'
  have hframed := hns.framed hdrained.arpFramer
  have hne : ∀ f ∈ packets (collect RmiiMac.step framed (x k) (side k x fs)), f ≠ [] :=
    fun _ => ne_nil_of_mem_packets
  have hsteady' : ∀ e ∈ side (!k) x (fs ++ gs), RmiiMac.Steady (cfg !k) e := steady_side hsteady
  have hpaces' := paces_side (x := x) hpaces
  rw [side_append] at hsteady' hpaces' hshort hlong hbad ⊢
  have hcaught : collect RmiiMac.step captured (x !k)
      (side (!k) x fs ++ side (!k) (run step x fs) gs) =
      (packets (collect RmiiMac.step framed (x k) (side k x fs))).flatMap beats := by
    rw [collect_append, run_side, hall, hnone, List.append_nil]
  rw [shown_eq (by omega) hr hsteady' hpaces' hshort hlong hbad (by rw [run_side]; exact hnone)
    (by rw [countP_side]; exact hcount), hcaught, (packets_flatMap_beats hne).1, hframed,
    flatMap_delivered_frame hdest, hns.data]

end Delivery

/-- **From user to user.** Two `rmii_mac` with crossed lines, at every interleaving of their user
clocks with the clock of the line, in which the addresses do not change and the user clock of the
receiving side is not left out at four edges of the line in a row. If one side sends to the address
of the other, and its packets have at least 29 bytes and fit into the packet buffer there, then the
user of the other side is shown these packets, in order and nothing else, whatever is sent by `arp`
and in the other direction. All those accepted until the sending side had nothing on its way are
shown when the line has been quiet for `2 ^ R + 6` edges of the other user clock. -/
theorem shown_accepted_peer (cfg : Bool → RmiiMac.Config) (k : Bool) (hT : 1 ≤ T) (hR : 6 ≤ R)
    (ht : TransmitIdle (x k)) (hr : ReceiveIdle (x !k)) (hsteady : ∀ e ∈ es, Steady cfg e)
    (hdest : (cfg k).destinationMac = (cfg !k).mac)
    (hpaces : Paces 3 (Edge.isUser !k) Edge.isLine es)
    (hfits : ∀ q ∈ packets (collect RmiiMac.step accepted (x k) (side k x es)), Fits R q) :
    collect RmiiMac.step shown (x !k) (side (!k) x es) <+:
        (packets (collect RmiiMac.step accepted (x k) (side k x es))).flatMap beats ∧
      ∀ fs gs, es = fs ++ gs → RmiiMac.Drained (run step x fs k) →
        (∀ d ∈ collect RmiiMac.step RmiiMac.line (run step x fs k) (side k (run step x fs) gs),
          d.1 = false) →
        2 ^ R + 6 ≤ gs.countP (Edge.isUser !k) →
        collect RmiiMac.step shown (x !k) (side (!k) x es) =
          (packets (collect RmiiMac.step accepted (x k) (side k x fs))).flatMap beats := by
  refine ⟨shown_peer_isPrefix hT hR ht hr hdest hsteady hpaces hfits, ?_⟩
  rintro fs gs rfl hdrained hquiet hcount
  exact shown_peer_eq hT hR ht hr hdest hsteady hpaces hfits hdrained hquiet hcount

/-- Two sides that send to each other. -/
def benchConfig (k : Bool) : RmiiMac.Config :=
  if k then ⟨0x001122334455, 0x0A000001, 0x0A0B0C0D0E0F⟩
  else ⟨0x0A0B0C0D0E0F, 0x0A000002, 0x001122334455⟩

/-- The ports of a side to which nothing is offered. -/
def quietInputs (k : Bool) : UserInputs where
  sourceMacIn := (benchConfig k).mac
  ipAddressIn := (benchConfig k).ip
  destinationMacIn := (benchConfig k).destinationMac

/-- The ports of a side to which a byte is offered. -/
def byteInputs (k last : Bool) : UserInputs :=
  { quietInputs k with mTxAxisTdata := 0xAB, mTxAxisTvalid := true, mTxAxisTlast := last }

/-- The one side accepts a packet of 29 bytes, and the line, three times as fast as the clock of
the other side, carries its frame. -/
def benchPacket : List Edge :=
  List.replicate 43 (.user true (byteInputs true false)) ++ [.user true (byteInputs true true)] ++
    List.replicate 20 (.user true (quietInputs true)) ++
    (List.replicate 112 [.line, .line, .line, .user false (quietInputs false)]).flatten

/-- The line is quiet. -/
def benchQuiet : List Edge :=
  (List.replicate 24 [.line, .line, .line, .user false (quietInputs false),
    .user false (quietInputs false), .user false (quietInputs false)]).flatten

/-- The packet is shown to the other side. -/
theorem shown_accepted_peer_one :
    collect RmiiMac.step shown (idle 6 6)
        (side false (fun _ => idle 6 6) (benchPacket ++ benchQuiet)) =
      beats (List.replicate 29 0xAB) := by
  have hpackets : packets (collect RmiiMac.step accepted (idle 6 6)
      (side true (fun _ => idle 6 6) (benchPacket ++ benchQuiet))) = [List.replicate 29 0xAB] := by
    decide +kernel
  have hbefore : packets (collect RmiiMac.step accepted (idle 6 6)
      (side true (fun _ => idle 6 6) benchPacket)) = [List.replicate 29 0xAB] := by decide +kernel
  obtain ⟨-, hdelivers⟩ := shown_accepted_peer (x := fun _ => idle 6 6) benchConfig true
    (show 1 ≤ 6 by decide) (show 6 ≤ 6 from le_rfl) (idle_transmitIdle 6 6) (idle_receiveIdle 6 6)
    (show ∀ e ∈ benchPacket ++ benchQuiet, Steady benchConfig e by decide +kernel) rfl
    (by decide +kernel) (by rw [hpackets]; decide)
  have hall := hdelivers benchPacket benchQuiet rfl (by decide +kernel) (by decide +kernel)
    (by decide +kernel)
  rw [hbefore] at hall
  simpa using hall

end RmiiEthernet.RmiiMacPeers
