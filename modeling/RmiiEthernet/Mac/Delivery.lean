import RmiiEthernet.Mac.Receive

/-!
# The payloads for the user

What `ethernet_deframer` and `rx_packet_buffer` make of the bytes that come over from the line. The
deframer passes the payload of a frame for the own address and marks its last byte if the check
sequence is wrong; the buffer drops the payloads that are marked. So the user gets the payloads of
the intact frames (`shown_delivered`).
-/

namespace RmiiEthernet.EthernetDeframer

open Sync EthernetFcs EthernetFrame

variable {cfg : Config} {s : State}

/-- Nothing is in progress. -/
structure Resting (s : State) : Prop where
  deframerState : s.deframerState = .idle
  fcsReset : s.fcsReset = false
  crcReg : s.fcs.crcReg = circuitRegister []
  deframedTvalidR1 : s.deframedTvalidR1 = false
  mAxisTvalid : s.mAxisTvalid = false
  fifo : CircularBuffer.Holds s.fifo []

theorem Resting.owes (h : Resting s) : Owes cfg (s, ⟨[], false⟩) [] [] := by
  have hadm : Admitted cfg [] := ⟨by simp, by simp, by simp⟩
  refine ⟨⟨⟨?_, ⟨_, rfl⟩, fun _ => ⟨_, rfl⟩⟩, h.fcsReset, h.crcReg, ⟨[], ?_, h.fifo⟩, by simp⟩,
    rfl, ?_⟩
  · simp [h.deframerState, stateAfter, hadm, stateAt]
  · simp [held, h.deframedTvalidR1, payloadAndFcs]
  · simp [output, leaving, deframedTvalidR6, h.mAxisTvalid, h.deframedTvalidR1]

theorem AfterReset.resting (h : AfterReset s) : Resting s := by
  obtain ⟨s₀, i, hp, hi, rfl⟩ := h
  have hfifo : CircularBuffer.Holds (step s₀ i).fifo [] := by
    simpa [held, hp.payloadFinished, hp.deframedTvalidR1, List.rtake] using
      holds_next hp.holds_nil i
  refine ⟨?_, ?_, ?_, ?_, ?_, hfifo⟩
  · simp [step, hi]
  · simp [step, deframes, drops, hp.deframerState]
  · simp [step, hi, EthernetFcs.step, circuitRegister_nil]
  · simp [step, hi]
  · simp [step, hi]

/-- The words of the payload of a frame as they go to the packet buffer: `tuser` is set on the last
one if the check sequence is wrong. -/
def words (f : List Byte) : List (Byte × Bool) :=
  (beats (payloadOf f)).map fun b => (b.1, b.2 && !decide (Checked f))

/-- A beat of the output as the packet buffer gets it. -/
def toBuffer (b : OutBeat) : (Byte × Bool) × Bool := ((b.1, b.2.2), b.2.1)

theorem map_toBuffer_deframed (cfg : Config) (f : List Byte) :
    (deframed cfg f).map toBuffer = if Matches cfg f then beats (words f) else [] := by
  rw [deframed, words, beats_map_beats]
  split
  · rw [List.map_map]
    rfl
  · rfl

theorem map_toBuffer_deframing (cfg : Config) (f : List Byte) :
    (deframing cfg f).map toBuffer =
      (if Matches cfg f then (payloadOf f).map (·, false) else []).map (·, false) := by
  rw [deframing]
  split
  · rw [List.map_map, List.map_map]
    rfl
  · rfl

/-- **What the user should get of a frame**: the payload of an intact one for the address. -/
def delivered (cfg : Config) (f : List Byte) : List (Byte × Bool) :=
  if Matches cfg f ∧ Checked f then beats (payloadOf f) else []

theorem map_fst_words (f : List Byte) : (words f).map Prod.fst = payloadOf f := by
  rw [words, List.map_map]
  exact map_fst_beats _

theorem length_words (f : List Byte) : (words f).length = (payloadOf f).length := by
  rw [← map_fst_words f, List.length_map]

theorem goodBeats_words (f : List Byte) :
    RxPacketBuffer.goodBeats (words f) = if Checked f then beats (payloadOf f) else [] := by
  unfold RxPacketBuffer.goodBeats RxPacketBuffer.isBad
  rw [map_fst_words]
  rcases List.eq_nil_or_concat (payloadOf f) with hnil | ⟨q, x, hq⟩
  · simp [words, hnil]
  · rw [List.concat_eq_append] at hq
    by_cases hc : Checked f <;> simp [words, hq, beats_concat, hc]

/-- The packets that the buffer gets for frames and the beginning of another one. -/
theorem packets_map_toBuffer (cfg : Config) (fs : List (List Byte)) (f : List Byte) :
    let bs := (fs.flatMap (deframed cfg) ++ deframing cfg f).map toBuffer
    packets bs = ((fs.filter fun f => Matches cfg f).map words).filter (fun p => !p.isEmpty) ∧
      openPacket bs = if Matches cfg f then (payloadOf f).map (·, false) else [] := by
  intro bs
  have hne : ∀ p ∈ ((fs.filter fun f => Matches cfg f).map words).filter (fun p => !p.isEmpty),
      p ≠ [] := by
    intro p hp hnil
    simp [hnil] at hp
  have hbs : bs = (((fs.filter fun f => Matches cfg f).map words).filter
      (fun p => !p.isEmpty)).flatMap beats ++
        (if Matches cfg f then (payloadOf f).map (·, false) else []).map (·, false) := by
    simp only [bs]
    rw [List.map_append, map_toBuffer_deframing]
    congr 1
    clear hne bs
    induction fs with
    | nil => rfl
    | cons q fs ih =>
      rw [List.flatMap_cons, List.map_append, ih, map_toBuffer_deframed]
      by_cases hm : Matches cfg q
      · cases hw : words q <;> simp [hm, hw]
      · simp [hm]
  rw [hbs]
  exact packets_flatMap_beats_append hne _

/-- The buffer keeps of them what the user should get. -/
theorem flatMap_goodBeats (cfg : Config) (fs : List (List Byte)) :
    (((fs.filter fun f => Matches cfg f).map words).filter (fun p => !p.isEmpty)).flatMap
      RxPacketBuffer.goodBeats = fs.flatMap (delivered cfg) := by
  induction fs with
  | nil => rfl
  | cons f fs ih =>
    rw [List.flatMap_cons, ← ih, delivered]
    have hgood := goodBeats_words f
    by_cases hm : Matches cfg f
    · cases hw : words f with
      | nil =>
        have hnil : payloadOf f = [] := by rw [← map_fst_words, hw]; rfl
        simp [hm, hw, hnil]
      | cons b p =>
        rw [hw] at hgood
        simp [hm, hw, hgood]
    · simp [hm]

end RmiiEthernet.EthernetDeframer

namespace RmiiEthernet.RmiiMac

open Sync EthernetFcs EthernetFrame EthernetDeframer

variable {T R : ℕ} {cfg : Config} {s : State T R} {es fs gs : List Edge}

/-! ## The parts -/

/-- The configuration of the deframer: any sender, the own address. -/
def rxConfig (cfg : Config) : EthernetDeframer.Config := ⟨false, 0, cfg.mac⟩

/-- What `rx_packet_buffer` gets at an edge. -/
def rxPacketBufferIn (s : State T R) : Edge → List (RxPacketBuffer.Inputs Byte)
  | .user i => [rxPacketBufferInputs s i]
  | .phy _ _ => []

theorem clocked_rxPacketBuffer :
    Clocked RxPacketBuffer.step State.rxPacketBuffer (step (T := T) (R := R)) rxPacketBufferIn := by
  intro s e
  cases e <;> rfl

/-- The beat that arrives at the packet buffer at an edge. -/
def buffered (s : State T R) : Edge → List ((Byte × Bool) × Bool)
  | .user i => RxPacketBuffer.arrived s.rxPacketBuffer (rxPacketBufferInputs s i)
  | .phy _ _ => []

theorem collect_deframer_arrived (s : State T R) (es : List Edge) :
    collect EthernetDeframer.step arrived s.ethernetDeframer
      (collect step ethernetDeframerIn s es) = collect step received s es := by
  rw [clocked_ethernetDeframer.collect_eq]
  congr 1
  funext s e
  cases e <;> simp [ethernetDeframerIn, received]

theorem collect_buffered (s : State T R) (es : List Edge) :
    collect step buffered s es = (collect EthernetDeframer.step EthernetDeframer.shown
      s.ethernetDeframer (collect step ethernetDeframerIn s es)).map toBuffer := by
  rw [clocked_ethernetDeframer.collect_eq, ← List.flatMap_pure_eq_map, ← collect_flatMap]
  congr 1
  funext s e
  cases e with
  | user i =>
    cases hv : s.ethernetDeframer.mAxisTvalid <;>
      simp [ethernetDeframerIn, buffered, EthernetDeframer.shown, output, RxPacketBuffer.arrived,
        rxPacketBufferInputs, toBuffer, hv]
  | phy crsDv rxd => rfl

theorem collect_buffer_arrived (s : State T R) (es : List Edge) :
    collect RxPacketBuffer.step RxPacketBuffer.arrived s.rxPacketBuffer
      (collect step rxPacketBufferIn s es) = collect step buffered s es := by
  rw [clocked_rxPacketBuffer.collect_eq]
  congr 1
  funext s e
  cases e <;> simp [rxPacketBufferIn, buffered]

theorem collect_buffer_shown (s : State T R) (es : List Edge) :
    collect RxPacketBuffer.step RxPacketBuffer.shown s.rxPacketBuffer
      (collect step rxPacketBufferIn s es) = collect step shown s es := by
  rw [clocked_rxPacketBuffer.collect_eq]
  congr 1
  funext s e
  cases e <;> simp [rxPacketBufferIn, shown]

/-- Nothing is in progress in the receive direction. -/
structure ReceiveIdle (s : State T R) : Prop extends LineIdle s where
  ethernetDeframer : EthernetDeframer.Resting s.ethernetDeframer
  rxPacketBuffer : RxPacketBuffer.Owes s.rxPacketBuffer [] []

theorem idle_receiveIdle (T R : ℕ) : ReceiveIdle (idle T R) where
  unreset := ⟨rfl, rfl, rfl⟩
  rmiiMacRx := RmiiMacRx.silent_afterReset RmiiMacRx.afterReset_cleared
  afifo := (PacketAfifo.initial_powerUp 11).afifo
  ethernetDeframer := EthernetDeframer.cleared_afterReset.resting
  rxPacketBuffer := RxPacketBuffer.owes_afterReset RxPacketBuffer.cleared_afterReset

/-! ## The deframer -/

theorem steady_ethernetDeframerIn (hsteady : ∀ e ∈ es, Steady cfg e) :
    Always EthernetDeframer.step (EthernetDeframer.Steady (rxConfig cfg)) s.ethernetDeframer
      (collect step ethernetDeframerIn s es) := by
  rw [clocked_ethernetDeframer.always_iff]
  refine (always_of_forall hsteady s).mono fun s e he => ?_
  cases e with
  | user i => exact ⟨⟨he.1, he.2.2.2.2, rfl, rfl, he.2.1⟩, trivial⟩
  | phy crsDv rxd => trivial

/-- What the deframer should make of the bytes that have been captured, for the packet buffer. -/
def payloads (cfg : Config) (bs : List (Byte × Bool)) : List ((Byte × Bool) × Bool) :=
  (expected (rxConfig cfg) bs).map toBuffer

theorem payloads_isPrefix {bs cs : List (Byte × Bool)} (h : bs <+: cs) :
    payloads cfg bs <+: payloads cfg cs := by
  have hmono : expected (rxConfig cfg) bs <+: expected (rxConfig cfg) cs := by
    rw [expected, expected, ← collect_deframedBy, ← collect_deframedBy]
    exact collect_prefix [] h
  exact hmono.map _

theorem received_isPrefix (h : LineIdle s) (hsteady : ∀ e ∈ es, Steady cfg e)
    (hpaces : Paces 3 Edge.isUser Edge.isPhy es) :
    collect step received s es <+: collect step captured s es := by
  obtain ⟨l, hl⟩ := arrives_run h hsteady hpaces
  exact ⟨_, hl.captured_eq.symm⟩

theorem buffered_isPrefix (h : ReceiveIdle s) (hsteady : ∀ e ∈ es, Steady cfg e)
    (hpaces : Paces 3 Edge.isUser Edge.isPhy es)
    (hshort : ∀ q ∈ packets (collect step captured s es), 15 ≤ q.length) :
    collect step buffered s es <+: payloads cfg (collect step captured s es) := by
  obtain ⟨p, -, e⟩ := run_of_owes h.ethernetDeframer.owes (steady_ethernetDeframerIn hsteady)
    (allows_run h.toLineIdle hsteady hpaces hshort)
  rw [collect_deframer_arrived] at e
  rw [collect_buffered]
  refine List.IsPrefix.trans ?_ (payloads_isPrefix (received_isPrefix h.toLineIdle hsteady hpaces))
  rw [payloads, e]
  exact (List.prefix_append _ _).map _

/-- What has come over is deframed two edges of the user clock later. -/
theorem buffered_eq (h : ReceiveIdle s) (hsteady : ∀ e ∈ fs ++ gs, Steady cfg e)
    (hpaces : Paces 3 Edge.isUser Edge.isPhy (fs ++ gs))
    (hshort : ∀ q ∈ packets (collect step captured s (fs ++ gs)), 15 ≤ q.length)
    (hnone : collect step received (run step s fs) gs = [])
    (hcount : 2 ≤ gs.countP Edge.isUser) :
    collect step buffered s (fs ++ gs) = payloads cfg (collect step received s (fs ++ gs)) := by
  have hidle : ∀ i ∈ collect step ethernetDeframerIn (run step s fs) gs, i.sAxisTvalid = false := by
    intro i hi
    obtain ⟨es₁, e, es₂, rfl, hmem⟩ := mem_collect_iff.mp hi
    cases e with
    | phy crsDv rxd => cases hmem
    | user j =>
      obtain rfl := List.mem_singleton.mp hmem
      rw [collect_append, collect_cons, List.append_eq_nil_iff, List.append_eq_nil_iff] at hnone
      have hone := hnone.2.1
      simpa [received, arrived] using hone
  have hlength : (collect step ethernetDeframerIn (run step s fs) gs).length =
      gs.countP Edge.isUser := by
    generalize run step s fs = s₁
    clear hidle hnone hcount hshort hpaces hsteady
    induction gs generalizing s₁ with
    | nil => rfl
    | cons e gs ih =>
      rw [collect_cons, List.length_append, ih, List.countP_cons, Nat.add_comm]
      cases e <;> rfl
  have hsteady' := steady_ethernetDeframerIn (s := s) hsteady
  have hline := allows_run h.toLineIdle hsteady hpaces hshort
  rw [collect_buffered, payloads, ← collect_deframer_arrived]
  rw [collect_append] at hsteady' hline ⊢
  rw [← hlength] at hcount
  generalize collect step ethernetDeframerIn (run step s fs) gs = ks at *
  rcases List.eq_nil_or_concat ks with rfl | ⟨ks, j, rfl⟩
  · simp at hcount
  rcases List.eq_nil_or_concat ks with rfl | ⟨ks, i, rfl⟩
  · simp at hcount
  simp only [List.concat_eq_append, List.append_assoc, List.singleton_append] at *
  rw [← List.append_assoc] at hsteady' hline ⊢
  rw [shown_of_idle h.ethernetDeframer.owes hsteady' hline (hidle i (by simp))
    (hidle j (by simp))]

/-! ## The packet buffer -/

/-- No packet with a wrong check sequence ends while the read side of the packet buffer holds one of
its words. -/
def Undisturbed (s : State T R) : Edge → Prop
  | .user i => ¬ (RxPacketBuffer.packetBad (rxPacketBufferInputs s i) = true ∧
      RxPacketBuffer.fetchesOpenPacket s.rxPacketBuffer = true)
  | .phy _ _ => True

instance (s : State T R) (e : Edge) : Decidable (Undisturbed s e) :=
  match e with
  | .user _ => inferInstanceAs (Decidable (¬ (_ = true ∧ _ = true)))
  | .phy _ _ => .isTrue trivial

theorem undisturbed_rxPacketBufferIn (hsteady : ∀ e ∈ es, Steady cfg e)
    (hbad : Always step Undisturbed s es) :
    Always RxPacketBuffer.step RxPacketBuffer.Undisturbed s.rxPacketBuffer
      (collect step rxPacketBufferIn s es) := by
  rw [clocked_rxPacketBuffer.always_iff]
  refine ((always_of_forall hsteady s).and hbad).mono fun s e he => ?_
  cases e with
  | user i => exact ⟨⟨he.1.1, he.2⟩, trivial⟩
  | phy crsDv rxd => trivial

theorem goodBeats_payloads (cfg : Config) (bs : List (Byte × Bool)) :
    (packets (payloads cfg bs)).flatMap RxPacketBuffer.goodBeats =
      (packets bs).flatMap (delivered (rxConfig cfg)) := by
  rw [payloads, expected, (packets_map_toBuffer _ _ _).1, flatMap_goodBeats]

/-- A payload is shorter than its frame by header and check sequence. -/
theorem lengthsLe_payloads {L : ℕ} {bs : List (Byte × Bool)}
    (hlong : ∀ f ∈ packets bs ++ [openPacket bs], f.length ≤ L + 18) :
    RxPacketBuffer.LengthsLe L (payloads cfg bs) := by
  have hpayload : ∀ f : List Byte, f.length ≤ L + 18 → (payloadOf f).length ≤ L := by
    intro f hf
    rw [payloadOf, List.length_take]
    omega
  obtain ⟨hpackets, hopen⟩ := packets_map_toBuffer (rxConfig cfg) (packets bs) (openPacket bs)
  refine ⟨fun p hp => ?_, ?_⟩
  · rw [payloads, expected, hpackets] at hp
    obtain ⟨f, hf, rfl⟩ := List.mem_map.mp (List.mem_of_mem_filter hp)
    rw [length_words]
    exact hpayload f (hlong f (List.mem_append_left _ (List.mem_of_mem_filter hf)))
  · rw [payloads, expected, hopen]
    split
    · rw [List.length_map]
      exact hpayload _ (hlong _ (by simp))
    · exact Nat.zero_le _

/-- What is in the packet buffer after a run. -/
theorem sized_rxPacketBuffer (hR : 2 ≤ R) (h : ReceiveIdle s) (hsteady : ∀ e ∈ es, Steady cfg e)
    (hpaces : Paces 3 Edge.isUser Edge.isPhy es)
    (hshort : ∀ f ∈ packets (collect step captured s es), 15 ≤ f.length)
    (hlong : ∀ f ∈ packets (collect step captured s es) ++
      [openPacket (collect step captured s es)], f.length ≤ 2 ^ R + 16)
    (hbad : Always step Undisturbed s es) :
    ∃ p, RxPacketBuffer.Sized (2 ^ R - 2) (run step s es).rxPacketBuffer
        (openPacket (collect step buffered s es)) p ∧
      (packets (collect step buffered s es)).flatMap RxPacketBuffer.goodBeats =
        collect step shown s es ++ p := by
  have hpow : 2 ^ 2 ≤ 2 ^ R := Nat.pow_le_pow_right (by norm_num) hR
  have hstart : RxPacketBuffer.Sized (2 ^ R - 2) s.rxPacketBuffer [] [] :=
    ⟨h.rxPacketBuffer, by simp, fun hne => absurd rfl hne⟩
  have hlengths : RxPacketBuffer.LengthsLe (2 ^ R - 2) (collect step buffered s es) := by
    obtain ⟨cs, hcs⟩ := buffered_isPrefix h hsteady hpaces hshort
    have hall : RxPacketBuffer.LengthsLe (2 ^ R - 2) (collect step buffered s es ++ cs) := by
      rw [hcs]
      exact lengthsLe_payloads fun f hf => (hlong f hf).trans (by omega)
    exact hall.of_append
  rw [← collect_buffer_arrived] at hlengths
  obtain ⟨-, p, hp, e⟩ := RxPacketBuffer.sized_run hstart (by omega) (by omega)
    (undisturbed_rxPacketBufferIn hsteady hbad) hlengths
  rw [clocked_rxPacketBuffer.run_eq, collect_buffer_arrived] at hp
  rw [collect_buffer_arrived, collect_buffer_shown] at e
  exact ⟨p, hp, e⟩

/-- The words that are left are shown one at each edge of the user clock. -/
theorem shown_rest (hR : 2 ≤ R) {p : List (Byte × Bool)} {g : List (Byte × Bool)}
    (hp : RxPacketBuffer.Sized (2 ^ R - 2) s.rxPacketBuffer g p)
    (hsteady : ∀ e ∈ gs, Steady cfg e) (hnone : collect step buffered s gs = [])
    (hcount : 2 ^ R - 2 ≤ gs.countP Edge.isUser) : collect step shown s gs = p := by
  have hpow : 2 ^ 2 ≤ 2 ^ R := Nat.pow_le_pow_right (by norm_num) hR
  have hidle : ∀ i ∈ collect step rxPacketBufferIn s gs,
      i.reset = false ∧ i.sAxisTvalid = false := by
    intro i hi
    obtain ⟨es₁, e, es₂, rfl, hmem⟩ := mem_collect_iff.mp hi
    cases e with
    | phy crsDv rxd => cases hmem
    | user j =>
      obtain rfl := List.mem_singleton.mp hmem
      rw [collect_append, collect_cons, List.append_eq_nil_iff, List.append_eq_nil_iff] at hnone
      have hone := hnone.2.1
      exact ⟨(hsteady (.user j) (by simp)).1, by
        simpa [buffered, RxPacketBuffer.arrived] using hone⟩
  have hlength : (collect step rxPacketBufferIn s gs).length = gs.countP Edge.isUser := by
    clear hidle hnone hcount hsteady hp
    induction gs generalizing s with
    | nil => rfl
    | cons e gs ih =>
      rw [collect_cons, List.length_append, ih, List.countP_cons, Nat.add_comm]
      cases e <;> rfl
  obtain ⟨p₁, -, e, hlate⟩ := hp.idle_run (by omega) hidle
  have hle := hp.late_le (by omega)
  rw [collect_buffer_shown] at e
  have hnil : p₁ = [] := by
    apply List.eq_nil_of_length_eq_zero
    unfold RxPacketBuffer.late at hlate hle
    omega
  rw [e, hnil, List.append_nil]

/-- When everything has come over, the deframer and the packet buffer pass it on. -/
theorem shown_of_received {ks : List Edge} (hR : 2 ≤ R) (h : ReceiveIdle s)
    (hsteady : ∀ e ∈ fs ++ gs ++ ks, Steady cfg e)
    (hpaces : Paces 3 Edge.isUser Edge.isPhy (fs ++ gs ++ ks))
    (hshort : ∀ f ∈ packets (collect step captured s (fs ++ gs ++ ks)), 15 ≤ f.length)
    (hlong : ∀ f ∈ packets (collect step captured s (fs ++ gs ++ ks)) ++
      [openPacket (collect step captured s (fs ++ gs ++ ks))], f.length ≤ 2 ^ R + 16)
    (hbad : Always step Undisturbed s (fs ++ gs ++ ks))
    (hall : collect step received s fs = collect step captured s (fs ++ gs ++ ks))
    (hgs : 2 ≤ gs.countP Edge.isUser) (hks : 2 ^ R - 2 ≤ ks.countP Edge.isUser) :
    collect step shown s (fs ++ gs ++ ks) =
      (packets (collect step captured s (fs ++ gs ++ ks))).flatMap (delivered (rxConfig cfg)) := by
  have hsub : ∀ e ∈ fs ++ gs, Steady cfg e := fun e he => hsteady e (List.mem_append_left _ he)
  have hpaces₁ := hpaces.of_infix (List.prefix_append (fs ++ gs) ks).isInfix
  have hcaptured : collect step captured s (fs ++ gs) <+:
      collect step captured s (fs ++ gs ++ ks) := collect_prefix s (List.prefix_append _ _)
  have hreceived : collect step received s fs <+: collect step received s (fs ++ gs) :=
    collect_prefix s (List.prefix_append _ _)
  -- nothing comes over any more
  have hmid := received_isPrefix h.toLineIdle hsub hpaces₁
  have hend := received_isPrefix h.toLineIdle hsteady hpaces
  have heq₁ : collect step received s (fs ++ gs) = collect step received s fs :=
    (hreceived.eq_of_length_le (hall ▸ (hmid.trans hcaptured).length_le)).symm
  have heq₂ : collect step captured s (fs ++ gs) = collect step captured s (fs ++ gs ++ ks) := by
    refine hcaptured.eq_of_length_le ?_
    rw [← hall, ← heq₁]
    exact hmid.length_le
  have heq₃ : collect step received s (fs ++ gs ++ ks) = collect step received s fs := by
    have hpre : collect step received s (fs ++ gs) <+: collect step received s (fs ++ gs ++ ks) :=
      Sync.collect_prefix s (List.prefix_append _ _)
    refine ((hreceived.trans hpre).eq_of_length_le ?_).symm
    rw [hall]
    exact hend.length_le
  have hnone : ∀ as, collect step received s (fs ++ as) = collect step received s fs →
      collect step received (run step s fs) as = [] := by
    intro as has
    rw [collect_append] at has
    exact List.append_right_eq_self.mp has
  have hbuffered₁ := buffered_eq h hsub hpaces₁ (heq₂ ▸ hshort) (hnone gs heq₁) hgs
  rw [List.append_assoc] at hsteady hpaces hshort heq₃
  have hbuffered₂ := buffered_eq h hsteady hpaces hshort (hnone _ heq₃)
    (by rw [List.countP_append]; omega)
  rw [heq₃, ← List.append_assoc, collect_append, ← heq₁, ← hbuffered₁,
    List.append_right_eq_self] at hbuffered₂
  obtain ⟨p, hp, e⟩ := sized_rxPacketBuffer hR h hsub hpaces₁
    (by rw [heq₂, List.append_assoc]; exact hshort) (by rw [heq₂]; exact hlong)
    ((always_append _ _ _).mp hbad).1
  have hrest := shown_rest hR hp
    (fun e he => hsteady e (by simp [he])) hbuffered₂ hks
  rw [collect_append, hrest, ← e, hbuffered₁, goodBeats_payloads, heq₁, hall]

/-- What the user is shown is the beginning of what the frames bring. -/
theorem shown_isPrefix (hR : 2 ≤ R) (h : ReceiveIdle s) (hsteady : ∀ e ∈ es, Steady cfg e)
    (hpaces : Paces 3 Edge.isUser Edge.isPhy es)
    (hshort : ∀ f ∈ packets (collect step captured s es), 15 ≤ f.length)
    (hlong : ∀ f ∈ packets (collect step captured s es) ++
      [openPacket (collect step captured s es)], f.length ≤ 2 ^ R + 16)
    (hbad : Always step Undisturbed s es) :
    collect step shown s es <+:
      (packets (collect step captured s es)).flatMap (delivered (rxConfig cfg)) := by
  obtain ⟨p, -, e⟩ := sized_rxPacketBuffer hR h hsteady hpaces hshort hlong hbad
  rw [← goodBeats_payloads]
  refine List.IsPrefix.trans ⟨p, e.symm⟩ ?_
  exact (Sync.packets_prefix (buffered_isPrefix h hsteady hpaces hshort)).flatMap _

/-- Once nothing has been captured for a while, everything has been shown. -/
theorem shown_eq (hR : 2 ≤ R) (h : ReceiveIdle s) (hsteady : ∀ e ∈ fs ++ gs, Steady cfg e)
    (hpaces : Paces 3 Edge.isUser Edge.isPhy (fs ++ gs))
    (hshort : ∀ f ∈ packets (collect step captured s (fs ++ gs)), 15 ≤ f.length)
    (hlong : ∀ f ∈ packets (collect step captured s (fs ++ gs)) ++
      [openPacket (collect step captured s (fs ++ gs))], f.length ≤ 2 ^ R + 16)
    (hbad : Always step Undisturbed s (fs ++ gs))
    (hnone : collect step captured (run step s fs) gs = [])
    (hcount : 2 ^ R + 6 ≤ gs.countP Edge.isUser) :
    collect step shown s (fs ++ gs) =
      (packets (collect step captured s (fs ++ gs))).flatMap (delivered (rxConfig cfg)) := by
  have hpow : 2 ^ 2 ≤ 2 ^ R := Nat.pow_le_pow_right (by norm_num) hR
  -- six edges for the `afifo`, two for the deframer, the rest for the packet buffer
  obtain ⟨gs₁, gs', rfl, hcount₁, hcount'⟩ :=
    exists_append_countP (show 6 + 2 ^ R ≤ gs.countP Edge.isUser by omega)
  obtain ⟨gs₂, gs₃, rfl, hcount₂, hcount₃⟩ :=
    exists_append_countP (show 2 + (2 ^ R - 2) ≤ gs'.countP Edge.isUser by omega)
  rw [collect_append, List.append_eq_nil_iff] at hnone
  rw [← List.append_assoc] at hsteady hpaces
  have hover := received_eq_captured h.toLineIdle
    (fun e he => hsteady e (List.mem_append_left _ he))
    (hpaces.of_infix (List.prefix_append (fs ++ gs₁) _).isInfix) hnone.1 hcount₁
  have hall : collect step received s (fs ++ gs₁) =
      collect step captured s (fs ++ gs₁ ++ gs₂ ++ gs₃) := by
    rw [hover, List.append_assoc (fs ++ gs₁), collect_append s (fs ++ gs₁), run_append, hnone.2,
      List.append_nil]
  rw [← List.append_assoc] at hsteady hpaces
  have hassoc : fs ++ (gs₁ ++ (gs₂ ++ gs₃)) = fs ++ gs₁ ++ gs₂ ++ gs₃ := by simp
  rw [hassoc] at hshort hlong hbad ⊢
  exact shown_of_received hR h hsteady hpaces hshort hlong hbad hall hcount₂ hcount₃

/-- **From the line to the user**, whatever comes over the line. At every interleaving of the two
clocks without four edges of the clock of the PHY in a row, in which the addresses do not change: if
the frames that `rmii_mac_rx` captures have at least 15 bytes and at most as many as fit into the
packet buffer, and no frame with a wrong check sequence ends while the packet buffer has already
fetched a byte of it, then the user is shown the payloads of the intact frames for the own address,
in order and nothing else; and all of them once `2 ^ R + 6` edges of the user clock have passed
since the last byte was captured. -/
theorem shown_delivered (cfg : Config) (hR : 2 ≤ R) (h : ReceiveIdle s)
    (hsteady : ∀ e ∈ es, Steady cfg e) (hpaces : Paces 3 Edge.isUser Edge.isPhy es)
    (hshort : ∀ f ∈ packets (collect step captured s es), 15 ≤ f.length)
    (hlong : ∀ f ∈ packets (collect step captured s es) ++
      [openPacket (collect step captured s es)], f.length ≤ 2 ^ R + 16)
    (hbad : Always step Undisturbed s es) :
    collect step shown s es <+:
        (packets (collect step captured s es)).flatMap (delivered (rxConfig cfg)) ∧
      ∀ fs gs, es = fs ++ gs → collect step captured (run step s fs) gs = [] →
        2 ^ R + 6 ≤ gs.countP Edge.isUser →
        collect step shown s es =
          (packets (collect step captured s es)).flatMap (delivered (rxConfig cfg)) := by
  refine ⟨shown_isPrefix hR h hsteady hpaces hshort hlong hbad, ?_⟩
  rintro fs gs rfl hnone hcount
  exact shown_eq hR h hsteady hpaces hshort hlong hbad hnone hcount

/-- A frame with two bytes of payload, an edge of the user clock behind each di-bit. -/
theorem shown_delivered_two :
    let cfg : Config := ⟨0x001122334455, 0x0A000001, 0x0A0B0C0D0E0F⟩
    let i : UserInputs :=
      { sourceMacIn := cfg.mac, ipAddressIn := cfg.ip, destinationMacIn := cfg.destinationMac }
    let f := frame 0x001122334455 0x0A0B0C0D0E0F false [0xAA, 0xBB]
    let es := ((RmiiMacTx.wire f).flatMap fun d => [.phy true d, .user i]) ++
      [.phy false 0, .phy false 0, .phy false 0, .user i, .phy false 0]
    let gs := List.replicate 14 (.user i)
    collect step shown (idle 6 3) (es ++ gs) = [(0xAA, false), (0xBB, true)] := by
  intro cfg i f es gs
  obtain ⟨-, hall⟩ := shown_delivered cfg (show 2 ≤ 3 by decide) (idle_receiveIdle 6 3)
    (show ∀ e ∈ es ++ gs, Steady cfg e by decide +kernel) (by decide +kernel) (by decide +kernel)
    (by decide +kernel) (by decide +kernel)
  exact (hall es gs rfl (by decide +kernel) (by decide +kernel)).trans (by decide +kernel)

end RmiiEthernet.RmiiMac
