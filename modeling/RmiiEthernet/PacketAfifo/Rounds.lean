import RmiiEthernet.PacketAfifo.Pulses
import RmiiEthernet.Sync.Progress

/-!
# The packet FIFO delivers what it keeps

A reader that goes on reading gets the packets that have been accepted completely. It waits for the
handshake of a reset, and for words to come through the `afifo` and into the `fifo`; each edge
brings the packet nearer (`work`), as long as one can see that a packet is there and a packet fits
into the `fifo` (`Flows`). Where the counter has come round to zero, the reader waits for ever
(`Starved`).
-/

namespace RmiiEthernet.PacketAfifo

open Sync EthernetFcs

variable {D : ℕ}

/-- At an edge of the read clock the counter tells that a packet is stored, unless one is being
read; and the `fifo` is not full of words of a packet that is not complete. -/
def Flows (s : State D) : Edge → Prop
  | .wr _ _ _ _ => True
  | .rd _ => (0 < packetsStored s → s.packetAvailable = true ∨ s.readPacket = true) ∧
      (s.fifo.fullSig = true → 0 < packetsStored s)

instance (s : State D) : ∀ e, Decidable (Flows s e)
  | .wr _ _ _ _ => inferInstanceAs (Decidable True)
  | .rd _ => inferInstanceAs (Decidable (_ ∧ _))

/-! ## What is left to do -/

section Cycle

variable {s : State D} {S T : List (Byte × Bool)} {W : List Word} {w₁ w₂ r t : ℕ}

/-- The words to be sent before the first `t` of the `afifo` have been, of which the read side has
fetched `r`. -/
def ahead (s : State D) (t r : ℕ) : ℕ :=
  (Fifo.content s.fifo).length + s.skidBuffer.caught.length + (Afifo.stages s.afifo).length + t - r

/-- The edges until a packet that is stored shows at the output. -/
def latency (s : State D) : ℕ :=
  (if s.readPacket then 0 else 1) + if s.fifo.outputValidR then 0 else 1

/-- What is left to do until the first `t` words of the `afifo` have been sent. -/
def work (s : State D) (t w₁ w₂ r : ℕ) : ℕ :=
  if ahead s t r = 0 then 0
  else 3 * ahead s t r + latency s + (ahead s t r - (Fifo.content s.fifo).length) +
    Afifo.transit s.afifo t w₁ w₂ r

theorem latency_le (s : State D) : latency s ≤ 2 := by
  unfold latency
  split <;> split <;> omega

/-- The words that move on at an edge of the read clock. -/
theorem length_rdStep (hl : ∃ l, Fifo.Holds s.fifo l) (hreset : s.resetRdClk = false)
    (tready : Bool) :
    (Fifo.content (s.rdStep tready).fifo).length + (sent s (.rd tready)).length =
        (Fifo.content s.fifo).length + (Fifo.written s.fifo (s.fifoInputs tready)).length ∧
      (s.rdStep tready).skidBuffer.caught.length +
          (Fifo.written s.fifo (s.fifoInputs tready)).length =
        s.skidBuffer.caught.length +
          (Afifo.delivered true s.afifo (.rd s.skidBuffer.readyOut)).length := by
  obtain ⟨l, hl⟩ := hl
  constructor
  · have hcontent := hl.content_step (i := s.fifoInputs tready) hreset
    have hnext : Fifo.content (s.rdStep tready).fifo = Fifo.front _ ++ _ :=
      (hl.step (i := s.fifoInputs tready) hreset).2.content
    rw [← hnext, ← hl.content] at hcontent
    have hlen := congrArg List.length hcontent
    rw [List.length_append, List.length_append] at hlen
    rw [sent_eq_taken, List.length_map]
    omega
  · have hlen := congrArg List.length (caught_rdStep hreset tready)
    rw [List.length_append, List.length_append] at hlen
    omega

/-- A word that is sent is one word less. -/
theorem ahead_rdStep (hl : ∃ l, Fifo.Holds s.fifo l) (hreset : s.resetRdClk = false)
    (hread : s.afifo.readReset = false) (tready : Bool) :
    ahead (s.rdStep tready) t (r + (Afifo.fetched true s.afifo s.skidBuffer.readyOut).length) =
      ahead s t r - (sent s (.rd tready)).length := by
  obtain ⟨hcontent, hcaught⟩ := length_rdStep hl hreset tready
  have hstages := congrArg List.length (Afifo.stages_rdStep hread s.skidBuffer.readyOut)
  have hafifo : (s.rdStep tready).afifo = s.afifo.rdStep true s.skidBuffer.readyOut := rfl
  rw [List.length_append, List.length_append, ← hafifo] at hstages
  unfold ahead
  omega

/-- What is sent shows at the output. -/
theorem latency_of_sent {tready : Bool} (hsent : sent s (.rd tready) ≠ []) :
    latency s = 0 ∧ (sent s (.rd tready)).length = 1 ∧ 0 < (Fifo.content s.fifo).length := by
  cases hp : s.readPacket <;> cases hv : s.fifo.outputValidR <;> cases tready <;>
    simp_all [sent, latency, State.mAxisTvalid, Fifo.State.empty, Fifo.content, Fifo.front]

/-- An edge at which nothing is sent. -/
theorem latency_rdStep (hreset : s.resetRdClk = false) {tready : Bool}
    (hsent : sent s (.rd tready) = []) : latency (s.rdStep tready) ≤ latency s := by
  cases hp : s.readPacket <;> cases hv : s.fifo.outputValidR <;> cases tready <;>
    simp [sent, State.mAxisTvalid, Fifo.State.empty, hp, hv] at hsent <;>
    simp [latency, State.rdStep, Fifo.step, State.fifoInputs, State.fifoRe, State.readsLast,
      Fifo.fwftRead, Fifo.State.empty, hreset, hp, hv] <;>
    grind

/-- A reader that reads gets a word or is nearer to one, if a packet is stored. -/
theorem latency_rdStep_lt (hl : ∃ l, Fifo.Holds s.fifo l) (hreset : s.resetRdClk = false)
    (hflows : Flows s (.rd true)) (hpos : 0 < packetsStored s) (hsent : sent s (.rd true) = []) :
    latency (s.rdStep true) < latency s := by
  obtain ⟨l, hl⟩ := hl
  have hempty : s.fifo.outputValidR = false → s.fifo.emptySig = false := by
    intro hv
    rw [← Bool.not_eq_true, hl.empty_iff]
    rintro rfl
    simp [packetsStored, hl.content, Fifo.front, hv] at hpos
  have havail := hflows.1 hpos
  cases hp : s.readPacket <;> cases hv : s.fifo.outputValidR <;>
    simp [sent, State.mAxisTvalid, Fifo.State.empty, hp, hv] at hsent havail hempty <;>
    simp [latency, State.rdStep, Fifo.step, State.fifoInputs, State.fifoRe, State.readsLast,
      Fifo.fwftRead, Fifo.State.empty, *]

variable {C : List (Byte × Bool)} {b : Byte}

/-- The words held behind those of `T` that are ahead. -/
theorem Linked.length_held (h : Linked s S T W w₁ w₂ r) :
    (Fifo.content s.fifo ++ s.skidBuffer.caught ++ (Afifo.stages s.afifo ++ W)).length + r =
      (Fifo.content s.fifo).length + s.skidBuffer.caught.length +
        (Afifo.stages s.afifo).length + T.length := by
  have hlen := h.follows.length
  simp only [List.length_append]
  omega

/-- While no packet is stored, the last word of a packet is still on its way to the `fifo`. -/
theorem Linked.length_content_lt (h : Linked s S T W w₁ w₂ r) (hC : C ++ [(b, true)] <+: T)
    (hahead : 0 < ahead s (C.length + 1) r) (hzero : packetsStored s = 0) :
    (Fifo.content s.fifo).length < ahead s (C.length + 1) r := by
  by_contra hle
  obtain ⟨U, rfl⟩ := hC
  obtain ⟨Z, hZ⟩ := h.suffix
  have hheld := h.length_held
  have hT : (C ++ [(b, true)] ++ U).length = C.length + 1 + U.length := by
    rw [List.length_append, List.length_append, List.length_singleton]
  -- the words ahead are the first of those held, and the last of them ends the packet
  set k := ahead s (C.length + 1) r with hk
  set Q := Fifo.content s.fifo ++ s.skidBuffer.caught ++ (Afifo.stages s.afifo ++ W) with hQ
  have hsplit : Z ++ (C ++ [(b, true)]) = S ++ (Q.take k).map beatOf := by
    have hcut : Z ++ (C ++ [(b, true)]) ++ U = S ++ (Q.take k).map beatOf ++
        (Q.drop k).map beatOf := by
      rw [List.append_assoc S, ← List.map_append, List.take_append_drop, List.append_assoc, hZ]
    refine (List.append_inj' hcut ?_).1
    rw [List.length_map, List.length_drop]
    unfold ahead at hk
    omega
  have htake : Q.take k = (Fifo.content s.fifo).take k := by
    rw [hQ, List.append_assoc, List.take_append_of_le_length (by omega)]
  obtain ⟨w, hw, hlast⟩ : ∃ w ∈ (Fifo.content s.fifo).take k, beatOf w = (b, true) := by
    rw [htake] at hsplit
    rcases List.eq_nil_or_concat ((Fifo.content s.fifo).take k) with hnil | ⟨ws, w, hconcat⟩
    · rw [List.take_eq_nil_iff] at hnil
      grind
    · refine ⟨w, by rw [hconcat]; simp, ?_⟩
      rw [hconcat, List.concat_eq_append, List.map_append, ← List.append_assoc,
        ← List.append_assoc] at hsplit
      simpa using (List.append_inj' hsplit rfl).2.symm
  have hpos : 0 < packetsStored s :=
    List.countP_pos_iff.mpr ⟨w, List.mem_of_mem_take hw, congrArg Prod.snd hlast⟩
  omega

/-- When no word is ahead any more, all have been sent. -/
theorem Linked.sent_of_ahead (h : Linked s S T W w₁ w₂ r) (hC : C ++ [(b, true)] <+: T)
    (hahead : ahead s (C.length + 1) r = 0) :
    ∃ Z, Z ++ T = S ++ held s ∧ Z ++ (C ++ [(b, true)]) <+: S := by
  obtain ⟨Z, hZ⟩ := h.suffix
  have hheld := h.length_held
  rw [← h.follows.held h.quiet] at hheld hZ
  refine ⟨Z, hZ, List.prefix_of_prefix_length_le ?_ (List.prefix_append S (held s)) ?_⟩
  · rw [held, ← hZ]
    exact (List.prefix_append_right_inj Z).mpr hC
  · obtain ⟨U, rfl⟩ := hC
    have hlen := congrArg List.length hZ
    simp only [List.length_append, List.length_map, List.length_singleton] at hlen hheld ⊢
    unfold ahead at hahead
    omega

/-- The words that the skid buffer and the output of the `afifo` offer go into the `fifo`. -/
theorem length_written (hfull : s.fifo.fullSig = false) (tready : Bool)
    (hwe : s.skidBuffer.caught ≠ [] ∨ s.afifo.fwft.outputValid = true) :
    (Fifo.written s.fifo (s.fifoInputs tready)).length = 1 := by
  have hen : s.fifoWe = true := by
    rcases hwe with hcaught | hvalid
    · have hexpansion : s.skidBuffer.expansionValidR = true := by
        by_contra hne
        exact hcaught (by simp [SkidBufferSingle.caught, hne])
      simp [State.fifoWe, SkidBufferSingle.validOut, hexpansion]
    · simp [State.fifoWe, SkidBufferSingle.validOut, State.afifoValid, Afifo.State.empty, hvalid]
  simp [Fifo.written, State.fifoInputs, hen, hfull]

/-- **An edge of the read clock.** -/
theorem Linked.work_rdStep (h : Linked s S T W w₁ w₂ r) {tready : Bool}
    (hflows : Flows s (.rd tready)) (hC : C ++ [(b, true)] <+: T)
    (hreset : s.resetRdClk = false) :
    work (s.rdStep tready) (C.length + 1) T.length w₁
          (r + (Afifo.fetched true s.afifo s.skidBuffer.readyOut).length) ≤
        work s (C.length + 1) w₁ w₂ r ∧
      (tready = true → 0 < ahead s (C.length + 1) r →
        work (s.rdStep tready) (C.length + 1) T.length w₁
            (r + (Afifo.fetched true s.afifo s.skidBuffer.readyOut).length) <
          work s (C.length + 1) w₁ w₂ r) := by
  have hahead := ahead_rdStep (t := C.length + 1) (r := r) h.holds hreset h.quiet.readReset tready
  obtain ⟨hcontent, -⟩ := length_rdStep h.holds hreset tready
  have ht : C.length + 1 ≤ T.length := by simpa using hC.length_le
  obtain ⟨htransit, htransit_lt⟩ :=
    h.follows.transit_rdStep h.quiet.readReset ht s.skidBuffer.readyOut
  have hlatency := latency_le (s.rdStep tready)
  have hafifo : (s.rdStep tready).afifo = s.afifo.rdStep true s.skidBuffer.readyOut := rfl
  unfold work
  rw [hahead, hafifo]
  by_cases hsent : sent s (.rd tready) = []
  · have hle := latency_rdStep hreset hsent
    rw [hsent, List.length_nil, Nat.sub_zero]
    rw [hsent, List.length_nil, Nat.add_zero] at hcontent
    by_cases hk : ahead s (C.length + 1) r = 0
    · rw [if_pos hk, if_pos hk]
      exact ⟨le_rfl, fun _ hpos => absurd hk (by omega)⟩
    rw [if_neg hk, if_neg hk]
    refine ⟨by omega, ?_⟩
    rintro rfl -
    by_cases hstored : 0 < packetsStored s
    · have := latency_rdStep_lt h.holds hreset hflows hstored hsent
      omega
    · -- the packet is not complete in the `fifo`, and its words come nearer
      have hlt := h.length_content_lt hC (by omega) (by omega)
      have hfull : s.fifo.fullSig = false := by
        by_contra hfull
        exact hstored (hflows.2 (by simpa using hfull))
      by_cases hwe : s.skidBuffer.caught ≠ [] ∨ s.afifo.fwft.outputValid = true
      · have := length_written hfull true hwe
        omega
      · obtain ⟨hcaught, hvalid⟩ := not_or.mp hwe
        have hcaught : s.skidBuffer.caught = [] := not_not.mp hcaught
        have hin : r < C.length + 1 + (Afifo.stages s.afifo).length := by
          unfold ahead at hlt
          rw [hcaught, List.length_nil] at hlt
          omega
        have := htransit_lt (.inl ⟨by simpa using hvalid, hin⟩)
        omega
  · obtain ⟨hshows, hone, hpos⟩ := latency_of_sent hsent
    rw [hone] at hcontent
    rw [hone]
    split
    · split <;> omega
    · split <;> omega

/-- The reset of the `fifo` leaves the words of `T`, which are all in the memory of the `afifo`. -/
theorem Linked.work_rdStep_sreset (h : Linked s S T W w₁ w₂ r) (hc : Counted s) (tready : Bool)
    (hC : C ++ [(b, true)] <+: T) (hreset : s.resetRdClk = true) :
    work (s.rdStep tready) (C.length + 1) T.length w₁
        (r + (Afifo.fetched true s.afifo s.skidBuffer.readyOut).length) <
      work s (C.length + 1) w₁ w₂ r := by
  have ht : C.length + 1 ≤ T.length := by simpa using hC.length_le
  obtain ⟨rfl, hempty⟩ := h.awaits.here hreset
  have htransit := (h.follows.transit_rdStep h.quiet.readReset ht s.skidBuffer.readyOut).2
    (.inr ⟨hempty, by omega⟩)
  have hstages := congrArg List.length
    (Afifo.stages_rdStep h.quiet.readReset s.skidBuffer.readyOut)
  rw [h.fetched_eq_nil hreset] at htransit hstages ⊢
  have hafifo : (s.rdStep tready).afifo = s.afifo.rdStep true s.skidBuffer.readyOut := rfl
  have hcontent : Fifo.content (s.rdStep tready).fifo = [] := by
    obtain ⟨hholds, hfront⟩ :=
      Fifo.holds_step_sreset (s := s.fifo) (i := s.fifoInputs tready) hreset
    exact hholds.content.trans (by rw [hfront, List.append_nil])
  have hcaught : (s.rdStep tready).skidBuffer.caught = [] := by
    simp [SkidBufferSingle.caught, State.rdStep, SkidBufferSingle.step, hreset]
  have hlatency := latency_le (s.rdStep tready)
  -- what shows at the output stands in the `fifo`
  have hshows : latency s = 2 ∨ 0 < (Fifo.content s.fifo).length := by
    rcases List.eq_nil_or_concat (Fifo.content s.fifo) with hnil | ⟨ws, w, hconcat⟩
    · have hp : s.readPacket = false := by
        by_contra hp
        have hpos := hc.readPacket (by simpa using hp)
        rw [packetsStored, hnil] at hpos
        cases hpos
      have hv : s.fifo.outputValidR = false := by
        by_contra hv
        simp [Fifo.content, Fifo.front, hv] at hnil
      exact .inl (by simp [latency, hp, hv])
    · exact .inr (by simp [hconcat])
  rw [List.length_append, List.length_append, List.length_nil, ← hafifo] at hstages
  rw [List.length_nil, ← hafifo] at htransit
  unfold work ahead
  rw [hcontent, hcaught]
  simp only [List.length_nil]
  split
  · omega
  · split <;> omega

/-- How much is left to do at most. -/
theorem Linked.work_le (h : Linked s S T W w₁ w₂ r) (hC : C ++ [(b, true)] <+: T) :
    work s (C.length + 1) w₁ w₂ r ≤ 12 * 2 ^ D + 22 := by
  have ht : C.length + 1 ≤ T.length := by simpa using hC.length_le
  have hord := h.follows.order
  have hstages := Afifo.length_stages_le s.afifo
  have hlatency := latency_le s
  have hadmission := Afifo.admission_le s.afifo.readLogic.emptyR w₁ w₂ r
  have hcaught : s.skidBuffer.caught.length ≤ 1 := by
    unfold SkidBufferSingle.caught
    split <;> simp
  have hcontent : (Fifo.content s.fifo).length ≤ 2 ^ D := by
    obtain ⟨l, hl⟩ := h.holds
    have hfits := hl.fits
    rw [hl.content, List.length_append, Fifo.front]
    split <;> simp <;> omega
  have htransit : Afifo.transit s.afifo (C.length + 1) w₁ w₂ r ≤ 5 * (C.length + 1 - r) + 4 := by
    unfold Afifo.transit
    split <;> split <;> omega
  unfold work
  split
  · omega
  · unfold ahead
    omega

end Cycle

/-! ## Progress -/

section Runs

variable {s : State D} {S T C : List (Byte × Bool)} {b : Byte} {n : ℕ} {es : List Edge}

/-- What is left to do until the packets that end with `C` and the last byte `b` have been sent. -/
def Left (C : List (Byte × Bool)) (b : Byte) (s : State D) (S T : List (Byte × Bool)) (n : ℕ) :
    Prop :=
  Counted s ∧ C ++ [(b, true)] <+: T ∧
    ((∃ W, Pending s T W ∧ n = s.afifo.handshakeLeft + (12 * 2 ^ D + 22)) ∨
      ∃ W w₁ w₂ r, Linked s S T W w₁ w₂ r ∧ n = work s (C.length + 1) w₁ w₂ r)

theorem left_wrStep (h : Left C b s S T n) {tdata : Byte} {tvalid tlast : Bool}
    (he : Heeds s (.wr false tdata tvalid tlast)) :
    ∃ m, Left C b (s.wrStep false tdata tvalid tlast) S
        (T ++ accepted s (.wr false tdata tvalid tlast)) m ∧
      (m < n ∨ m = n ∧ s.afifo.awaitsWriter = false ∧
        (s.wrStep false tdata tvalid tlast).afifo.awaitsWriter = false) := by
  obtain ⟨hc, hC, hleft⟩ := h
  have hc' : Counted (s.wrStep false tdata tvalid tlast) :=
    hc.step (.wr false tdata tvalid tlast)
  have hC' : C ++ [(b, true)] <+: T ++ accepted s (.wr false tdata tvalid tlast) :=
    hC.trans (List.prefix_append _ _)
  rcases hleft with ⟨W, hW, rfl⟩ | ⟨W, w₁, w₂, r, hW, rfl⟩
  · have hpos := s.afifo.handshakeLeft_pos
    obtain ⟨W', hW' | hW'⟩ := hW.wrStep he S
    · refine ⟨_, ⟨hc', hC', .inl ⟨W', hW', rfl⟩⟩, ?_⟩
      refine (hW.handshake.left_wrStep (tvalid && !s.afifo.resetBusySig)
        (wordOf (tdata, tlast))).imp (fun hlt => ?_) (fun hsame => ⟨?_, hsame.2⟩)
      · exact Nat.add_lt_add_right hlt _
      · exact congrArg (· + _) hsame.1
    · have hle := hW'.work_le hC'
      exact ⟨_, ⟨hc', hC', .inr ⟨W', _, _, _, hW', rfl⟩⟩, .inl (by omega)⟩
  · obtain ⟨W', hW'⟩ := hW.wrStep he
    exact ⟨_, ⟨hc', hC', .inr ⟨W', w₁, w₂, r, hW', rfl⟩⟩,
      .inr ⟨rfl, hW.quiet.awaitsWriter, hW'.quiet.awaitsWriter⟩⟩

theorem left_rdStep (h : Left C b s S T n) {tready : Bool} (hflows : Flows s (.rd tready)) :
    ∃ m, Left C b (s.rdStep tready) (S ++ sent s (.rd tready)) T m ∧
      (m < n ∨ m = n ∧ s.afifo.awaitsWriter = (s.rdStep tready).afifo.awaitsWriter ∧
        (0 < n → s.afifo.awaitsWriter = false → tready = false)) := by
  obtain ⟨hc, hC, hleft⟩ := h
  have hc' : Counted (s.rdStep tready) := hc.rdStep tready
  rcases hleft with ⟨W, hW, rfl⟩ | ⟨W, w₁, w₂, r, hW, rfl⟩
  · have hpos := s.afifo.handshakeLeft_pos
    rcases hW.rdStep tready (S ++ sent s (.rd tready)) with hW' | hW'
    · refine ⟨_, ⟨hc', hC, .inl ⟨W, hW', rfl⟩⟩, ?_⟩
      refine (hW.handshake.left_rdStep hW.resetPending true s.skidBuffer.readyOut
        hW'.resetPending).imp (fun hlt => ?_) (fun hsame => ⟨?_, ?_, fun _ hnot => ?_⟩)
      · exact Nat.add_lt_add_right hlt _
      · exact congrArg (· + _) hsame.1
      · exact hsame.2.1.trans hsame.2.2.symm
      · rw [hsame.2.1] at hnot
        cases hnot
    · have hle := hW'.work_le hC
      exact ⟨_, ⟨hc', hC, .inr ⟨W, _, _, _, hW', rfl⟩⟩, .inl (by omega)⟩
  · obtain ⟨W', hW'⟩ := hW.rdStep tready
    refine ⟨_, ⟨hc', hC, .inr ⟨W', _, _, _, hW', rfl⟩⟩, ?_⟩
    cases hreset : s.resetRdClk with
    | true => exact .inl (hW.work_rdStep_sreset hc tready hC hreset)
    | false =>
      obtain ⟨hle, hlt⟩ := hW.work_rdStep hflows hC hreset
      rcases hle.lt_or_eq with hless | heq
      · exact .inl hless
      · refine .inr ⟨heq, ?_, fun hpos _ => ?_⟩
        · rw [hW.quiet.awaitsWriter, hW'.quiet.awaitsWriter]
        · by_contra hread
          have hahead : 0 < ahead s (C.length + 1) r := by
            apply Nat.pos_of_ne_zero
            intro hzero
            rw [work, if_pos hzero] at hpos
            cases hpos
          exact absurd heq (hlt (by simpa using hread) hahead).ne

/-- The circuit with the beats sent and the beats accepted. -/
def logged (x : State D × List (Byte × Bool) × List (Byte × Bool)) (e : Edge) :
    State D × List (Byte × Bool) × List (Byte × Bool) :=
  (step x.1 e, x.2.1 ++ sent x.1 e, x.2.2 ++ accepted x.1 e)

/-- The edge for which the circuit waits. -/
def Helps (x : State D × List (Byte × Bool) × List (Byte × Bool)) : Edge → Prop
  | .wr _ _ _ _ => x.1.afifo.awaitsWriter = true
  | .rd tready => x.1.afifo.awaitsWriter = false ∧ tready = true

/-- **Every edge** brings the packets nearer to the output, unless it is not the one waited for. -/
theorem progress_logged (C : List (Byte × Bool)) (b : Byte) :
    Progress (logged (D := D)) (fun x e => e.resets = false ∧ Heeds x.1 e ∧ Flows x.1 e)
      (fun x => Left C b x.1 x.2.1 x.2.2) Helps := by
  rintro ⟨s, S, T⟩ n e h ⟨hreset, hheeds, hflows⟩
  cases e with
  | wr reset tdata tvalid tlast =>
    obtain rfl : reset = false := hreset
    have hS : S ++ sent s (.wr false tdata tvalid tlast) = S := List.append_nil S
    change Left C b s S T n at h
    obtain ⟨m, hm, hor⟩ := left_wrStep h hheeds
    rw [← hS] at hm
    refine ⟨m, hm, hor.imp_right fun hsame => ⟨hsame.1, fun _ => ⟨fun hhelps => ?_, ?_⟩⟩⟩
    · exact Bool.false_ne_true (hsame.2.1.symm.trans hhelps)
    · rintro (_ | tready) hf
      · exact absurd (hsame.2.1.symm.trans hf) Bool.false_ne_true
      · exact ⟨hsame.2.2, hf.2⟩
  | rd tready =>
    have hT : T ++ accepted s (.rd tready) = T := List.append_nil T
    change Left C b s S T n at h
    obtain ⟨m, hm, hor⟩ := left_rdStep h hflows
    rw [← hT] at hm
    refine ⟨m, hm, hor.imp_right fun hsame =>
      ⟨hsame.1, fun hpos => ⟨fun hhelps => ?_, ?_⟩⟩⟩
    · exact Bool.false_ne_true ((hsame.2.2 hpos hhelps.1).symm.trans hhelps.2)
    · rintro (_ | tready) hf
      · exact hsame.2.1.symm.trans hf
      · exact ⟨hsame.2.1.symm.trans hf.1, hf.2⟩

theorem run_logged :
    run logged (s, S, T) es =
      (run step s es, S ++ collect step sent s es, T ++ collect step accepted s es) := by
  induction es generalizing s S T with
  | nil => simp
  | cons e es ih =>
    rw [run_cons, logged, ih, collect_cons, collect_cons, List.append_assoc, List.append_assoc]
    rfl

theorem run_lately {B : Type*} {obs : State D → Edge → List B} {x : State D × List B}
    (hnone : ∀ e ∈ es, e.resets = false) :
    run (lately obs) x es = (run step x.1 es, x.2 ++ collect step obs x.1 es) := by
  induction es generalizing x with
  | nil => simp
  | cons e es ih =>
    rw [run_cons, ih fun f hf => hnone f (by simp [hf]), lately, hnone e (by simp), collect_cons,
      if_neg (by simp), List.append_assoc]
    rfl

/-- Without another reset everything is added to what has been seen since the last one. -/
theorem sinceReset_append {B : Type*} {obs : State D → Edge → List B} {es₁ es₂ : List Edge}
    (hnone : ∀ e ∈ es₂, e.resets = false) :
    sinceReset obs s (es₁ ++ es₂) =
      sinceReset obs s es₁ ++ collect step obs (run step s es₁) es₂ := by
  have hπ (x : State D × List B) (e : Edge) : (lately obs x e).1 = step x.1 e := rfl
  rw [sinceReset, run_append, run_lately hnone, run_proj (π := Prod.fst) hπ]
  rfl

/-- A round in which no reset comes: each clock has an edge, and the reader reads. -/
def IsRound (es : List Edge) : Prop :=
  (∀ e ∈ es, e.resets = false) ∧ (∃ tdata tvalid tlast, .wr false tdata tvalid tlast ∈ es) ∧
    .rd true ∈ es

theorem resets_of_rounds {rs : List (List Edge)} (hrs : ∀ r ∈ rs, IsRound r) :
    ∀ e ∈ rs.flatten, e.resets = false := by
  intro e he
  obtain ⟨r, hr, her⟩ := List.mem_flatten.mp he
  exact (hrs r hr).1 e her

/-- The complete packets that have been accepted since the last reset in the first part of a run
have been sent at its end, behind what there was before them. -/
def Delivered (s : State D) (es₁ es : List Edge) : Prop :=
  ∀ C b, C ++ [(b, true)] <+: sinceReset accepted s es₁ →
    ∃ Z, Z ++ sinceReset accepted s es = sinceReset sent s es ++ held (run step s es) ∧
      Z ++ (C ++ [(b, true)]) <+: sinceReset sent s es

theorem Kept.left (h : Kept s S T) (hc : Counted s) (hC : C ++ [(b, true)] <+: T) :
    ∃ n ≤ 12 * 2 ^ D + 29, Left C b s S T n := by
  cases h with
  | pending W h =>
    have hle := s.afifo.handshakeLeft_le
    exact ⟨_, by omega, hc, hC, .inl ⟨W, h, rfl⟩⟩
  | linked W w₁ w₂ r h =>
    have hle := h.work_le hC
    exact ⟨_, by omega, hc, hC, .inr ⟨W, w₁, w₂, r, h, rfl⟩⟩

/-- Nothing is left to do when the packets have been sent. -/
theorem Left.sent (h : Left C b s S T 0) :
    ∃ Z, Z ++ T = S ++ held s ∧ Z ++ (C ++ [(b, true)]) <+: S := by
  obtain ⟨-, hC, ⟨W, -, hn⟩ | ⟨W, w₁, w₂, r, hW, hn⟩⟩ := h
  · omega
  · refine hW.sent_of_ahead hC ?_
    by_contra hne
    rw [work, if_neg hne] at hn
    omega

/-- Enough rounds deliver what is kept. -/
theorem delivered_of_rounds (h : PowerUp s) {es₁ : List Edge} {rs : List (List Edge)}
    (he : Always step Heeds s (es₁ ++ rs.flatten)) (hrs : ∀ r ∈ rs, IsRound r)
    (hlen : 12 * 2 ^ D + 29 ≤ rs.length)
    (hflows : Always step Flows (run step s es₁) rs.flatten) :
    Delivered s es₁ (es₁ ++ rs.flatten) := by
  intro C b hC
  obtain ⟨he₁, he₂⟩ := (always_append _ _ _).mp he
  have hnone := resets_of_rounds hrs
  have hcounted : Counted (run step s es₁) :=
    run_invariant (fun _ e hs _ => hs.step e) (counts_powerUp h).toCounted he₁
  obtain ⟨n, hn, hleft⟩ := (kept_run (kept_powerUp h) he₁).left hcounted hC
  -- every round helps, whichever clock the circuit waits for
  have hhelps : ∀ r ∈ rs, ∀ (x : State D × List (Byte × Bool) × List (Byte × Bool)) n,
      Left C b x.1 x.2.1 x.2.2 n → 0 < n → ∃ e ∈ r, Helps x e := by
    intro r hr x n _ _
    obtain ⟨-, ⟨tdata, tvalid, tlast, hwr⟩, hrd⟩ := hrs r hr
    cases hwaits : x.1.afifo.awaitsWriter with
    | true => exact ⟨_, hwr, hwaits⟩
    | false => exact ⟨_, hrd, hwaits, rfl⟩
  have hok : Always step (fun s e => e.resets = false ∧ Heeds s e ∧ Flows s e) (run step s es₁)
      rs.flatten := (always_of_forall hnone _).and (he₂.and hflows)
  have hπ (x : State D × List (Byte × Bool) × List (Byte × Bool)) (e : Edge) :
      (logged x e).1 = step x.1 e := rfl
  have hlogged := (always_proj (π := Prod.fst) hπ
    (run step s es₁, sinceReset sent s es₁, sinceReset accepted s es₁) rs.flatten).mpr hok
  obtain ⟨m, hm, hend⟩ := (progress_logged C b).rounds hhelps hleft hlogged
  obtain rfl : m = 0 := by omega
  rw [run_logged] at hend
  rw [sinceReset_append hnone, sinceReset_append hnone, run_append]
  exact hend.sent

/-- **No beat is dropped**, for every interleaving of the two clocks with resets at any time, when
the writer takes heed: at every moment the beats accepted since the last reset are the last of those
sent since then and those held, and none is accepted while the `afifo` is busy with the reset. From
any moment on, enough rounds without a reset in which the `fifo` flows deliver the packets that have
been accepted. -/
theorem kept_since_reset (h : PowerUp s) (he : Always step Heeds s es) :
    sinceReset accepted s es <:+ sinceReset sent s es ++ held (run step s es) ∧
      Always step (fun s e => e.resets = false → accepted s e ≠ [] →
        s.afifo.resetBusySig = false) s es ∧
      ∀ es₁ rs, es = es₁ ++ List.flatten rs → (∀ r ∈ rs, IsRound r) →
        12 * 2 ^ D + 29 ≤ rs.length → Always step Flows (run step s es₁) rs.flatten →
        Delivered s es₁ es := by
  refine ⟨(kept_run (kept_powerUp h) he).suffix, he.mono fun s e hs hreset hacc => ?_, ?_⟩
  · cases e with
    | rd tready => exact absurd rfl hacc
    | wr reset tdata tvalid tlast =>
      refine (hs.1 hreset ?_).1
      by_contra hnot
      exact hacc (by simp [accepted, hnot])
  · rintro es₁ rs rfl hrs hlen hflows
    exact delivered_of_rounds h he hrs hlen hflows

/-- A packet accepted behind the handshake of a reset. -/
theorem kept_since_reset_two :
    let es₁ : List Edge := .wr true 0 false false :: [.rd true, .rd true] ++
      List.replicate 3 (.wr false 0 false false) ++ [.wr false 1 true false, .wr false 2 true true]
    let rs : List (List Edge) := List.replicate 77 [.wr false 0 false false, .rd true]
    sinceReset sent (initial 2) (es₁ ++ rs.flatten) = [(1, false), (2, true)] ∧
    sinceReset accepted (initial 2) (es₁ ++ rs.flatten) <:+
      sinceReset sent (initial 2) (es₁ ++ rs.flatten) ++
        held (run step (initial 2) (es₁ ++ rs.flatten)) ∧
    Delivered (initial 2) es₁ (es₁ ++ rs.flatten) := by
  intro es₁ rs
  have hround : ∀ r ∈ rs, IsRound r := by
    intro r hr
    rw [List.eq_of_mem_replicate hr]
    exact ⟨by decide, ⟨0, false, false, by simp⟩, by simp⟩
  obtain ⟨hsuffix, -, hrounds⟩ := kept_since_reset (initial_powerUp 2)
    (show Always step Heeds (initial 2) (es₁ ++ rs.flatten) by decide +kernel)
  exact ⟨by decide +kernel, hsuffix,
    hrounds es₁ rs rfl hround (by decide) (by decide +kernel)⟩

/-! ## A reader that waits for ever -/

/-- Nothing is on its way to the `fifo`, and the counter tells of no packet, however many there
are. -/
structure Starved (s : State D) : Prop where
  numPacketsInFifo : s.numPacketsInFifo = 0
  readPacket : s.readPacket = false
  unreset : Unreset s
  expansionValidR : s.skidBuffer.expansionValidR = false
  fifoValid : s.afifo.fwft.fifoValid = false
  bufferValid : s.afifo.fwft.bufferValid = false
  outputValid : s.afifo.fwft.outputValid = false
  resetState : s.afifo.resetState = .idle
  resetToRead : s.afifo.resetToRead = false
  ff0 : s.afifo.resetToReadSync.ff0 = false
  ff1 : s.afifo.resetToReadSync.ff1 = false
  emptyR : s.afifo.readLogic.emptyR = true
  dinR : s.afifo.writePtrSync.dinR = gray s.afifo.readLogic.readAddrR
  dinR2 : s.afifo.writePtrSync.dinR2 = gray s.afifo.readLogic.readAddrR
  writePointerR : s.afifo.writeLogic.writePointerR = gray s.afifo.readLogic.readAddrR
  writeAddrR : s.afifo.writeLogic.writeAddrR = s.afifo.readLogic.readAddrR

/-- Both clocks tick, and the writer offers nothing. -/
def Idles : Edge → Prop
  | .wr reset _ tvalid _ => reset = false ∧ tvalid = false
  | .rd _ => True

theorem Starved.step (h : Starved s) {e : Edge} (he : Idles e) : Starved (step s e) := by
  cases e with
  | wr reset tdata tvalid tlast =>
    obtain ⟨rfl, rfl⟩ := he
    refine ⟨h.numPacketsInFifo, h.readPacket, h.unreset.step rfl, h.expansionValidR, h.fifoValid,
      h.bufferValid, h.outputValid, ?_, ?_, h.ff0, h.ff1, h.emptyR, h.dinR, h.dinR2, ?_, ?_⟩
    · simp [PacketAfifo.step, State.wrStep, Afifo.State.wrStep, Afifo.State.resetStep,
        h.resetState]
    · simp [PacketAfifo.step, State.wrStep, Afifo.State.wrStep, Afifo.State.resetStep,
        h.resetState]
    · simp [PacketAfifo.step, State.wrStep, Afifo.State.wrStep, Afifo.WriteLogic.step,
        Afifo.WriteLogic.writePointerNext, Afifo.WriteLogic.writeAddrNext, h.writeAddrR]
    · simp [PacketAfifo.step, State.wrStep, Afifo.State.wrStep, Afifo.WriteLogic.step,
        Afifo.WriteLogic.writeAddrNext, h.writeAddrR]
  | rd tready =>
    have hreset := h.unreset.resetRdClk
    have hread : s.afifo.readReset = false := h.ff1
    have hwe : s.fifoWe = false := by
      simp [State.fifoWe, SkidBufferSingle.validOut, State.afifoValid, Afifo.State.empty,
        h.expansionValidR, h.outputValid]
    have hkeeps : (PacketAfifo.step s (.rd tready)).afifo.readLogic.readAddrR =
        s.afifo.readLogic.readAddrR := by
      simp [PacketAfifo.step, State.rdStep, Afifo.State.rdStep, Afifo.ReadLogic.step,
        Afifo.ReadLogic.readAddrNext, hread, h.emptyR]
    refine ⟨?_, ?_, h.unreset.step trivial, ?_, ?_, ?_, ?_, h.resetState, h.resetToRead,
      h.resetToRead, h.ff0, ?_, ?_, ?_, ?_, ?_⟩
    · simp [PacketAfifo.step, State.rdStep, hreset, State.storesLast, hwe, State.readsLast,
        State.fifoRe, h.readPacket, h.numPacketsInFifo]
    · simp [PacketAfifo.step, State.rdStep, hreset, State.packetAvailable, h.readPacket,
        h.numPacketsInFifo]
    · simp [PacketAfifo.step, State.rdStep, SkidBufferSingle.step, State.afifoValid,
        Afifo.State.empty, h.expansionValidR, h.outputValid]
    · simp [PacketAfifo.step, State.rdStep, Afifo.State.rdStep, Afifo.FifoFwft.step,
        Afifo.FifoFwft.fifoReadEnSig, Afifo.State.fifoEmpty, hread, h.emptyR, h.fifoValid]
    · simp [PacketAfifo.step, State.rdStep, Afifo.State.rdStep, Afifo.FifoFwft.step,
        Afifo.FifoFwft.updateBuffer, hread, h.fifoValid, h.bufferValid]
    · simp [PacketAfifo.step, State.rdStep, Afifo.State.rdStep, Afifo.FifoFwft.step,
        Afifo.FifoFwft.updateOutput, hread, h.fifoValid, h.bufferValid, h.outputValid]
    · simp [PacketAfifo.step, State.rdStep, Afifo.State.rdStep, Afifo.ReadLogic.step,
        Afifo.ReadLogic.readPointerNext, Afifo.ReadLogic.readAddrNext, hread, h.emptyR, h.dinR2]
    · rw [hkeeps, ← h.writePointerR]
      simp [PacketAfifo.step, State.rdStep, Afifo.State.rdStep, Afifo.GreyPointerSync.step, hread]
    · rw [hkeeps, ← h.dinR]
      simp [PacketAfifo.step, State.rdStep, Afifo.State.rdStep, Afifo.GreyPointerSync.step, hread]
    · exact h.writePointerR.trans (congrArg gray hkeeps.symm)
    · exact h.writeAddrR.trans hkeeps.symm

/-- Nothing is ever sent. -/
theorem Starved.sent_run (h : Starved s) (he : ∀ e ∈ es, Idles e) :
    collect PacketAfifo.step sent s es = [] := by
  refine (collect_eq_nil_iff_always (fun _ _ => Iff.rfl) _ _).mpr ?_
  refine always_of_invariant (fun s e hs hidle => ⟨?_, hs.step hidle⟩) h (always_of_forall he _)
  cases e with
  | wr => rfl
  | rd tready => simp [sent, State.mAxisTvalid, hs.readPacket]

/-- The writer takes heed. -/
theorem Starved.heeds_run (h : Starved s) (he : ∀ e ∈ es, Idles e) :
    Always PacketAfifo.step Heeds s es := by
  refine always_of_invariant (fun s e hs hidle => ⟨?_, hs.step hidle⟩) h (always_of_forall he _)
  cases e with
  | rd tready => trivial
  | wr reset tdata tvalid tlast =>
    obtain ⟨rfl, rfl⟩ := hidle
    refine ⟨fun _ hoffered => ?_, fun hwait => ?_⟩
    · simp at hoffered
    · rw [hs.resetState] at hwait
      cases hwait

/-- 33 packets of one byte in the depth of `rmii_mac`, the first of which is read. -/
def crowd : List Edge :=
  List.replicate 33 (.wr false 0x55 true true) ++ List.replicate 40 (.rd false) ++
    [.wr false 0 false false, .rd true]

theorem starved_crowd : Starved (run step (initial 11) crowd) := by
  constructor <;> decide +kernel

/-- A beat accepted in the cycle after the reset is dropped. And of 33 packets of one byte, taken
without any fault of the writer, the reader gets one: the counter is zero again, with 32 packets in
the `fifo`. -/
theorem not_kept_since_reset :
    (¬ ∀ (s : State 11) (es : List Edge), PowerUp s →
      sinceReset accepted s es <:+ sinceReset sent s es ++ held (run step s es) ∧
      Always step (fun s e => e.resets = false → accepted s e ≠ [] →
        s.afifo.resetBusySig = false) s es ∧
      ∀ es₁ rs, es = es₁ ++ List.flatten rs → (∀ r ∈ rs, IsRound r) →
        12 * 2 ^ 11 + 29 ≤ rs.length → Delivered s es₁ es) ∧
    ∀ n, let rs := List.replicate n [.wr false 0 false false, .rd true]
      Always step Heeds (initial 11) (crowd ++ rs.flatten) ∧ (∀ r ∈ rs, IsRound r) ∧
        ¬ Delivered (initial 11) crowd (crowd ++ rs.flatten) := by
  constructor
  · intro h
    have hkept := (h (initial 11) [.wr true 0 false false, .wr false 7 true true]
      (initial_powerUp 11)).1
    revert hkept
    decide +kernel
  · intro n rs
    have hidle : ∀ e ∈ rs.flatten, Idles e := by
      intro e he
      obtain ⟨r, hr, her⟩ := List.mem_flatten.mp he
      rw [List.eq_of_mem_replicate hr] at her
      rcases List.mem_cons.mp her with rfl | her
      · exact ⟨rfl, rfl⟩
      · rw [List.mem_singleton.mp her]
        trivial
    have hround : ∀ r ∈ rs, IsRound r := by
      intro r hr
      rw [List.eq_of_mem_replicate hr]
      exact ⟨by decide, ⟨0, false, false, by simp⟩, by simp⟩
    refine ⟨(always_append _ _ _).mpr ⟨by decide +kernel, starved_crowd.heeds_run hidle⟩, hround,
      fun hdelivered => ?_⟩
    obtain ⟨Z, -, hZ⟩ := hdelivered (List.replicate 32 (0x55, true)) 0x55 (by decide +kernel)
    have hone : sinceReset sent (initial 11) crowd = [(0x55, true)] := by decide +kernel
    have hle := hZ.length_le
    rw [sinceReset_append (resets_of_rounds hround), hone, starved_crowd.sent_run hidle] at hle
    simp at hle

end Runs

end RmiiEthernet.PacketAfifo
