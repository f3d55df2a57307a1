import RmiiEthernet.Afifo.Order
import RmiiEthernet.PacketAfifo.Circuit

/-!
# The packet FIFO hands over whole packets

The words on their way stand in the `fifo`, in the skid buffer and in the `afifo`; every edge
conserves them (`owes_step`), so the beats sent are the first of the beats accepted.

The counter has the number of complete packets in the `fifo` modulo 32 (`Counts`). A nonzero counter
therefore always means that a whole packet is there, and a packet that has begun is sent without a
gap (`sent_prefix_accepted`). The other direction fails when 32 packets are stored
(`numPacketsInFifo_eq_iff`).
-/

namespace RmiiEthernet.PacketAfifo

open Sync EthernetFcs

variable {D : ℕ} {s : State D}

/-! ## The words on their way -/

theorem getLsbD_wordOf (b : Byte × Bool) (k : ℕ) :
    (wordOf b).getLsbD k = if k < 8 then b.1.getLsbD k else (BitVec.ofBool b.2).getLsbD (k - 8) :=
  BitVec.getLsbD_append

/-- The word of a beat holds the beat. -/
theorem beatOf_wordOf (b : Byte × Bool) : beatOf (wordOf b) = b := by
  refine Prod.ext ?_ ?_
  · ext k hk
    simp only [beatOf, ← BitVec.getLsbD_eq_getElem, BitVec.getLsbD_extractLsb', getLsbD_wordOf,
      Nat.zero_add, hk, decide_true, Bool.true_and, if_true]
  · simp only [beatOf, Word.last, getLsbD_wordOf]
    cases b.2 <;> rfl

/-- The word in the skid buffer. -/
def SkidBufferSingle.caught (k : SkidBufferSingle) : List Word :=
  if k.expansionValidR then [k.expansionDataR] else []

/-- No reset is on its way to the read clock. -/
def Unreset (s : State D) : Prop :=
  s.resetPulseTransfer.aPulseR = false ∧ s.resetPulseTransfer.bFf0 = false ∧
    s.resetPulseTransfer.bFf1 = false

instance (s : State D) : Decidable (Unreset s) := inferInstanceAs (Decidable (_ ∧ _))

theorem Unreset.resetRdClk (h : Unreset s) : s.resetRdClk = false := by
  simp [State.resetRdClk, PulseTransfer.bPulseOut, h.2.2]

theorem Unreset.step {e : Edge} (h : Unreset s) (he : NoReset s e) : Unreset (step s e) := by
  obtain ⟨h₁, h₂, h₃⟩ := h
  cases e with
  | wr reset tdata tvalid tlast =>
    obtain rfl : reset = false := he
    refine ⟨?_, h₂, h₃⟩
    simp [PacketAfifo.step, State.wrStep, PulseTransfer.stepA, h₁]
  | rd tready => exact ⟨h₁, h₁, h₂⟩

/-- The skid buffer keeps the order: a word comes in from the `afifo`, the first one goes out to
the `fifo` unless this is full. -/
theorem caught_rdStep (hreset : s.resetRdClk = false) (tready : Bool) :
    s.skidBuffer.caught ++ Afifo.delivered true s.afifo (.rd s.skidBuffer.readyOut) =
      Fifo.written s.fifo (s.fifoInputs tready) ++ (s.rdStep tready).skidBuffer.caught := by
  cases hf : s.fifo.fullSig <;> cases hv : s.skidBuffer.expansionValidR <;>
    cases he : s.afifo.empty true <;>
    simp [SkidBufferSingle.caught, SkidBufferSingle.readyOut, SkidBufferSingle.step,
      SkidBufferSingle.dataOut, SkidBufferSingle.validOut, Afifo.delivered, Fifo.written,
      State.fifoInputs, State.fifoWe, State.fifoDin, State.afifoValid, State.afifoDout,
      State.rdStep, hreset, hf, hv, he]

theorem sent_eq_taken (s : State D) (tready : Bool) :
    sent s (.rd tready) = (Fifo.taken s.fifo (s.fifoInputs tready)).map beatOf := by
  cases hp : s.readPacket <;> cases hv : s.fifo.outputValidR <;> cases tready <;>
    simp [sent, Fifo.taken, Fifo.front, State.fifoInputs, State.fifoRe, State.mAxisTvalid,
      Fifo.State.empty, State.mAxisTdata, State.mAxisTlast, State.fifoDout, hp, hv]

/-- **An edge of the read clock** conserves the words of which the `afifo` hands over the first. -/
theorem content_rdStep {l p p' : List Word} (hl : Fifo.Holds s.fifo l)
    (hreset : s.resetRdClk = false) (tready : Bool)
    (hp : p = Afifo.delivered true s.afifo (.rd s.skidBuffer.readyOut) ++ p') :
    Fifo.content s.fifo ++ s.skidBuffer.caught ++ p =
      Fifo.taken s.fifo (s.fifoInputs tready) ++
        (Fifo.content (s.rdStep tready).fifo ++ (s.rdStep tready).skidBuffer.caught ++ p') := by
  have hcontent := hl.content_step (i := s.fifoInputs tready) hreset
  have hnext : Fifo.content (s.rdStep tready).fifo = Fifo.front _ ++ _ :=
    (hl.step (i := s.fifoInputs tready) hreset).2.content
  have hskid := caught_rdStep hreset tready
  calc Fifo.content s.fifo ++ s.skidBuffer.caught ++ p
      = Fifo.front s.fifo ++ l ++ (s.skidBuffer.caught ++
          Afifo.delivered true s.afifo (.rd s.skidBuffer.readyOut)) ++ p' := by
        rw [hp, hl.content]
        simp only [List.append_assoc]
    _ = (Fifo.front s.fifo ++ l ++ Fifo.written s.fifo (s.fifoInputs tready)) ++
          (s.rdStep tready).skidBuffer.caught ++ p' := by
        rw [hskid]
        simp only [List.append_assoc]
    _ = _ := by
        rw [← hcontent, hnext]
        simp only [List.append_assoc]

/-- `p` are the beats accepted and not yet sent. -/
def Owes (s : State D) (_ : Unit) (p : List (Byte × Bool)) : Prop :=
  ∃ l pa, Unreset s ∧ Fifo.Holds s.fifo l ∧ Afifo.Owes true s.afifo () pa ∧
    p = (Fifo.front s.fifo ++ l ++ s.skidBuffer.caught ++ pa).map beatOf

theorem owes_step (hD : 1 ≤ D) (s : State D) (g : Unit) (p : List (Byte × Bool)) (e : Edge)
    (h : Owes s g p) (he : NoReset s e) :
    ∃ p', Owes (step s e) (run (fun g _ => g) g (accepted s e)) p' ∧
      p ++ collect (fun g _ => g) (fun _ a => [a]) g (accepted s e) = sent s e ++ p' := by
  obtain ⟨l, pa, hun, hl, hpa, rfl⟩ := h
  rw [collect_singleton]
  cases e with
  | wr reset tdata tvalid tlast =>
    obtain rfl : reset = false := he
    obtain ⟨pa', hpa', e⟩ := Afifo.owes_step hD true s.afifo () pa
      (.wr false (tvalid && !s.afifo.resetBusySig) (wordOf (tdata, tlast))) hpa rfl
    rw [collect_singleton] at e
    have hbusy : s.afifo.resetBusySig = false := by
      obtain ⟨-, -, -, -, -, -, -, hq, -⟩ := hpa
      exact hq.resetBusySig
    refine ⟨_, ⟨l, pa', hun.step rfl, hl, hpa', rfl⟩, ?_⟩
    have hacc : accepted s (.wr false tdata tvalid tlast) = (Afifo.accepted s.afifo
        (.wr false (tvalid && !s.afifo.resetBusySig) (wordOf (tdata, tlast)))).map beatOf := by
      cases tvalid <;> cases hf : s.afifo.full <;>
        simp [accepted, Afifo.accepted, State.sAxisTready, hbusy, hf, beatOf_wordOf]
    rw [hacc, ← List.map_append, List.append_assoc, e]
    rfl
  | rd tready =>
    have hreset := hun.resetRdClk
    obtain ⟨pa', hpa', e⟩ := Afifo.owes_step hD true s.afifo () pa
      (.rd s.skidBuffer.readyOut) hpa trivial
    have hpa_eq : pa = Afifo.delivered true s.afifo (.rd s.skidBuffer.readyOut) ++ pa' := by
      simpa [Afifo.accepted] using e
    have hnext := (hl.step (i := s.fifoInputs tready) hreset).2
    refine ⟨_, ⟨_, pa', hun.step trivial, hnext, hpa', rfl⟩, ?_⟩
    have hnone : accepted s (.rd tready) = [] := rfl
    have hconserve := content_rdStep hl hreset tready hpa_eq
    have hcontent : Fifo.content (s.rdStep tready).fifo = Fifo.front _ ++ _ := hnext.content
    rw [hl.content, hcontent] at hconserve
    rw [hnone, List.append_nil, sent_eq_taken, ← List.map_append]
    exact congrArg (List.map beatOf) hconserve

theorem PowerUp.holds (h : PowerUp s) : Fifo.Holds s.fifo [] :=
  ⟨trivial, by simp [h.readPointer, h.writePointer], Nat.two_pow_pos D⟩

theorem owes_powerUp (h : PowerUp s) : Owes s () [] := by
  refine ⟨[], [], ?_, h.holds, Afifo.owes_powerUp true h.afifo, ?_⟩
  · simp [Unreset, h.resetPulseTransfer]
  · simp [Fifo.front, SkidBufferSingle.caught, h.outputValidR, h.expansionValidR]

/-! ## The counter -/

/-- **The counter** has the number of packets stored modulo 32, and while a packet is read its last
word is stored. -/
structure Counted (s : State D) : Prop where
  holds : ∃ l, Fifo.Holds s.fifo l
  numPacketsInFifo : s.numPacketsInFifo = BitVec.ofNat 5 (packetsStored s)
  readPacket : s.readPacket = true → 0 < packetsStored s

/-- The counter, with no reset on its way. -/
structure Counts (s : State D) : Prop extends Counted s where
  unreset : Unreset s

theorem countP_written (s : State D) (tready : Bool) :
    (Fifo.written s.fifo (s.fifoInputs tready)).countP Word.last = s.storesLast.toNat := by
  cases hw : (s.fifoWe && !s.fifo.fullSig) <;> cases hl : s.fifoDin.last <;>
    simp [Fifo.written, State.fifoInputs, State.storesLast, hw, hl]

theorem countP_taken (s : State D) (tready : Bool) :
    (Fifo.taken s.fifo (s.fifoInputs tready)).countP Word.last = (s.readsLast tready).toNat := by
  have hdout : s.fifoDout = s.fifo.dataOutR := rfl
  cases hre : s.fifoRe tready <;> cases hv : s.fifo.outputValidR <;>
    cases hl : s.fifoDout.last <;> rw [hdout] at hl <;>
    simp [Fifo.taken, Fifo.front, State.fifoInputs, State.readsLast, Fifo.State.empty,
      State.fifoDout, hre, hv, hl]

/-- An edge of the read clock counts the packet that is stored and the one that is read. -/
theorem packetsStored_rdStep {l : List Word} (hl : Fifo.Holds s.fifo l)
    (hreset : s.resetRdClk = false) (tready : Bool) :
    packetsStored (s.rdStep tready) + (s.readsLast tready).toNat =
      packetsStored s + s.storesLast.toNat := by
  have hcontent := hl.content_step (i := s.fifoInputs tready) hreset
  have hnext : Fifo.content (s.rdStep tready).fifo = Fifo.front _ ++ _ :=
    (hl.step (i := s.fifoInputs tready) hreset).2.content
  unfold packetsStored
  rw [hnext, hl.content, ← countP_written s tready, ← countP_taken s tready, Nat.add_comm,
    ← List.countP_append, hcontent, List.countP_append]

/-- The counter follows. -/
theorem numPacketsInFifo_rdStep {tready : Bool} {m n : ℕ} (hreset : s.resetRdClk = false)
    (hm : s.numPacketsInFifo = BitVec.ofNat 5 m)
    (hmn : n + (s.readsLast tready).toNat = m + s.storesLast.toNat) :
    (s.rdStep tready).numPacketsInFifo = BitVec.ofNat 5 n := by
  cases hs : s.storesLast <;> cases hr : s.readsLast tready <;>
    simp only [hs, hr, Bool.toNat_false, Bool.toNat_true, Nat.add_zero] at hmn
  · simp [State.rdStep, hreset, hs, hr, hm, hmn]
  · simp [State.rdStep, hreset, hs, hr, hm, ← hmn, BitVec.ofNat_add]
  · simp [State.rdStep, hreset, hs, hr, hm, hmn, BitVec.ofNat_add]
  · simp [State.rdStep, hreset, hs, hr, hm, Nat.add_right_cancel hmn]

/-- A nonzero counter means that a packet is stored. -/
theorem Counted.packetsStored_pos (h : Counted s) (ha : s.packetAvailable = true) :
    0 < packetsStored s := by
  by_contra hzero
  have hnum := h.numPacketsInFifo
  rw [show packetsStored s = 0 by omega] at hnum
  simp [State.packetAvailable, hnum] at ha

/-- An edge of the read clock. The reset of the `fifo` clears the counter as well. -/
theorem Counted.rdStep (h : Counted s) (tready : Bool) : Counted (s.rdStep tready) := by
  obtain ⟨l, hl⟩ := h.holds
  cases hreset : s.resetRdClk with
  | true =>
    obtain ⟨hholds, hfront⟩ :=
      Fifo.holds_step_sreset (s := s.fifo) (i := s.fifoInputs tready) hreset
    have hzero : packetsStored (s.rdStep tready) = 0 := by
      have hcontent : Fifo.content (s.rdStep tready).fifo = [] := by
        have hnext : (s.rdStep tready).fifo = Fifo.step s.fifo (s.fifoInputs tready) := rfl
        rw [hnext, hholds.content, hfront, List.append_nil]
      rw [packetsStored, hcontent, List.countP_nil]
    refine ⟨⟨[], hholds⟩, ?_, fun hread => ?_⟩
    · rw [hzero]
      simp [State.rdStep, hreset]
    · simp [State.rdStep, hreset] at hread
  | false =>
    have hcount := packetsStored_rdStep hl hreset tready
    refine ⟨⟨_, (hl.step hreset).2⟩, ?_, fun hread => ?_⟩
    · exact numPacketsInFifo_rdStep hreset h.numPacketsInFifo hcount
    · have hread : (!s.resetRdClk && !s.readsLast tready &&
          (s.packetAvailable || s.readPacket)) = true := hread
      simp only [hreset, Bool.not_false, Bool.true_and, Bool.and_eq_true, Bool.not_eq_true',
        Bool.or_eq_true] at hread
      obtain ⟨hlast, hread⟩ := hread
      have hpos : 0 < packetsStored s := hread.elim h.packetsStored_pos h.readPacket
      rw [hlast, Bool.toNat_false] at hcount
      omega

theorem Counted.step (h : Counted s) (e : Edge) : Counted (step s e) := by
  cases e with
  | wr reset tdata tvalid tlast => exact ⟨h.holds, h.numPacketsInFifo, h.readPacket⟩
  | rd tready => exact h.rdStep tready

theorem Counts.step {e : Edge} (h : Counts s) (he : NoReset s e) : Counts (step s e) :=
  ⟨h.toCounted.step e, h.unreset.step he⟩

theorem PowerUp.packetsStored (h : PowerUp s) : packetsStored s = 0 := by
  simp [PacketAfifo.packetsStored, h.holds.content, Fifo.front, h.outputValidR]

theorem counts_powerUp (h : PowerUp s) : Counts s := by
  refine ⟨⟨⟨[], h.holds⟩, ?_, fun hread => ?_⟩, ?_⟩
  · rw [h.packetsStored, h.numPacketsInFifo]
    rfl
  · simp [h.readPacket] at hread
  · simp [Unreset, h.resetPulseTransfer]

/-! ## No gap in a packet -/

/-- At this edge a valid output stays as it is unless its beat is accepted, and it stays valid
unless this is the last beat of a packet. -/
def NoGap (s : State D) (e : Edge) : Prop :=
  s.mAxisTvalid = true →
    ((∀ b ∈ sent s e, b.2 = false) → (step s e).mAxisTvalid = true) ∧
    (sent s e = [] → (step s e).fifoDout = s.fifoDout)

theorem noGap_of_counts {e : Edge} (h : Counts s) (he : NoReset s e) : NoGap s e := by
  intro hvalid
  have hv := hvalid
  simp only [State.mAxisTvalid, Fifo.State.empty, Bool.not_not, Bool.and_eq_true] at hv
  obtain ⟨hread, hout⟩ := hv
  cases e with
  | wr reset tdata tvalid tlast => exact ⟨fun _ => hvalid, fun _ => rfl⟩
  | rd tready =>
    obtain ⟨l, hl⟩ := h.holds
    have hreset := h.unreset.resetRdClk
    have hpos := h.readPacket hread
    have hfront : Fifo.front s.fifo = [s.fifoDout] := by
      simp [Fifo.front, State.fifoDout, hout]
    rw [packetsStored, hl.content, hfront] at hpos
    have hstep : ∀ w, Fifo.front (step s (.rd tready)).fifo = [w] →
        (step s (.rd tready)).fifo.outputValidR = true ∧ (step s (.rd tready)).fifoDout = w := by
      intro w hw
      cases hv : (step s (.rd tready)).fifo.outputValidR <;> simp [Fifo.front, hv] at hw
      exact ⟨rfl, hw⟩
    have hkeeps : s.readsLast tready = false → (step s (.rd tready)).fifo.outputValidR = true →
        (step s (.rd tready)).mAxisTvalid = true := by
      intro hlast hv
      have hread' : (step s (.rd tready)).readPacket = true := by
        simp [step, State.rdStep, hreset, hlast, hread]
      simp [State.mAxisTvalid, Fifo.State.empty, hread', hv]
    cases tready with
    | false =>
      have hre : (s.fifoInputs false).readEn = false := by simp [State.fifoInputs, State.fifoRe]
      have hkeep : Fifo.front (step s (.rd false)).fifo = Fifo.front s.fifo :=
        hl.front_step_of_not_read hreset hre (by simp [hfront])
      obtain ⟨h₁, h₂⟩ := hstep _ (hkeep.trans hfront)
      exact ⟨fun _ => hkeeps (by simp [State.readsLast, State.fifoRe]) h₁, fun _ => h₂⟩
    | true =>
      have hsent : sent s (.rd true) = [(s.mAxisTdata, s.mAxisTlast)] := by simp [sent, hvalid]
      refine ⟨fun hlast => ?_, fun hnone => by simp [hsent] at hnone⟩
      have hlast : s.fifoDout.last = false := hlast (s.mAxisTdata, s.mAxisTlast) (by simp [hsent])
      -- the last word of the packet is still in the memory
      obtain ⟨w, l, rfl⟩ : ∃ w l', l = w :: l' := by
        apply List.exists_cons_of_ne_nil
        rintro rfl
        simp [hlast] at hpos
      have hfetch : Fifo.front (step s (.rd true)).fifo = [w] := by
        have hf := (hl.step (i := s.fifoInputs true) hreset).1
        have hre : (s.fifoInputs true).readEn = true := by
          simp [State.fifoInputs, State.fifoRe, hread]
        rw [Fifo.fwftRead, hre] at hf
        exact hf
      exact hkeeps (by simp [State.readsLast, hlast]) (hstep w hfetch).1

/-! ## Every interleaving -/

section Runs

variable {es : List Edge}

/-- A stretch without gaps. -/
theorem noGap_run (h : Always step NoGap s es) (hv : s.mAxisTvalid = true) :
    ((∀ b ∈ collect step sent s es, b.2 = false) → (run step s es).mAxisTvalid = true) ∧
      (collect step sent s es = [] → (run step s es).fifoDout = s.fifoDout) := by
  induction es generalizing s with
  | nil => exact ⟨fun _ => hv, fun _ => rfl⟩
  | cons e es ih =>
    obtain ⟨h₁, h₂⟩ := h.1 hv
    simp only [collect_cons, List.mem_append, List.append_eq_nil_iff]
    refine ⟨fun hall => ?_, fun ⟨hnone, hnone'⟩ => ?_⟩
    · exact (ih h.2 (h₁ fun b hb => hall b (.inl hb))).1 fun b hb => hall b (.inr hb)
    · have hv' := h₁ fun b hb => by simp [hnone] at hb
      exact ((ih h.2 hv').2 hnone').trans (h₂ hnone)

theorem counts_run (h : PowerUp s) (hr : Always step NoReset s es) : Counts (run step s es) :=
  run_invariant (fun _ _ hs he => hs.step he) (counts_powerUp h) hr

/-- **Whole packets without gaps**, for every interleaving of the two clocks without a reset: the
beats accepted at the output are the first of the beats accepted at the input, in order; and from a
moment at which the output is valid on, it is valid as long as no last beat has been accepted, and
the same as long as no beat has. -/
theorem sent_prefix_accepted (hD : 2 ≤ D) (h : PowerUp s) (hr : Always step NoReset s es) :
    collect step sent s es <+: collect step accepted s es ∧
      ∀ es₁ es₂, es = es₁ ++ es₂ → (run step s es₁).mAxisTvalid = true →
        ((∀ b ∈ collect step sent (run step s es₁) es₂, b.2 = false) →
          (run step s es).mAxisTvalid = true) ∧
        (collect step sent (run step s es₁) es₂ = [] →
          (run step s es).mAxisTdata = (run step s es₁).mAxisTdata ∧
          (run step s es).mAxisTlast = (run step s es₁).mAxisTlast) := by
  constructor
  · obtain ⟨p, -, e⟩ := exists_pending (owes_step (by omega)) (owes_powerUp h) hr
    rw [collect_singleton, List.nil_append] at e
    exact ⟨p, e.symm⟩
  · rintro es₁ es₂ rfl hv
    rw [always_append] at hr
    have hstep (s : State D) (e : Edge) (hs : Counts s) (he : NoReset s e) :
        NoGap s e ∧ Counts (step s e) := ⟨noGap_of_counts hs he, hs.step he⟩
    have hgap := always_of_invariant hstep (counts_run h hr.1) hr.2
    obtain ⟨h₁, h₂⟩ := noGap_run hgap hv
    rw [run_append]
    refine ⟨h₁, fun hnone => ?_⟩
    unfold State.mAxisTdata State.mAxisTlast
    rw [h₂ hnone]
    exact ⟨rfl, rfl⟩

/-- The power-up state with all data registers zero. -/
def initial (D : ℕ) : State D where
  resetPulseTransfer := ⟨false, ⟨false, false⟩, false, false, false⟩
  afifo := ⟨fun _ => 0, 0, ⟨true, 0, 0⟩, ⟨false, false, false, 0, 0⟩, ⟨0, 0⟩, ⟨false, false⟩,
    ⟨false, 0, 0⟩, ⟨0, 0⟩, ⟨false, false⟩, .idle, false, false⟩
  skidBuffer := ⟨0, false⟩
  fifo := ⟨fun _ => 0, 0, 0, 0, false⟩
  numPacketsInFifo := 0
  readPacket := false

theorem initial_powerUp (D : ℕ) : PowerUp (initial D) := by
  constructor <;> first | rfl | constructor <;> rfl

/-- A packet of two beats; the output turns valid when both of them have come over. -/
theorem sent_prefix_accepted_two :
    collect step sent (initial 2) ([.wr false 1 true false, .wr false 2 true true] ++
      List.replicate 12 (.rd true)) = [(1, false), (2, true)] ∧
    collect step sent (initial 2) ([.wr false 1 true false, .wr false 2 true true] ++
      List.replicate 12 (.rd true)) <+:
    collect step accepted (initial 2) ([.wr false 1 true false, .wr false 2 true true] ++
      List.replicate 12 (.rd true)) :=
  ⟨by decide +kernel, (sent_prefix_accepted le_rfl (initial_powerUp 2) (by decide +kernel)).1⟩

/-! ## How many packets fit -/

/-- At this edge no packet is stored as the 32nd. -/
def FitsCounter (s : State D) : Edge → Prop
  | .wr _ _ _ _ => True
  | .rd tready => s.storesLast = true → s.readsLast tready = false → packetsStored s < 31

instance (s : State D) : ∀ e, Decidable (FitsCounter s e)
  | .wr _ _ _ _ => inferInstanceAs (Decidable True)
  | .rd tready => inferInstanceAs
      (Decidable (s.storesLast = true → s.readsLast tready = false → packetsStored s < 31))

/-- The counter is right as long as there are fewer than 32 packets. -/
theorem Counts.numPacketsInFifo_iff (h : Counts s) :
    (s.numPacketsInFifo.toNat = packetsStored s ∧
      (s.packetAvailable = true ↔ 0 < packetsStored s)) ↔ packetsStored s < 32 := by
  have hnum : s.numPacketsInFifo.toNat = packetsStored s % 32 := by rw [h.numPacketsInFifo]; rfl
  have havail : s.packetAvailable = true ↔ s.numPacketsInFifo.toNat ≠ 0 := by
    rw [State.packetAvailable, bne_iff_ne, Ne, ← BitVec.toNat_inj]
    rfl
  rw [havail, hnum]
  omega

theorem fitsCounter_iff {e : Edge} (h : Counts s) (hlt : packetsStored s < 32) :
    FitsCounter s e ↔ packetsStored (step s e) < 32 := by
  cases e with
  | wr reset tdata tvalid tlast => exact ⟨fun _ => hlt, fun _ => trivial⟩
  | rd tready =>
    obtain ⟨l, hl⟩ := h.holds
    have hcount := packetsStored_rdStep hl h.unreset.resetRdClk tready
    have hstep : packetsStored (step s (.rd tready)) = packetsStored (s.rdStep tready) := rfl
    rw [hstep, FitsCounter]
    cases hs : s.storesLast <;> cases hr : s.readsLast tready <;>
      simp only [hs, hr, Bool.toNat_false, Bool.toNat_true] at hcount <;>
      simp only [reduceCtorEq, forall_true_left, false_imp_iff, true_iff] <;> omega

theorem always_fitsCounter_iff (h : Counts s) (hlt : packetsStored s < 32)
    (hr : Always step NoReset s es) :
    Always step FitsCounter s es ↔ ∀ es₁, es₁ <+: es → packetsStored (run step s es₁) < 32 := by
  induction es generalizing s with
  | nil =>
    refine ⟨fun _ es₁ hes => ?_, fun _ => trivial⟩
    rw [List.prefix_nil.mp hes]
    exact hlt
  | cons e es ih =>
    rw [always_cons, fitsCounter_iff h hlt]
    constructor
    · rintro ⟨hstep, hes⟩ es₁ hprefix
      cases es₁ with
      | nil => exact hlt
      | cons e' es₁ =>
        rw [List.cons_prefix_cons] at hprefix
        obtain ⟨rfl, hprefix⟩ := hprefix
        exact (ih (h.step hr.1) hstep hr.2).mp hes es₁ hprefix
    · intro hall
      have hstep : packetsStored (step s e) < 32 := hall [e] (by simp)
      refine ⟨hstep, (ih (h.step hr.1) hstep hr.2).mpr fun es₁ hprefix => ?_⟩
      exact hall (e :: es₁) (List.cons_prefix_cons.mpr ⟨rfl, hprefix⟩)

/-- **When the counter is right**: it has the number of packets stored at every moment of a run,
and tells whether there is one, exactly when no packet is ever stored as the 32nd. -/
theorem numPacketsInFifo_eq_iff (h : PowerUp s) (hr : Always step NoReset s es) :
    (∀ es₁, es₁ <+: es →
      (run step s es₁).numPacketsInFifo.toNat = packetsStored (run step s es₁) ∧
      ((run step s es₁).packetAvailable = true ↔ 0 < packetsStored (run step s es₁))) ↔
    Always step FitsCounter s es := by
  have hcounts (es₁ : List Edge) (hes : es₁ <+: es) : Counts (run step s es₁) := by
    obtain ⟨es₂, rfl⟩ := hes
    exact counts_run h ((always_append _ _ _).mp hr).1
  have hlt : packetsStored s < 32 := by rw [h.packetsStored]; decide
  rw [always_fitsCounter_iff (counts_powerUp h) hlt hr]
  exact forall₂_congr fun es₁ hes => (hcounts es₁ hes).numPacketsInFifo_iff

end Runs

/-- Two packets are counted. -/
theorem numPacketsInFifo_eq_two :
    (run step (initial 11) (List.replicate 2 (.wr false 0x55 true true) ++
      List.replicate 8 (.rd false))).numPacketsInFifo.toNat =
    packetsStored (run step (initial 11) (List.replicate 2 (.wr false 0x55 true true) ++
      List.replicate 8 (.rd false))) :=
  ((numPacketsInFifo_eq_iff (initial_powerUp 11) (by decide +kernel)).mpr (by decide +kernel) _
    (List.prefix_refl _)).1

/-- 32 packets of one byte behind a reader that does not read, in the depth of `rmii_mac`: the
counter is zero, and no packet is seen. -/
theorem not_numPacketsInFifo_eq : PowerUp (initial 11) ∧
    Always step NoReset (initial 11) (List.replicate 32 (.wr false 0x55 true true) ++
      List.replicate 37 (.rd false)) ∧
    packetsStored (run step (initial 11) (List.replicate 32 (.wr false 0x55 true true) ++
      List.replicate 37 (.rd false))) = 32 ∧
    (run step (initial 11) (List.replicate 32 (.wr false 0x55 true true) ++
      List.replicate 37 (.rd false))).numPacketsInFifo = 0 ∧
    (run step (initial 11) (List.replicate 32 (.wr false 0x55 true true) ++
      List.replicate 37 (.rd false))).packetAvailable = false := by
  refine ⟨initial_powerUp 11, ?_, ?_, ?_, ?_⟩ <;> decide +kernel

end RmiiEthernet.PacketAfifo
