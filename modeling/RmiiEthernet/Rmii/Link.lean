import RmiiEthernet.Rmii.Frames
import RmiiEthernet.Rmii.Receiver

/-!
# A transmitter wired to a receiver

`tx_en` and `txd` of an `rmii_mac_tx` drive `crs_dv` and `rxd` of an `rmii_mac_rx` on the same
clock. The receiver sees the di-bits of the transmitter one cycle late (`Carries.step`), the pause
between packets is long enough to align it anew (`Apart`), and decoding the line gives the packets
back (`decode_wire`); so the receiver shows the packets that the transmitter is offered.

The reset leaves `s_axis_tready` alone, and the registers in which the receiver puts a byte
together. A beat may be taken in the cycle behind it and lost, and a delimiter may be completed
there without a carrier, so that the receiver shows the next preamble (`delivers_iff`).
-/

namespace RmiiEthernet.RmiiLink

open Sync EthernetFcs RmiiMacTx RmiiMacRx

/-! ## The link -/

/-- The two circuits. -/
structure State where
  tx : RmiiMacTx.State
  rx : RmiiMacRx.State

/-- What the receiver gets in a cycle. -/
def rxInputs (s : State) (i : RmiiMacTx.Inputs) : RmiiMacRx.Inputs where
  reset := i.reset
  crsDv := s.tx.txEn
  rxd := s.tx.txd

/-- One clock edge. -/
def step (s : State) (i : RmiiMacTx.Inputs) : State where
  tx := RmiiMacTx.step s.tx i
  rx := RmiiMacRx.step s.rx (rxInputs s i)

/-- The state after a cycle of a reset, whatever was in progress before. -/
def AfterReset (s : State) : Prop := ∃ s₀ i, i.reset = true ∧ s = step s₀ i

/-- The di-bit in the receiver's first register completes a delimiter. -/
def SfdPending (s : State) : Prop :=
  s.rx.crsDvR = true ∧ s.rx.byteCounter = 3 ∧ pushDiBit s.rx.rxByte s.rx.rxdR = sfd

instance (s : State) : Decidable (SfdPending s) := by unfold SfdPending; infer_instance

/-- The transmitter's input port is ready. -/
def sAxisTready (s : State) (_ : RmiiMacTx.Inputs) : Bool := s.tx.sAxisTready

/-- The beat that the receiver shows in a cycle. -/
def shown (s : State) (i : RmiiMacTx.Inputs) : List (Byte × Bool) :=
  RmiiMacRx.shown s.rx (rxInputs s i)

/-- The di-bit that the receiver decodes in a cycle. -/
def received (s : State) (i : RmiiMacTx.Inputs) : List (DiBit × Bool) :=
  RmiiMacRx.received s.rx (rxInputs s i)

/-- The link with the source of the transmitter. -/
def fed : State × Source Byte → RmiiMacTx.Inputs → State × Source Byte :=
  sourced true step offer sAxisTready

/-- The transmitter and its source. -/
def txOf (y : State × Source Byte) : RmiiMacTx.State × Source Byte := (y.1.tx, y.2)

/-! ## The line -/

section Line

/-- A byte is assembled from its di-bits. -/
theorem byteOf_diBits (b : Byte) : byteOf (diBits b) = b := by
  ext k hk
  simp only [byteOf, diBits, List.foldl_cons, List.foldl_nil, ← BitVec.getLsbD_eq_getElem,
    getLsbD_pushDiBit, diBit, BitVec.getLsbD_extractLsb']
  rcases (by omega : k = 0 ∨ k = 1 ∨ k = 2 ∨ k = 3 ∨ k = 4 ∨ k = 5 ∨ k = 6 ∨ k = 7) with
    rfl | rfl | rfl | rfl | rfl | rfl | rfl | rfl <;> rfl

theorem beats_diBits (b : Byte) (l : List DiBit) :
    beats (diBits b ++ l) =
      [(diBit b 0, false), (diBit b 1, false), (diBit b 2, false), (diBit b 3, l.isEmpty)] ++
        beats l :=
  Decoder.beats_four _ _ _ _ l

/-- Behind the delimiter the decoder delivers the bytes of the packet. -/
theorem decode_data {q : List Byte} (hq : q ≠ []) :
    collect Decoder.step Decoder.emit ⟨some [], .data⟩ (beats (q.flatMap diBits)) = beats q ∧
      run Decoder.step ⟨some [], .data⟩ (beats (q.flatMap diBits)) = ⟨none, .waitForSfd⟩ := by
  induction q with
  | nil => exact absurd rfl hq
  | cons b q ih =>
    have hb : byteOf [diBit b 0, diBit b 1, diBit b 2, diBit b 3] = b := byteOf_diBits b
    rw [List.flatMap_cons, beats_diBits, collect_append, run_append, Decoder.run_four,
      Decoder.collect_four, hb, beats_cons]
    cases q with
    | nil => simp [Decoder.advance]
    | cons c q =>
      obtain ⟨h₁, h₂⟩ := ih (by simp)
      have hne : ((c :: q).flatMap diBits).isEmpty = false := rfl
      rw [hne]
      exact ⟨congrArg ((b, false) :: ·) h₁, h₂⟩

/-- **The decoder reads the line**: the preamble and the delimiter bring it into step, the packet is
delivered, and the end of the carrier makes it wait again. -/
theorem decode_wire {q : List Byte} (hq : q ≠ []) :
    collect Decoder.step Decoder.emit ⟨none, .waitForSfd⟩ (beats (wire q)) = beats q ∧
      run Decoder.step ⟨none, .waitForSfd⟩ (beats (wire q)) = ⟨none, .waitForSfd⟩ := by
  have hne : q.flatMap diBits ≠ [] := by
    obtain ⟨b, q, rfl⟩ := List.exists_cons_of_ne_nil hq
    exact List.cons_ne_nil _ _
  obtain ⟨h₁, h₂⟩ := decode_data hq
  rw [wire_eq, List.append_cons, beats_append _ hne, collect_append, run_append]
  exact ⟨h₁, h₂⟩

theorem decode_wires {ps : List (List Byte)} (hps : ∀ q ∈ ps, q ≠ []) :
    collect Decoder.step Decoder.emit ⟨none, .waitForSfd⟩
        (ps.flatMap fun q => beats (wire q)) = ps.flatMap beats := by
  induction ps with
  | nil => rfl
  | cons q ps ih =>
    obtain ⟨h₁, h₂⟩ := decode_wire (hps q (by simp))
    rw [List.flatMap_cons, collect_append, h₁, h₂, ih fun r hr => hps r (by simp [hr]),
      List.flatMap_cons]

end Line

/-! ## One cycle -/

section Cycle

variable {s : State} {i : RmiiMacTx.Inputs} {y : State × Source Byte}
  {p : List (DiBit × Bool)}

/-- **What is still to be received**: the di-bit in the receiver's first register and what is still
to be sent. -/
def Carries (y : State × Source Byte) (p : List (DiBit × Bool)) : Prop :=
  ∃ p', Sends (y.1.tx, y.2) p' ∧ p = received y.1 {} ++ p'

/-- The receiver's register follows the line. -/
theorem received_step (hi : i.reset = false) : received (step s i) {} = sent s.tx := by
  cases hen : s.tx.txEn <;>
    simp [received, RmiiMacRx.received, step, RmiiMacRx.step, RmiiMacTx.step, rxInputs, sent, hen,
      hi]

theorem Carries.step (h : Carries y p) (hi : i.reset = false)
    (ho : Source.Offers offer y i) :
    ∃ p', Carries (fed y i) p' ∧ p = received y.1 i ++ p' := by
  obtain ⟨p, hp, rfl⟩ := h
  obtain ⟨p', hp', rfl⟩ := hp.step hi ho
  refine ⟨_, ⟨p', hp', rfl⟩, ?_⟩
  have hnext : received (fed y i).1 {} = sent y.1.tx := received_step hi
  rw [hnext]
  rfl

/-- The receiver has seen the line quiet before the next packet starts. -/
structure Apart (s : State) : Prop where
  idle : s.tx.fsmState = .idle → s.tx.txEn = false
  sending : s.tx.fsmState.sending = true → s.tx.txEn = false → s.rx.crsDvR = false
  spaced : s.tx.txEn = true → s.rx.crsDvR = false → s.rx.byteCounterReset = true

theorem txEn_step (hi : i.reset = false) : (step s i).tx.txEn = s.tx.fsmState.sending := by
  simp [step, RmiiMacTx.step, hi]

theorem Apart.step (h : Apart s) (hi : i.reset = false) : Apart (step s i) where
  idle hidle := by
    rw [txEn_step hi]
    have hidle : RmiiMacTx.advance s.tx i = .idle := by
      simpa [RmiiLink.step, RmiiMacTx.step, hi] using hidle
    unfold RmiiMacTx.advance at hidle
    cases hf : s.tx.fsmState <;> simp_all [FsmState.sending]
    all_goals split at hidle <;> simp_all
  sending hsending hoff := by
    rw [txEn_step hi] at hoff
    have hsending : (RmiiMacTx.advance s.tx i).sending = true := by
      simpa [RmiiLink.step, RmiiMacTx.step, hi] using hsending
    unfold RmiiMacTx.advance at hsending
    change s.tx.txEn = false
    cases hf : s.tx.fsmState with
    | idle => exact h.idle hf
    | preamble | sfd | data => simp [hf, FsmState.sending] at hoff
    | ipg =>
      rw [hf] at hsending
      by_cases hc : s.tx.cycleCounter = 0#12 <;> simp [hc, FsmState.sending] at hsending
  spaced hon hoff := by
    rw [txEn_step hi] at hon
    have hoff : s.tx.txEn = false := hoff
    simp [RmiiLink.step, RmiiMacRx.step, h.sending hon hoff]

/-- The first `k` registers on the way from the transmitter to the receiver's output are empty. A
di-bit that comes before an alignment counts for nothing. -/
structure Emptied (k : ℕ) (s : State) : Prop where
  txEn : 1 ≤ k → s.tx.txEn = false
  crsDvR : 2 ≤ k → s.rx.crsDvR = true → s.rx.byteCounterReset = true ∧ s.rx.byteCounter = 1#2
  passing : 3 ≤ k → passing s.rx = []
  rxByteValidR : 4 ≤ k → s.rx.rxByteValidR = false
  mAxisTvalid : 5 ≤ k → s.rx.mAxisTvalid = false

theorem Emptied.mono {k l : ℕ} (h : Emptied k s) (hl : l ≤ k) : Emptied l s where
  txEn hk := h.txEn (hk.trans hl)
  crsDvR hk := h.crsDvR (hk.trans hl)
  passing hk := h.passing (hk.trans hl)
  rxByteValidR hk := h.rxByteValidR (hk.trans hl)
  mAxisTvalid hk := h.mAxisTvalid (hk.trans hl)

/-- While nothing is sent, one register more becomes empty in every cycle. -/
theorem Emptied.step {k : ℕ} (h : Emptied k s) (hi : i.reset = false)
    (hquiet : s.tx.fsmState.sending = false) : Emptied (k + 1) (step s i) where
  txEn _ := by rw [txEn_step hi, hquiet]
  crsDvR hk hon := by
    have hon : s.tx.txEn = true := hon
    simp [h.txEn (by omega)] at hon
  passing hk := by
    cases hon : s.rx.crsDvR with
    | false => simp [RmiiMacRx.passing, RmiiLink.step, RmiiMacRx.step, hon]
    | true =>
      have hc := (h.crsDvR (by omega) hon).2
      simp [RmiiMacRx.passing, RmiiLink.step, RmiiMacRx.step, byteCounterMax, hc]
  rxByteValidR hk := by
    have hnone : RmiiMacRx.passing s.rx = [] := h.passing (by omega)
    cases hf : s.rx.fsmState <;> simp_all [RmiiMacRx.passing, RmiiLink.step, RmiiMacRx.step]
  mAxisTvalid hk := by simp [RmiiLink.step, RmiiMacRx.step, h.rxByteValidR (by omega)]

/-- The gap between packets empties the receiver. -/
structure Drains (s : State) : Prop where
  ipg : s.tx.fsmState = .ipg → s.tx.cycleCounter.toNat ≤ 56 ∧
    Emptied (56 - s.tx.cycleCounter.toNat) s
  idle : s.tx.fsmState = .idle → Emptied 5 s

theorem Drains.step (h : Drains s) (hi : i.reset = false) : Drains (step s i) := by
  have hadvance : (RmiiLink.step s i).tx.fsmState = RmiiMacTx.advance s.tx i := by
    simp [RmiiLink.step, RmiiMacTx.step, hi]
  unfold RmiiMacTx.advance at hadvance
  cases hf : s.tx.fsmState with
  | idle =>
    rw [hf] at hadvance
    refine ⟨fun hipg => ?_, fun _ => ?_⟩
    · cases hv : i.sAxisTvalid <;> simp [hadvance, hv] at hipg
    · exact ((h.idle hf).step hi (by rw [hf]; rfl)).mono (by omega)
  | preamble =>
    rw [hf] at hadvance
    constructor <;> intro hnext <;> by_cases hc : s.tx.cycleCounter = 0#12 <;>
      simp [hadvance, hc] at hnext
  | sfd =>
    rw [hf] at hadvance
    constructor <;> intro hnext <;> simp [hadvance] at hnext
  | data =>
    rw [hf] at hadvance
    constructor <;> intro hnext
    · have hcount : (RmiiLink.step s i).tx.cycleCounter = 56 := by
        by_cases hend : (i.sAxisTlast && s.tx.diBitSelect == 3#2) = true
        · simp only [RmiiLink.step, RmiiMacTx.step, hf, hend, if_true]
          rfl
        · simp [hadvance, hend] at hnext
      rw [hcount]
      exact ⟨le_rfl, ⟨by simp, by simp, by simp, by simp, by simp⟩⟩
    · by_cases hend : (i.sAxisTlast && s.tx.diBitSelect == 3#2) = true <;>
        simp [hadvance, hend] at hnext
  | ipg =>
    rw [hf] at hadvance
    obtain ⟨hle, hemptied⟩ := h.ipg hf
    have hquiet : s.tx.fsmState.sending = false := by rw [hf]; rfl
    by_cases hc : s.tx.cycleCounter = 0#12
    · refine ⟨fun hipg => by simp [hadvance, hc] at hipg, fun _ => ?_⟩
      apply (hemptied.step hi hquiet).mono
      rw [hc]
      decide
    · refine ⟨fun _ => ?_, fun hidle => by simp [hadvance, hc] at hidle⟩
      have hnext : (RmiiLink.step s i).tx.cycleCounter = s.tx.cycleCounter - 1 := by
        simp only [RmiiLink.step, RmiiMacTx.step, hf]
      have hpred := toNat_cycleCounter_sub s.tx hc
      rw [hnext]
      exact ⟨by omega, (hemptied.step hi hquiet).mono (by omega)⟩

end Cycle

/-! ## Whole runs -/

section Runs

variable {s : State} {is : List RmiiMacTx.Inputs} {ps : List (List Byte)}

/-- What the receiver does with the di-bits it gets. -/
def Decodes (s : State) (g : Decoder) (p : List (Byte × Bool)) : Prop :=
  Owes s.rx g p ∧ Apart s ∧ Drains s

theorem AfterReset.tx (h : AfterReset s) : RmiiMacTx.AfterReset s.tx := by
  obtain ⟨s₀, i, hi, rfl⟩ := h
  exact ⟨s₀.tx, i, hi, rfl⟩

/-- Behind the first cycle the receiver waits for a packet, or is in the middle of one. -/
theorem decodes_afterReset {i : RmiiMacTx.Inputs} (h : AfterReset s) (hi : i.reset = false) :
    Decodes (step s i) ⟨none, if SfdPending s then .data else .waitForSfd⟩ [] ∧
      shown s i = [] ∧ received (step s i) {} = [] := by
  have hen : s.tx.txEn = false := congrArg Prod.fst h.tx.idle.2
  have hidle : s.tx.fsmState = .idle := h.tx.idle.1
  have hrx : s.rx.byteCounterReset = true ∧ s.rx.rxByteValid = false ∧
      s.rx.rxByteValidR = false ∧ s.rx.mAxisTvalid = false ∧ s.rx.fsmState = .waitForSfd := by
    obtain ⟨s₀, j, hj, rfl⟩ := h
    simp [RmiiLink.step, RmiiMacRx.step, rxInputs, hj]
  obtain ⟨-, hv₁, hv₂, hv₃, hwait⟩ := hrx
  have hoff : (step s i).tx.txEn = false := by rw [txEn_step hi, hidle]; rfl
  have hcrs : (step s i).rx.crsDvR = false := hen
  have hfsm : (step s i).rx.fsmState = .waitForSfd := by
    simp [RmiiLink.step, RmiiMacRx.step, RmiiMacRx.advance, rxInputs, hi, hwait, hv₁]
  have hpassing : passing (step s i).rx = [] := by simp [passing, hfsm]
  have hvalid : (step s i).rx.rxByteValidR = false ∧ (step s i).rx.mAxisTvalid = false := by
    simp [RmiiLink.step, RmiiMacRx.step, hv₁, hv₂]
  refine ⟨⟨⟨by simp [hcrs], fun _ => rfl, ?_, ?_⟩, ⟨fun _ => hoff, fun _ _ => hcrs, by simp [hoff]⟩,
    ⟨fun hipg => ?_, fun _ => ⟨fun _ => hoff, fun _ hon => ?_, fun _ => hpassing,
      fun _ => hvalid.1, fun _ => hvalid.2⟩⟩⟩, ?_, ?_⟩
  · have hbyte : ((step s i).rx.rxByteValid && (step s i).rx.rxByte == sfd) = true ↔
        SfdPending s := by
      simp [SfdPending, RmiiLink.step, RmiiMacRx.step, rxInputs, byteCounterMax, hi]
      tauto
    simp only [RmiiMacRx.advance, hfsm, hbyte]
  · simp [output, passed, hpassing, hvalid]
  · have hadvance : (step s i).tx.fsmState = RmiiMacTx.advance s.tx i := by
      simp [RmiiLink.step, RmiiMacTx.step, hi]
    cases hv : i.sAxisTvalid <;> simp [hadvance, RmiiMacTx.advance, hidle, hv] at hipg
  · simp [hcrs] at hon
  · simp [shown, RmiiMacRx.shown, output, hv₃]
  · simp [received, RmiiMacRx.received, hcrs]

theorem Decodes.step {g : Decoder} {p : List (Byte × Bool)} {i : RmiiMacTx.Inputs}
    (h : Decodes s g p) (hi : i.reset = false) :
    ∃ p', Decodes (step s i) (run Decoder.step g (received s i)) p' ∧
      p ++ collect Decoder.step Decoder.emit g (received s i) = shown s i ++ p' := by
  obtain ⟨howes, hapart, hdrains⟩ := h
  obtain ⟨p', hp', e⟩ := owes_step howes
    (show Spaced s.rx (rxInputs s i) from ⟨hi, fun hoff hon => hapart.spaced hon hoff⟩)
  exact ⟨p', ⟨hp', hapart.step hi, hdrains.step hi⟩, e⟩

/-- In an idle link nothing is left to be sent, decoded or shown. -/
theorem Carries.eq_of_idle {y : State × Source Byte} {p : List (DiBit × Bool)} (h : Carries y p)
    (hdrains : Drains y.1) (hidle : y.1.tx.fsmState = .idle) (htodo : y.2.todo = []) :
    p = received y.1 {} := by
  obtain ⟨p', ⟨q, fresh, hne, hbeats, hphase, rfl⟩, rfl⟩ := h
  obtain rfl := hphase.quiet (by rw [hidle]; rfl)
  have hfresh : fresh = [] := by
    by_contra hfresh
    obtain ⟨r, fresh, rfl⟩ := List.exists_cons_of_ne_nil hfresh
    obtain ⟨b, r, rfl⟩ := List.exists_cons_of_ne_nil (hne r (by simp))
    rw [htodo] at hbeats
    simp [beats_cons] at hbeats
  simp [hfresh, sent, ahead, hidle, (hdrains.idle hidle).txEn (by omega)]

theorem Decodes.eq_nil_of_idle {g : Decoder} {p : List (Byte × Bool)} (h : Decodes s g p)
    (hidle : s.tx.fsmState = .idle) :
    p = [] ∧ collect Decoder.step Decoder.emit g (received s {}) = [] := by
  obtain ⟨howes, -, hdrains⟩ := h
  have hempty := hdrains.idle hidle
  constructor
  · rw [howes.pending]
    simp [output, passed, hempty.passing, hempty.rxByteValidR, hempty.mAxisTvalid]
  · cases hon : s.rx.crsDvR with
    | false => simp [received, RmiiMacRx.received, hon]
    | true =>
      have hpart : g.part = none := by
        have halign := howes.on hon
        cases hg : g.part with
        | none => rfl
        | some l =>
          rw [hg] at halign
          have hreset := (hempty.crsDvR (by omega) hon).1
          simp [halign.1] at hreset
      simp [received, RmiiMacRx.received, hon, Decoder.emit, Decoder.completed, hpart]

/-- **The line is decoded.** -/
theorem decoded_run {y : State × Source Byte} {g : Decoder} {p : List (DiBit × Bool)}
    (hp : Carries y p) (hg : Decodes y.1 g []) (hreset : ∀ i ∈ is, i.reset = false)
    (hoffers : Always fed (Source.Offers offer) y is) :
    collect step shown y.1 is <+: collect Decoder.step Decoder.emit g p ∧
      ((run step y.1 is).tx.fsmState = .idle → (run fed y is).2.todo = [] →
        collect step shown y.1 is = collect Decoder.step Decoder.emit g p) := by
  have hπ : ∀ y i, (fed y i).1 = step y.1 i := fun _ _ => rfl
  obtain ⟨p', hp', e⟩ := exists_rest (fun _ _ _ h hi => Carries.step h hi.1 hi.2) hp
    ((always_of_forall hreset _).and hoffers)
  obtain ⟨r, hr, e'⟩ := exists_pending (fun _ _ _ _ h hi => Decodes.step h hi) hg
    (always_of_forall hreset y.1)
  rw [collect_proj hπ] at e
  rw [List.nil_append] at e'
  have hall : collect step shown y.1 is ++ (r ++ collect Decoder.step Decoder.emit
      (run Decoder.step g (collect step received y.1 is)) p') =
      collect Decoder.step Decoder.emit g p := by
    rw [e, collect_append, e', List.append_assoc]
  refine ⟨⟨_, hall⟩, fun hidle htodo => ?_⟩
  obtain ⟨hr₁, hr₂⟩ := hr.eq_nil_of_idle hidle
  rw [← run_proj hπ y] at hidle hr hr₂
  rw [hp'.eq_of_idle hr.2.2 hidle htodo, hr₁, hr₂] at hall
  simpa using hall

/-- The packets that a source offers from a state on: none is empty, there is no reset, and the
source does not pause inside a packet. -/
structure Offered (s : State) (ps : List (List Byte)) (is : List RmiiMacTx.Inputs) : Prop where
  ne_nil : ∀ q ∈ ps, q ≠ []
  reset : ∀ i ∈ is, i.reset = false
  feeds : Feeds true step offer sAxisTready (ps.flatMap beats) s is

/-- **The receiver shows the packets**: the first of their beats and nothing else; and once the run
is as long as it takes to send them, not counting the cycles in which the source pauses, all of
them. -/
structure Delivers (s : State) (ps : List (List Byte)) (is : List RmiiMacTx.Inputs) : Prop where
  begins : collect step shown s is <+: ps.flatMap beats
  ends : (ps.map fun q => 4 * q.length + 90).sum +
    pauses true step offer sAxisTready (ps.flatMap beats) s is ≤ is.length →
      collect step shown s is = ps.flatMap beats

/-- Behind the first cycle all the packets are still to be sent, unless a beat of them was taken in
it. -/
theorem carries_afterReset {i : RmiiMacTx.Inputs} (hs : AfterReset s) (hps : ∀ q ∈ ps, q ≠ [])
    (hi : i.reset = false) (ho : Source.Offers offer (s, ⟨ps.flatMap beats, false⟩) i)
    (hfirst : s.tx.sAxisTready = true → i.sAxisTvalid = false)
    (hnone : received (step s i) {} = []) :
    Carries (fed (s, ⟨ps.flatMap beats, false⟩) i) (ps.flatMap fun q => beats (wire q)) := by
  refine ⟨ps.flatMap fun q => beats (wire q), ?_, ?_⟩
  swap
  · have hstate : (fed (s, ⟨ps.flatMap beats, false⟩) i).1 = step s i := rfl
    rw [hstate, hnone, List.nil_append]
  cases hready : s.tx.sAxisTready with
  | false =>
    have hwaiting := hs.tx.waiting hready
    have hoff : s.tx.txEn = false := congrArg Prod.fst hwaiting.quiet
    obtain ⟨p, hp, e⟩ := (hwaiting.sends hps).1.step hi ho
    have hsent : sent s.tx = [] := by simp [sent, hoff]
    rw [hsent, List.nil_append] at e
    rw [e]
    exact hp
  | true =>
    have hv := hfirst hready
    have hfed : fed (s, ⟨ps.flatMap beats, false⟩) i = (step s i, ⟨ps.flatMap beats, false⟩) := by
      simp [fed, sourced, offer, hv]
    rw [hfed]
    exact ((waiting_step hs.tx.idle.1 hi hv).sends hps).1

/-- **A link in which no delimiter is pending** delivers the packets, unless the first beat was
taken in the first cycle. -/
theorem delivers (hs : AfterReset s) (hsfd : ¬ SfdPending s) (h : Offered s ps is)
    (hfirst : s.tx.sAxisTready = true → ∀ i ∈ is.head?, i.sAxisTvalid = false) :
    Delivers s ps is := by
  have hlast : (ps.map fun q => 4 * q.length + 90).sum +
      pauses true step offer sAxisTready (ps.flatMap beats) s is ≤ is.length →
      (run step s is).tx.fsmState = .idle ∧
        unsent true step offer sAxisTready (ps.flatMap beats) s is = [] := by
    intro hlen
    have htx : ∀ y i, txOf (fed y i) = RmiiMacTx.fed (txOf y) i := fun _ _ => rfl
    have hpaused : collect fed (fun y i => paused offer (txOf y) i)
        (s, ⟨ps.flatMap beats, false⟩) is =
      collect RmiiMacTx.fed (paused offer) (s.tx, ⟨ps.flatMap beats, false⟩) is :=
      collect_proj htx _ is
    have hpauses : pauses true step offer sAxisTready (ps.flatMap beats) s is =
        pauses true RmiiMacTx.step offer RmiiMacTx.sAxisTready (ps.flatMap beats) s.tx is :=
      congrArg List.length hpaused
    rw [hpauses] at hlen
    obtain ⟨hidle, hunsent⟩ :=
      hs.tx.idle_run h.ne_nil h.reset ((always_proj htx (s, _) is).mp h.feeds) hfirst hlen
    have hstate : (run step s is).tx = run RmiiMacTx.step s.tx is :=
      run_proj (π := State.tx) (fun _ _ => rfl) s is
    have htodo := congrArg (fun x => x.2.todo) (run_proj htx (s, ⟨ps.flatMap beats, false⟩) is)
    exact ⟨by rw [hstate, hidle], htodo.trans hunsent⟩
  cases is with
  | nil => exact ⟨List.nil_prefix, fun hlen => (hlast hlen).2.symm⟩
  | cons i is =>
    obtain ⟨hg, hshown, hnone⟩ := decodes_afterReset hs (h.reset i (by simp))
    rw [if_neg hsfd] at hg
    have hp := carries_afterReset hs h.ne_nil (h.reset i (by simp)) h.feeds.1
      (fun hready => hfirst hready i (by simp)) hnone
    obtain ⟨hbegins, hends⟩ := decoded_run hp hg (fun j hj => h.reset j (by simp [hj])) h.feeds.2
    rw [decode_wires h.ne_nil] at hbegins hends
    have hsplit : collect step shown s (i :: is) = collect step shown (step s i) is := by
      rw [collect_cons, hshown, List.nil_append]
    refine ⟨by rw [hsplit]; exact hbegins, fun hlen => ?_⟩
    obtain ⟨hidle, hunsent⟩ := hlast hlen
    rw [hsplit]
    exact hends hidle hunsent

/-- The transmitter when it has just begun a packet. -/
def started : RmiiMacTx.State := ⟨.preamble, 0, 30, false, false, 0⟩

theorem step_started {i : RmiiMacTx.Inputs} (hs : s.tx.fsmState = .idle) (hi : i.reset = false)
    (hv : i.sAxisTvalid = true) : (step s i).tx = started := by
  simp [step, RmiiMacTx.step, RmiiMacTx.advance, hs, hi, hv, preambleLengthDibits,
    FsmState.sending, started]

/-- The inputs while the byte `22` is sent. -/
def lastByte : List RmiiMacTx.Inputs :=
  let i : RmiiMacTx.Inputs := { }
  List.replicate 36 { i with sAxisTdata := 0x22, sAxisTvalid := true, sAxisTlast := true } ++
    List.replicate 80 i

/-- A receiver in the middle of a packet shows the preamble. -/
theorem shown_lastByte {y : State × Source Byte} {f : RmiiMacRx.FsmState} (htx : y.1.tx = started)
    (hsource : y.2 = ⟨[(0x22, true)], true⟩) (hg : Decodes y.1 ⟨none, f⟩ [])
    (hnone : received y.1 {} = []) :
    Always fed (Source.Offers offer) y lastByte ∧
      collect step shown y.1 lastByte =
        if f = .data then beats (List.replicate 7 0x55 ++ [0xD5, 0x22]) else [(0x22, true)] := by
  have htxOf : txOf y = (started, ⟨[(0x22, true)], true⟩) := by rw [txOf, htx, hsource]
  have hproj : ∀ y i, txOf (fed y i) = RmiiMacTx.fed (txOf y) i := fun _ _ => rfl
  have hπ : ∀ y i, (fed y i).1 = step y.1 i := fun _ _ => rfl
  have hp : Carries y (beats (wire [0x22])) := by
    refine ⟨beats (wire [0x22]), ?_, by rw [hnone, List.nil_append]⟩
    rw [htx, hsource]
    refine ⟨[0x22], [], by simp, rfl, ?_, by decide⟩
    constructor <;> simp [started, FsmState.sending]
  have hoffers : Always fed (Source.Offers offer) y lastByte := by
    have h : Always RmiiMacTx.fed (Source.Offers offer) (txOf y) lastByte := by
      rw [htxOf]
      decide +kernel
    exact (always_proj hproj y lastByte).mpr h
  have hfinal : (run RmiiMacTx.fed (txOf y) lastByte).1.fsmState = .idle ∧
      (run RmiiMacTx.fed (txOf y) lastByte).2.todo = [] := by
    rw [htxOf]
    decide +kernel
  rw [← run_proj hproj] at hfinal
  obtain ⟨hidle, htodo⟩ := hfinal
  have hreset : ∀ i ∈ lastByte, i.reset = false := by decide
  have hshown := (decoded_run hp hg hreset hoffers).2 (by rw [← run_proj hπ]; exact hidle) htodo
  refine ⟨hoffers, hshown.trans ?_⟩
  cases f <;> decide

/-- The receiver takes what follows a pending delimiter for the bytes of a packet. -/
theorem not_delivers_of_sfdPending (hs : AfterReset s) (hsfd : SfdPending s) :
    ∃ ps is, Offered s ps is ∧ (∀ i ∈ is.head?, i.sAxisTvalid = false) ∧ ¬ Delivers s ps is := by
  let i : RmiiMacTx.Inputs := { }
  let j : RmiiMacTx.Inputs := { sAxisTdata := 0x22, sAxisTvalid := true, sAxisTlast := true }
  have hwaiting : Waiting (step s i).tx := waiting_step hs.tx.idle.1 rfl rfl
  obtain ⟨hg, hshown, hnone⟩ := decodes_afterReset (i := i) hs rfl
  rw [if_pos hsfd] at hg
  -- the second cycle begins the packet
  obtain ⟨p, hg', e⟩ := hg.step (i := j) rfl
  have hnone' : received (step s i) j = [] := hnone
  rw [hnone', collect_nil, List.nil_append] at e
  obtain ⟨hshown', rfl⟩ := List.append_eq_nil_iff.mp e.symm
  rw [hnone', run_nil] at hg'
  have hsecond : received (step (step s i) j) {} = [] := by
    have hoff : (step s i).tx.txEn = false := congrArg Prod.fst hwaiting.quiet
    rw [received_step rfl, sent, hoff]
    rfl
  have hfed : fed (step s i, ⟨[(0x22, true)], false⟩) j =
      (step (step s i) j, ⟨[(0x22, true)], true⟩) := by
    have hready : (step s i).tx.sAxisTready = false := hwaiting.refuses
    simp [fed, sourced, offer, j, sAxisTready, hready]
  obtain ⟨hoffers, hlast⟩ := shown_lastByte (y := (step (step s i) j, ⟨[(0x22, true)], true⟩))
    (step_started hwaiting.idle rfl rfl) rfl hg' hsecond
  rw [← hfed] at hoffers
  refine ⟨[[0x22]], i :: j :: lastByte, ⟨by simp, by decide, rfl, rfl, hoffers⟩, by simp [i],
    fun h => ?_⟩
  have hbegins := h.begins
  rw [collect_cons, collect_cons, hshown, hshown', hlast, if_pos rfl] at hbegins
  revert hbegins
  decide

/-- A beat that is taken in the first cycle is lost. -/
theorem not_delivers_of_ready (hs : AfterReset s) (hready : s.tx.sAxisTready = true) :
    ∃ ps is, Offered s ps is ∧ ¬ Delivers s ps is := by
  let j : RmiiMacTx.Inputs := { sAxisTdata := 0x11, sAxisTvalid := true }
  obtain ⟨hg, hshown, hnone⟩ := decodes_afterReset (i := j) hs rfl
  have hfed : fed (s, ⟨[(0x11, false), (0x22, true)], false⟩) j =
      (step s j, ⟨[(0x22, true)], true⟩) := by
    simp [fed, sourced, offer, j, sAxisTready, hready]
  obtain ⟨hoffers, hlast⟩ := shown_lastByte (y := (step s j, ⟨[(0x22, true)], true⟩))
    (step_started hs.tx.idle.1 rfl rfl) rfl hg hnone
  rw [← hfed] at hoffers
  refine ⟨[[0x11, 0x22]], j :: lastByte, ⟨by simp, by decide, rfl, hoffers⟩, fun h => ?_⟩
  have hbegins := h.begins
  rw [collect_cons, hshown, hlast] at hbegins
  revert hbegins
  by_cases hsfd : SfdPending s <;> simp only [hsfd] <;> decide

/-- **The round trip after any reset.** The link delivers all packets in all runs if and only if the
port is not ready behind the reset and no delimiter is pending; in the runs whose first cycle offers
nothing, if and only if no delimiter is pending. -/
theorem delivers_iff (hs : AfterReset s) :
    ((∀ ps is, Offered s ps is → Delivers s ps is) ↔
      s.tx.sAxisTready = false ∧ ¬ SfdPending s) ∧
    ((∀ ps is, Offered s ps is → (∀ i ∈ is.head?, i.sAxisTvalid = false) → Delivers s ps is) ↔
      ¬ SfdPending s) := by
  refine ⟨⟨fun h => ⟨?_, fun hsfd => ?_⟩, fun h ps is hoffered => ?_⟩,
    ⟨fun h hsfd => ?_, fun h ps is hoffered hquiet => ?_⟩⟩
  · by_contra hready
    obtain ⟨ps, is, hoffered, hnot⟩ := not_delivers_of_ready hs (by simpa using hready)
    exact hnot (h ps is hoffered)
  · obtain ⟨ps, is, hoffered, -, hnot⟩ := not_delivers_of_sfdPending hs hsfd
    exact hnot (h ps is hoffered)
  · exact delivers hs h.2 hoffered (by simp [h.1])
  · obtain ⟨ps, is, hoffered, hquiet, hnot⟩ := not_delivers_of_sfdPending hs hsfd
    exact hnot (h ps is hoffered hquiet)
  · exact delivers hs h hoffered fun _ => hquiet

/-- The link after the reset. -/
def cleared : State :=
  step ⟨⟨.idle, 0, 0, false, true, 1⟩,
      ⟨false, 0, false, 0, 0, false, false, 0, false, false, .waitForSfd, 0, false, false⟩⟩
    { reset := true }

theorem cleared_afterReset : AfterReset cleared := ⟨_, { reset := true }, rfl, rfl⟩

/-- A packet of two bytes. -/
theorem delivers_iff_two :
    let i : RmiiMacTx.Inputs := { }
    collect step shown cleared
        (List.replicate 37 { i with sAxisTdata := 0xAB, sAxisTvalid := true } ++
          List.replicate 4 { i with sAxisTdata := 0xCD, sAxisTvalid := true, sAxisTlast := true } ++
          List.replicate 57 i) = [(0xAB, false), (0xCD, true)] := by
  intro i
  have hdelivers := (delivers_iff cleared_afterReset).1.mpr (by decide)
  refine (hdelivers [[0xAB, 0xCD]] _ ⟨by simp, ?_, ?_⟩).ends ?_ <;> decide +kernel

/-- The link when the bytes `11` and `22` are offered from power-up on, and a reset comes after `n`
cycles. -/
def interrupted (n : ℕ) : State :=
  let i : RmiiMacTx.Inputs := { }
  run step cleared
    (List.replicate n { i with sAxisTdata := 0x11, sAxisTvalid := true } ++ [{ reset := true }])

theorem interrupted_afterReset (n : ℕ) : AfterReset (interrupted n) :=
  ⟨_, { reset := true }, rfl, run_concat _ _ _⟩

/-- When the reset comes while the third di-bit of a byte is sent, the receiver shows one byte of
the next two. When it comes while the delimiter is received, it shows the next preamble. -/
theorem not_delivers_interrupted :
    let i : RmiiMacTx.Inputs := { }
    let is := { i with sAxisTdata := 0x11, sAxisTvalid := true } :: lastByte
    let js := i :: { i with sAxisTdata := 0x22, sAxisTvalid := true, sAxisTlast := true } ::
      lastByte
    (AfterReset (interrupted 35) ∧ Offered (interrupted 35) [[0x11, 0x22]] is ∧
      collect step shown (interrupted 35) is = [(0x22, true)] ∧
      ¬ Delivers (interrupted 35) [[0x11, 0x22]] is) ∧
    AfterReset (interrupted 33) ∧ Offered (interrupted 33) [[0x22]] js ∧
      collect step shown (interrupted 33) js =
        beats (List.replicate 7 0x55 ++ [0xD5, 0x22]) ∧
      ¬ Delivers (interrupted 33) [[0x22]] js := by
  intro i is js
  have hlost : collect step shown (interrupted 35) is = [(0x22, true)] := by decide +kernel
  have hshown : collect step shown (interrupted 33) js =
      beats (List.replicate 7 0x55 ++ [0xD5, 0x22]) := by decide +kernel
  refine ⟨⟨interrupted_afterReset 35, ⟨by simp, by decide +kernel, by decide +kernel⟩, hlost,
      fun h => ?_⟩,
    interrupted_afterReset 33, ⟨by simp, by decide +kernel, by decide +kernel⟩, hshown,
      fun h => ?_⟩
  · have hbegins := h.begins
    rw [hlost] at hbegins
    revert hbegins
    decide
  · have hbegins := h.begins
    rw [hshown] at hbegins
    revert hbegins
    decide

end Runs

end RmiiEthernet.RmiiLink
