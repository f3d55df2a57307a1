import RmiiEthernet.Ethernet.Fcs
import RmiiEthernet.Sync.Packet

/-!
# The RMII transmitter

`rmii_mac_tx` waits for a packet, sends the preamble and the start-of-frame delimiter, then the
packet two bits a cycle, the least significant ones of a byte first, and keeps the line quiet for
an inter-packet gap.

The beats the source has yet to hand over determine everything that will be sent: `Sends` ties a
transmitter with its source to the di-bits still to come, with a mark on the last one of a packet,
and `Sends.step` shows that a cycle sends the first of them. `left` counts the cycles to the end.
-/

namespace RmiiEthernet.RmiiMacTx

open Sync EthernetFcs

/-! ## The circuit -/

/-- `fsm_state_t`. -/
inductive FsmState
  | idle
  | preamble
  | sfd
  | data
  | ipg
  deriving DecidableEq

/-- The states in which `tx_en` is driven. -/
def FsmState.sending : FsmState → Bool
  | .preamble | .sfd | .data => true
  | .idle | .ipg => false

/-- The input ports in one cycle. -/
structure Inputs where
  reset : Bool := false
  sAxisTdata : Byte := 0
  sAxisTvalid : Bool := false
  sAxisTlast : Bool := false

/-- The registers. -/
structure State where
  fsmState : FsmState
  diBitSelect : BitVec 2
  cycleCounter : BitVec 12
  sAxisTready : Bool
  txEn : Bool
  txd : BitVec 2
  deriving DecidableEq

/-- `C_PREAMBLE_LENGTH_DIBITS_U`. -/
def preambleLengthDibits : BitVec 12 := 31

/-- `C_IPG_LENGTH_U`. -/
def ipgLength : BitVec 12 := 56

/-- The di-bit of a byte with a given number. -/
def diBit (b : Byte) (k : BitVec 2) : BitVec 2 := b.extractLsb' (2 * k.toNat) 2

section Signals

variable (s : State) (i : Inputs)

/-- The next state of the state machine when there is no reset. -/
def advance : FsmState :=
  match s.fsmState with
  | .idle => if i.sAxisTvalid then .preamble else .idle
  | .preamble => if s.cycleCounter = 0#12 then .sfd else .preamble
  | .sfd => .data
  | .data => if i.sAxisTlast && s.diBitSelect == 3#2 then .ipg else .data
  | .ipg => if s.cycleCounter = 0#12 then .idle else .ipg

/-- One clock edge. The reset leaves `s_axis_tready` and the counter alone. -/
def step : State where
  fsmState := if i.reset then .idle else advance s i
  diBitSelect :=
    if i.reset then 0
    else match s.fsmState with
      | .idle => if i.sAxisTvalid then 0 else s.diBitSelect
      | .data => s.diBitSelect + 1
      | .preamble | .sfd | .ipg => s.diBitSelect
  cycleCounter :=
    match s.fsmState with
    | .idle => if i.sAxisTvalid then preambleLengthDibits - 1 else s.cycleCounter - 1
    | .data => if i.sAxisTlast && s.diBitSelect == 3#2 then ipgLength else s.cycleCounter - 1
    | .preamble | .sfd | .ipg => s.cycleCounter - 1
  sAxisTready := s.fsmState == .data && s.diBitSelect == 2#2
  txEn := !i.reset && s.fsmState.sending
  txd :=
    if i.reset then 0
    else match s.fsmState with
      | .preamble => 1
      | .sfd => 3
      | .data => diBit i.sAxisTdata s.diBitSelect
      | .idle | .ipg => 0

end Signals

/-- The beat on the input port. -/
def offer (i : Inputs) : Option (Byte × Bool) :=
  if i.sAxisTvalid then some (i.sAxisTdata, i.sAxisTlast) else none

/-- The input port is ready. -/
def sAxisTready (s : State) (_ : Inputs) : Bool := s.sAxisTready

/-- The transmitter with its source, which does not pause inside a packet. -/
def fed : State × Source Byte → Inputs → State × Source Byte := sourced true step offer sAxisTready

/-! ## What is sent -/

/-- The di-bits of a byte. -/
def diBits (b : Byte) : List (BitVec 2) := [diBit b 0, diBit b 1, diBit b 2, diBit b 3]

/-- The di-bits of a packet on the line. -/
def wire (q : List Byte) : List (BitVec 2) :=
  (List.replicate 7 0x55 ++ 0xD5 :: q).flatMap diBits

/-- The di-bit on the line, with a mark when the carrier ends behind it. -/
def sent (s : State) : List (BitVec 2 × Bool) :=
  if s.txEn then [(s.txd, !s.fsmState.sending)] else []

/-- What is to come of a packet of which the source has yet to hand over the bytes `q`. -/
def ahead (s : State) (q : List Byte) : List (BitVec 2) :=
  match s.fsmState with
  | .preamble => List.replicate (s.cycleCounter.toNat + 1) 1 ++ 3 :: q.flatMap diBits
  | .sfd => 3 :: q.flatMap diBits
  | .data => (q.flatMap diBits).drop s.diBitSelect.toNat
  | .idle | .ipg => []

/-- The part of the transmitter's state that depends on the packet under way. -/
structure Phase (s : State) (must : Bool) (q : List Byte) : Prop where
  sending : s.fsmState.sending = true → q ≠ [] ∧ must = true
  quiet : s.fsmState.sending = false → q = []
  diBitSelect : s.fsmState = .preamble ∨ s.fsmState = .sfd → s.diBitSelect = 0#2
  sAxisTready : s.sAxisTready = true ↔ s.fsmState = .data ∧ s.diBitSelect = 3#2

/-- **What is still to be sent** by a transmitter and its source: the di-bit on the line, the rest
of the packet under way, and the packets not begun yet. -/
def Sends (x : State × Source Byte) (p : List (BitVec 2 × Bool)) : Prop :=
  ∃ (q : List Byte) (fresh : List (List Byte)), (∀ r ∈ fresh, r ≠ []) ∧
    x.2.todo = beats q ++ fresh.flatMap beats ∧ Phase x.1 x.2.must q ∧
    p = sent x.1 ++ beats (ahead x.1 q) ++ fresh.flatMap fun r => beats (wire r)

/-! ## One cycle -/

section Cycle

variable {s : State} {i : Inputs} {x : State × Source Byte} {p : List (BitVec 2 × Bool)}

theorem wire_eq (q : List Byte) :
    wire q = List.replicate 31 1 ++ 3 :: q.flatMap diBits := by
  have hstart : (List.replicate 7 (0x55 : Byte) ++ [0xD5]).flatMap diBits =
      List.replicate 31 1 ++ [3] := by decide
  rw [wire, List.append_cons, List.flatMap_append, hstart]
  simp

theorem drop_diBits (b : Byte) (q : List Byte) {k : BitVec 2} (hk : k ≠ 3#2) :
    ((b :: q).flatMap diBits).drop k.toNat =
      diBit b k :: ((b :: q).flatMap diBits).drop (k + 1).toNat := by
  match k with
  | 0 | 1 | 2 => rfl
  | 3 => exact absurd rfl hk

theorem length_flatMap_diBits (q : List Byte) : (q.flatMap diBits).length = 4 * q.length := by
  induction q with
  | nil => rfl
  | cons b q ih =>
    rw [List.flatMap_cons, List.length_append, ih, List.length_cons]
    simp only [diBits, List.length_cons, List.length_nil]
    omega

/-- There is something to come exactly while the transmitter is sending. -/
theorem Phase.isEmpty_ahead {must : Bool} {q : List Byte} (h : Phase s must q) :
    (ahead s q).isEmpty = !s.fsmState.sending := by
  unfold ahead
  cases hf : s.fsmState with
  | idle | ipg => rfl
  | preamble | sfd => simp [FsmState.sending, List.isEmpty_eq_false_iff]
  | data =>
    have hq := (h.sending (by rw [hf]; rfl)).1
    have hpos := List.length_pos_of_ne_nil hq
    have hk := s.diBitSelect.isLt
    rw [FsmState.sending, Bool.not_true, List.isEmpty_eq_false_iff, Ne, List.drop_eq_nil_iff,
      length_flatMap_diBits]
    omega

/-- A source that has to offer shows its next beat at the port. -/
theorem inputs_of_must (ho : Source.Offers offer x i) (hmust : x.2.must = true) {b : Byte}
    {q : List Byte} {bs : List (Byte × Bool)} (htodo : x.2.todo = beats (b :: q) ++ bs) :
    i.sAxisTvalid = true ∧ i.sAxisTdata = b ∧ i.sAxisTlast = q.isEmpty := by
  unfold Source.Offers offer at ho
  cases hv : i.sAxisTvalid with
  | false => simp [hv, hmust] at ho
  | true => simpa [hv, htodo, beats_cons, eq_comm] using ho

/-- A beat that is refused stays with the source. -/
theorem fed_refused (hready : x.1.sAxisTready = false) :
    fed x i = (step x.1 i, ⟨x.2.todo, x.2.must || i.sAxisTvalid⟩) := by
  unfold fed sourced offer RmiiMacTx.sAxisTready
  cases hv : i.sAxisTvalid <;> simp [hready]

theorem fed_handed (hready : x.1.sAxisTready = true) (hv : i.sAxisTvalid = true) :
    fed x i = (step x.1 i, ⟨x.2.todo.tail, !i.sAxisTlast⟩) := by
  simp [fed, sourced, offer, RmiiMacTx.sAxisTready, hready, hv]

/-- A cycle of a packet under way sends its next di-bit: of the bytes `q` those of the result are
left, before the beats `bs`. -/
def Advances (x : State × Source Byte) (i : Inputs) (q : List Byte) (bs : List (Byte × Bool)) :
    Prop :=
  ∃ q', (fed x i).2.todo = beats q' ++ bs ∧ Phase (fed x i).1 (fed x i).2.must q' ∧
    (fed x i).1.txEn = true ∧ ahead x.1 q = (fed x i).1.txd :: ahead (fed x i).1 q'

theorem Advances.sends {q : List Byte} {fresh : List (List Byte)}
    (h : Advances x i q (fresh.flatMap beats)) (hne : ∀ r ∈ fresh, r ≠ []) :
    ∃ p', Sends (fed x i) p' ∧
      sent x.1 ++ beats (ahead x.1 q) ++ fresh.flatMap (fun r => beats (wire r)) =
        sent x.1 ++ p' := by
  obtain ⟨q', htodo, hphase, hen, hahead⟩ := h
  refine ⟨_, ⟨q', fresh, hne, htodo, hphase, rfl⟩, ?_⟩
  rw [hahead, beats_cons, hphase.isEmpty_ahead]
  simp [sent, hen]

section Cases

variable {q : List Byte} {fresh : List (List Byte)} {bs : List (Byte × Bool)}

theorem Phase.not_sAxisTready {must : Bool} (h : Phase s must q) (hf : s.fsmState ≠ .data) :
    s.sAxisTready = false := by
  by_contra hready
  exact hf (h.sAxisTready.mp (by simpa using hready)).1

theorem advances_preamble (htodo : x.2.todo = beats q ++ bs)
    (hphase : Phase x.1 x.2.must q)
    (hf : x.1.fsmState = .preamble) (hi : i.reset = false) :
    Advances x i q bs := by
  have hready := hphase.not_sAxisTready (by simp [hf])
  have hsel := hphase.diBitSelect (.inl hf)
  obtain ⟨hq, hmust⟩ := hphase.sending (by rw [hf]; rfl)
  refine ⟨q, ?_, ?_, ?_, ?_⟩ <;> rw [fed_refused hready]
  · exact htodo
  · by_cases hc : x.1.cycleCounter = 0#12 <;>
      constructor <;> simp [step, advance, hf, hi, hc, hq, hmust, hsel, FsmState.sending]
  · simp [step, hf, hi, FsmState.sending]
  · by_cases hc : x.1.cycleCounter = 0#12
    · simp [step, advance, ahead, hf, hi, hc]
    · have hcount : x.1.cycleCounter.toNat = (x.1.cycleCounter - 1).toNat + 1 := by
        have hpos : x.1.cycleCounter.toNat ≠ 0 := fun h => hc (BitVec.eq_of_toNat_eq h)
        bv_omega
      simp only [step, advance, ahead, hf, hi, hc, Bool.false_eq_true, if_false, hcount,
        List.replicate_succ (n := (x.1.cycleCounter - 1).toNat + 1), List.cons_append]

theorem advances_sfd (htodo : x.2.todo = beats q ++ bs)
    (hphase : Phase x.1 x.2.must q)
    (hf : x.1.fsmState = .sfd) (hi : i.reset = false) :
    Advances x i q bs := by
  have hready := hphase.not_sAxisTready (by simp [hf])
  have hsel := hphase.diBitSelect (.inr hf)
  obtain ⟨hq, hmust⟩ := hphase.sending (by rw [hf]; rfl)
  refine ⟨q, ?_, ?_, ?_, ?_⟩ <;> rw [fed_refused hready]
  · exact htodo
  · constructor <;> simp [step, advance, hf, hi, hq, hmust, hsel, FsmState.sending]
  · simp [step, hf, hi, FsmState.sending]
  · simp [step, advance, ahead, hf, hi, hsel]

theorem advances_data (htodo : x.2.todo = beats q ++ bs)
    (hphase : Phase x.1 x.2.must q)
    (hf : x.1.fsmState = .data) (hi : i.reset = false) (ho : Source.Offers offer x i) :
    Advances x i q bs := by
  obtain ⟨hq, hmust⟩ := hphase.sending (by rw [hf]; rfl)
  obtain ⟨b, q, rfl⟩ := List.exists_cons_of_ne_nil hq
  obtain ⟨hv, hb, hl⟩ := inputs_of_must ho hmust htodo
  by_cases hsel : x.1.diBitSelect = 3#2
  · have hready : x.1.sAxisTready = true := hphase.sAxisTready.mpr ⟨hf, hsel⟩
    refine ⟨q, ?_, ?_, ?_, ?_⟩ <;> rw [fed_handed hready hv]
    · simp [htodo, beats_cons]
    · cases q <;>
        constructor <;> simp [step, advance, hf, hi, hl, hsel, FsmState.sending]
    · simp [step, hf, hi, FsmState.sending]
    · cases q with
      | nil => simp [step, advance, ahead, hf, hi, hl, hb, hsel, diBits]
      | cons c q => simp [step, advance, ahead, hf, hi, hl, hb, hsel, diBits]
  · have hready : x.1.sAxisTready = false := by
      by_contra hready
      exact hsel (hphase.sAxisTready.mp (by simpa using hready)).2
    have hstay : (step x.1 i).fsmState = .data := by simp [step, advance, hf, hi, hsel]
    refine ⟨b :: q, ?_, ?_, ?_, ?_⟩ <;> rw [fed_refused hready]
    · exact htodo
    · constructor
      · simp [hmust]
      · simp [hstay, FsmState.sending]
      · simp [hstay]
      · have hthree : ∀ k : BitVec 2, k = 2#2 ↔ k + 1 = 3#2 := by decide
        rw [hstay]
        simpa [step, hf, hi] using hthree x.1.diBitSelect
    · simp [step, hf, hi, FsmState.sending]
    · have htxd : (step x.1 i).txd = diBit b x.1.diBitSelect := by simp [step, hf, hi, hb]
      have hnext : (step x.1 i).diBitSelect = x.1.diBitSelect + 1 := by simp [step, hf, hi]
      simp only [ahead, hf, hstay, htxd, hnext]
      exact drop_diBits b q hsel

/-- Outside of a packet the transmitter only forwards what is on the line. -/
theorem sends_quiet (hne : ∀ r ∈ fresh, r ≠ []) (htodo : x.2.todo = fresh.flatMap beats)
    (hready : x.1.sAxisTready = false) (hf : x.1.fsmState.sending = false)
    (hstay : (step x.1 i).fsmState.sending = false) :
    ∃ p', Sends (fed x i) p' ∧
      sent x.1 ++ fresh.flatMap (fun r => beats (wire r)) = sent x.1 ++ p' := by
  have hen : (step x.1 i).txEn = false := by simp [step, hf]
  have hnone : (step x.1 i).sAxisTready = false := by
    cases h : x.1.fsmState <;> simp_all [step, FsmState.sending]
  refine ⟨_, ⟨[], fresh, hne, ?_, ?_, rfl⟩, ?_⟩ <;> rw [fed_refused hready]
  · simpa using htodo
  · constructor
    · simp [hstay]
    · simp
    · rintro (h | h) <;> rw [h] at hstay <;> cases hstay
    · rw [hnone]
      simp only [Bool.false_eq_true, false_iff, not_and]
      intro h
      rw [h] at hstay
      cases hstay
  · have hahead : ahead (step x.1 i) [] = [] := by
      unfold ahead
      cases h : (step x.1 i).fsmState <;> simp_all [FsmState.sending]
    simp [sent, hen, hahead]

theorem sends_idle (hne : ∀ r ∈ fresh, r ≠ []) (htodo : x.2.todo = fresh.flatMap beats)
    (hready : x.1.sAxisTready = false) (hf : x.1.fsmState = .idle) (hv : i.sAxisTvalid = true)
    (hi : i.reset = false) (ho : Source.Offers offer x i) :
    ∃ p', Sends (fed x i) p' ∧
      sent x.1 ++ fresh.flatMap (fun r => beats (wire r)) = sent x.1 ++ p' := by
  cases fresh with
  | nil => simp [Source.Offers, offer, hv, htodo] at ho
  | cons q fresh =>
    have hq : q ≠ [] := hne q (by simp)
    have hnext : step x.1 i = ⟨.preamble, 0, 30, false, false, 0⟩ := by
      simp [step, advance, hf, hv, hi, preambleLengthDibits, FsmState.sending]
    refine ⟨_, ⟨q, fresh, fun r hr => hne r (by simp [hr]), ?_, ?_, rfl⟩, ?_⟩ <;>
      rw [fed_refused hready, hnext]
    · simpa using htodo
    · constructor <;> simp [hv, hq, FsmState.sending]
    · simp [sent, ahead, wire_eq]

end Cases

/-- **One cycle**: what is still to be sent is the di-bit on the line, and then what is still to be
sent afterwards. -/
theorem Sends.step (h : Sends x p) (hi : i.reset = false) (ho : Source.Offers offer x i) :
    ∃ p', Sends (fed x i) p' ∧ p = sent x.1 ++ p' := by
  obtain ⟨q, fresh, hne, htodo, hphase, rfl⟩ := h
  cases hf : x.1.fsmState with
  | preamble => exact (advances_preamble htodo hphase hf hi).sends hne
  | sfd => exact (advances_sfd htodo hphase hf hi).sends hne
  | data => exact (advances_data htodo hphase hf hi ho).sends hne
  | idle =>
    have hready := hphase.not_sAxisTready (by simp [hf])
    obtain rfl := hphase.quiet (by rw [hf]; rfl)
    have hahead : ahead x.1 [] = [] := by simp [ahead, hf]
    rw [hahead, beats_nil, List.append_nil]
    cases hv : i.sAxisTvalid with
    | false =>
      exact sends_quiet hne htodo hready (by simp [hf, FsmState.sending])
        (by simp [RmiiMacTx.step, advance, hf, hv, hi, FsmState.sending])
    | true => exact sends_idle hne htodo hready hf hv hi ho
  | ipg =>
    have hready := hphase.not_sAxisTready (by simp [hf])
    obtain rfl := hphase.quiet (by rw [hf]; rfl)
    have hahead : ahead x.1 [] = [] := by simp [ahead, hf]
    rw [hahead, beats_nil, List.append_nil]
    apply sends_quiet hne htodo hready (by simp [hf, FsmState.sending])
    by_cases hc : x.1.cycleCounter = 0#12 <;>
      simp [RmiiMacTx.step, advance, hf, hc, hi, FsmState.sending]

/-! ## Progress -/

/-- The cycles it takes to send some beats: four for a byte, and ninety for the preamble, the gap
and the start of a packet. -/
def cost (bs : List (Byte × Bool)) : ℤ := 4 * bs.length + 90 * bs.countP (·.2)

@[simp] theorem cost_nil : cost [] = 0 := rfl

@[simp] theorem cost_cons (b : Byte × Bool) (bs : List (Byte × Bool)) :
    cost (b :: bs) = cost bs + if b.2 then 94 else 4 := by
  unfold cost
  cases hb : b.2 <;> simp [hb] <;> ring

theorem cost_nonneg (bs : List (Byte × Bool)) : 0 ≤ cost bs := by
  unfold cost
  positivity

theorem cost_append (bs cs : List (Byte × Bool)) : cost (bs ++ cs) = cost bs + cost cs := by
  induction bs with
  | nil => simp
  | cons b bs ih =>
    rw [List.cons_append, cost_cons, cost_cons, ih]
    ring

theorem cost_beats {q : List Byte} (hq : q ≠ []) : cost (beats q) = 4 * q.length + 90 := by
  induction q with
  | nil => exact absurd rfl hq
  | cons b q ih =>
    rw [beats_cons, cost_cons]
    cases q with
    | nil => simp
    | cons c q =>
      rw [ih (by simp)]
      simp only [List.isEmpty_cons, List.length_cons, Bool.false_eq_true, if_false]
      push_cast
      ring

theorem cost_flatMap_beats {ps : List (List Byte)} (hps : ∀ q ∈ ps, q ≠ []) :
    cost (ps.flatMap beats) = ((ps.map fun q => 4 * q.length + 90).sum : ℕ) := by
  induction ps with
  | nil => rfl
  | cons q ps ih =>
    rw [List.flatMap_cons, cost_append, cost_beats (hps q (by simp)),
      ih fun r hr => hps r (by simp [hr])]
    simp

/-- The cycles to the end, when the source does not pause. -/
def left (x : State × Source Byte) : ℤ :=
  cost x.2.todo +
    match x.1.fsmState with
    | .idle => 0
    | .preamble => x.1.cycleCounter.toNat - 31
    | .sfd => -32
    | .data => -33 - x.1.diBitSelect.toNat
    | .ipg => x.1.cycleCounter.toNat + 1

theorem toNat_cycleCounter_sub (s : State) (hc : s.cycleCounter ≠ 0#12) :
    ((s.cycleCounter - 1).toNat : ℤ) = s.cycleCounter.toNat - 1 := by
  have hpos : s.cycleCounter.toNat ≠ 0 := fun h => hc (BitVec.eq_of_toNat_eq h)
  bv_omega

/-- **Progress**: every cycle brings the end nearer, unless the transmitter waits for a packet. -/
theorem Sends.left_step (h : Sends x p) (hi : i.reset = false) (ho : Source.Offers offer x i) :
    left (fed x i) =
      if x.1.fsmState = .idle ∧ i.sAxisTvalid = false then left x else left x - 1 := by
  obtain ⟨q, fresh, hne, htodo, hphase, -⟩ := h
  have hcount := toNat_cycleCounter_sub x.1
  cases hf : x.1.fsmState with
  | idle =>
    rw [fed_refused (hphase.not_sAxisTready (by simp [hf]))]
    cases hv : i.sAxisTvalid <;>
      simp [left, RmiiMacTx.step, advance, hf, hv, hi, preambleLengthDibits]
    omega
  | preamble | ipg =>
    rw [fed_refused (hphase.not_sAxisTready (by simp [hf]))]
    have hnext : (RmiiMacTx.step x.1 i).cycleCounter = x.1.cycleCounter - 1 := by
      simp only [RmiiMacTx.step, hf]
    by_cases hc : x.1.cycleCounter = 0#12
    · simp [left, RmiiMacTx.step, advance, hf, hi, hc] <;> omega
    · have hfsm : (RmiiMacTx.step x.1 i).fsmState = x.1.fsmState := by
        simp [RmiiMacTx.step, advance, hf, hi, hc]
      simp only [left, hfsm, hnext, hf, hcount hc, reduceCtorEq, false_and, if_false]
      ring
  | sfd =>
    rw [fed_refused (hphase.not_sAxisTready (by simp [hf]))]
    have hsel := hphase.diBitSelect (.inr hf)
    simp [left, RmiiMacTx.step, advance, hf, hi, hsel]
    omega
  | data =>
    obtain ⟨hq, hmust⟩ := hphase.sending (by rw [hf]; rfl)
    obtain ⟨b, q, rfl⟩ := List.exists_cons_of_ne_nil hq
    obtain ⟨hv, hb, hl⟩ := inputs_of_must ho hmust htodo
    by_cases hsel : x.1.diBitSelect = 3#2
    · rw [fed_handed (hphase.sAxisTready.mpr ⟨hf, hsel⟩) hv]
      cases q <;>
        simp [left, RmiiMacTx.step, advance, hf, hi, hl, hsel, htodo, beats_cons, ipgLength] <;>
        omega
    · have hready : x.1.sAxisTready = false := by
        by_contra hready
        exact hsel (hphase.sAxisTready.mp (by simpa using hready)).2
      have hnext : ∀ k : BitVec 2, k ≠ 3#2 → (k + 1).toNat = k.toNat + 1 := by decide
      have hfsm : (RmiiMacTx.step x.1 i).fsmState = .data := by
        simp [RmiiMacTx.step, advance, hf, hi, hsel]
      have hsel' : (RmiiMacTx.step x.1 i).diBitSelect = x.1.diBitSelect + 1 := by
        simp [RmiiMacTx.step, hf, hi]
      rw [fed_refused hready]
      simp only [left, hfsm, hsel', hf, hnext _ hsel, reduceCtorEq, false_and, if_false]
      push_cast
      ring

/-- The cycles of a run bring the end nearer, but for those in which the source pauses. -/
theorem Sends.left_run {is : List Inputs} (h : Sends x p)
    (his : Always fed (fun x i => i.reset = false ∧ Source.Offers offer x i) x is) :
    left (run fed x is) ≤
      max 0 (left x + (collect fed (paused offer) x is).length - is.length) := by
  induction is generalizing x p with
  | nil => simp
  | cons i is ih =>
    obtain ⟨⟨hi, ho⟩, his⟩ := his
    obtain ⟨p', hp', -⟩ := h.step hi ho
    have hstep := h.left_step hi ho
    have hrest := ih hp' his
    have hpauses := length_collect_paused_le offer fed (fed x i) is
    rw [run_cons, collect_cons, List.length_append, List.length_cons]
    push_cast
    by_cases hwait : x.1.fsmState = .idle ∧ i.sAxisTvalid = false
    · rw [if_pos hwait] at hstep
      cases htodo : x.2.todo with
      | nil =>
        have hzero : left x = 0 := by simp [left, htodo, hwait.1]
        omega
      | cons b bs =>
        have hone : (paused offer x i).length = 1 := by simp [paused, offer, hwait.2, htodo]
        omega
    · rw [if_neg hwait] at hstep
      omega

/-- At the end everything has been handed over and sent. -/
theorem Sends.eq_nil_of_left (h : Sends x p) (hleft : left x ≤ 0) :
    x.1.fsmState = .idle ∧ x.2.todo = [] := by
  obtain ⟨q, fresh, hne, htodo, hphase, -⟩ := h
  have hcost := cost_nonneg x.2.todo
  have hsending : x.1.fsmState.sending = true → 94 ≤ cost x.2.todo := by
    intro hf
    have hq := (hphase.sending hf).1
    have hpos := List.length_pos_of_ne_nil hq
    have hrest := cost_nonneg (fresh.flatMap beats)
    rw [htodo, cost_append, cost_beats hq]
    omega
  have hsel := x.1.diBitSelect.isLt
  unfold left at hleft
  cases hf : x.1.fsmState <;> rw [hf] at hleft hsending <;>
    simp only [FsmState.sending, forall_const] at hleft hsending
  · refine ⟨rfl, List.eq_nil_of_length_eq_zero ?_⟩
    unfold cost at hleft
    omega
  all_goals omega

/-- After a run that is long enough the transmitter is idle and its source has nothing left. -/
theorem Sends.idle_run {is : List Inputs} (h : Sends x p)
    (his : Always fed (fun x i => i.reset = false ∧ Source.Offers offer x i) x is)
    (hlen : left x + (collect fed (paused offer) x is).length ≤ is.length) :
    (run fed x is).1.fsmState = .idle ∧ (run fed x is).2.todo = [] := by
  obtain ⟨p', hp', -⟩ : ∃ p', Sends (run fed x is) p' ∧
      p = collect fed (fun x _ => sent x.1) x is ++ p' :=
    exists_rest (fun _ _ _ h hi => Sends.step h hi.1 hi.2) h his
  have hleft := h.left_run his
  exact hp'.eq_nil_of_left (by omega)

end Cycle

end RmiiEthernet.RmiiMacTx
