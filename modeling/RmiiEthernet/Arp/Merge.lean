import RmiiEthernet.Arp.Circuit
import RmiiEthernet.Ethernet.Format
import RmiiEthernet.Sync.Packet
import RmiiEthernet.Udp.Format

/-!
# The ARP block merges packets

Whatever happens at its other ports, `arp` merges the packets of the data source with complete ARP
packets: what has been taken at the output and the two beats in the pipeline are packets, each with
one `tuser` bit throughout; those with `tuser` 0 are the packets accepted from the source, and
those with `tuser` 1 are ARP packets (`taken_merges`).

The invariant is `Merges`: an open data packet is known to `in_data_packet`, and while the state
machine is away from `S_IDLE` no data packet is open and the open packet is the beginning of an ARP
packet, as long as the state says.
-/

namespace RmiiEthernet.Arp

open Sync EthernetFcs EthernetFrame

/-! ## ARP packets -/

/-- **The ARP packet** from the addresses `mac` and `ip` for the addresses `tha` and `tpa`. -/
def arpPacket (mac : BitVec 48) (ip : BitVec 32) (reply : Bool) (tha : BitVec 48)
    (tpa : BitVec 32) : List Byte :=
  [0x00, 0x01, 0x08, 0x00, 0x06, 0x04, 0x00, if reply then 0x02 else 0x01] ++ macBytes mac ++
    Udp.bytes32 ip ++ macBytes tha ++ Udp.bytes32 tpa ++ List.replicate 19 0

/-- A byte list agrees with an ARP packet as far as it goes. The sender's addresses are read from
the ports byte by byte, so each byte comes from some pair of addresses in `M`. -/
def Begins (M : Set (BitVec 48 × BitVec 32)) (reply : Bool) (tha : BitVec 48) (tpa : BitVec 32)
    (q : List Byte) : Prop :=
  ∀ k < q.length, ∃ a ∈ M, q[k]? = (arpPacket a.1 a.2 reply tha tpa)[k]?

/-- The targets of a packet: those of a request, or for an announcement none and the own address. -/
def Targets (M : Set (BitVec 48 × BitVec 32)) (reply : Bool) (tha : BitVec 48)
    (tpa : BitVec 32) : Prop :=
  reply = false → tha = 0 ∧ ∃ a ∈ M, a.2 = tpa

/-- A complete ARP packet with addresses in `M`. -/
def IsArpPacket (M : Set (BitVec 48 × BitVec 32)) (q : List Byte) : Prop :=
  q.length = 47 ∧ ∃ reply tha tpa, Targets M reply tha tpa ∧ Begins M reply tha tpa q

@[simp] theorem length_arpPacket (mac : BitVec 48) (ip : BitVec 32) (reply : Bool)
    (tha : BitVec 48) (tpa : BitVec 32) : (arpPacket mac ip reply tha tpa).length = 47 := rfl

/-- With one pair of addresses there is nothing left open. -/
theorem isArpPacket_singleton {mac : BitVec 48} {ip : BitVec 32} {q : List Byte}
    (h : IsArpPacket {(mac, ip)} q) :
    (∃ tha tpa, q = arpPacket mac ip true tha tpa) ∨ q = arpPacket mac ip false 0 ip := by
  obtain ⟨hlen, reply, tha, tpa, htargets, hbegins⟩ := h
  have hq : q = arpPacket mac ip reply tha tpa := by
    refine List.ext_getElem? fun k => ?_
    by_cases hk : k < q.length
    · obtain ⟨a, rfl, ha⟩ := hbegins k hk
      exact ha
    · rw [List.getElem?_eq_none (by omega), List.getElem?_eq_none (by simp; omega)]
  cases reply with
  | true => exact .inl ⟨tha, tpa, hq⟩
  | false =>
    obtain ⟨rfl, a, rfl, rfl⟩ := htargets rfl
    exact .inr hq

/-! ## The state machine in an ARP packet -/

section Position

variable {s : State} {i : Inputs}

/-- The number of bytes of an ARP packet sent before a state. -/
def position (s : State) : ℕ :=
  match s.fsmState with
  | .idle => 0
  | .hwType1 => 0
  | .hwType2 => 1
  | .protocolType1 => 2
  | .protocolType2 => 3
  | .hwLength => 4
  | .protocolLength => 5
  | .operation1 => 6
  | .operation2 => 7
  | .sha1 => 8
  | .sha2 => 9
  | .sha3 => 10
  | .sha4 => 11
  | .sha5 => 12
  | .sha6 => 13
  | .spa1 => 14
  | .spa2 => 15
  | .spa3 => 16
  | .spa4 => 17
  | .tha => 23 - s.padCounter.toNat
  | .tpa1 => 24
  | .tpa2 => 25
  | .tpa3 => 26
  | .tpa4 => 27
  | .pad => 46 - s.padCounter.toNat

theorem position_lt (s : State) : position s < 47 := by
  unfold position
  split <;> omega

/-- The counter is in range in the two states that use it. -/
structure Counted (s : State) : Prop where
  tha : s.fsmState = .tha → s.padCounter.toNat ≤ 5
  pad : s.fsmState = .pad → s.padCounter.toNat ≤ 18

/-- Each state sends the byte of its position. -/
theorem getElem?_arpPacket (hbusy : s.fsmState ≠ .idle) (hcount : Counted s)
    (htarget : s.activeArpIsReply = false → s.sendingTargetMac = 0) :
    (arpPacket i.macAddressIn i.ipAddressIn s.activeArpIsReply s.sendingTargetMac
      s.sendingTargetIp)[position s]? = some (framedTdata s i) := by
  unfold position framedTdata
  cases hf : s.fsmState with
  | idle => exact absurd hf hbusy
  | tha =>
    have hle := hcount.tha hf
    dsimp only
    generalize s.padCounter.toNat = n at hle
    cases hr : s.activeArpIsReply with
    | true =>
      match n, hle with
      | 0, _ | 1, _ | 2, _ | 3, _ | 4, _ | 5, _ => rfl
    | false =>
      rw [htarget hr]
      match n, hle with
      | 0, _ | 1, _ | 2, _ | 3, _ | 4, _ | 5, _ => rfl
  | pad =>
    have hle := hcount.pad hf
    dsimp only
    rw [arpPacket, List.getElem?_append_right (by simp [Udp.bytes32]; omega),
      List.getElem?_replicate_of_lt (by simp [Udp.bytes32]; omega)]
  | _ => rfl

/-- The last byte of an ARP packet. -/
def endsArp (s : State) : Bool := s.fsmState == .pad && s.padCounter == 0#5

theorem fsmState_step (hi : i.reset = false) (hready : outputTready s i = true) :
    (step s i).fsmState = nextState s i := by simp [step, hi, hready]

/-- A byte that is not the last one leads to the next position. -/
theorem position_step (hi : i.reset = false) (hready : outputTready s i = true)
    (hbusy : s.fsmState ≠ .idle) (hcount : Counted s) (hend : endsArp s = false) :
    (step s i).fsmState ≠ .idle ∧ position (step s i) = position s + 1 ∧ Counted (step s i) := by
  have hnext := fsmState_step hi hready
  have hpad : (step s i).padCounter = padCounterNext s := by simp [step, hready]
  have hpred (hc : s.padCounter ≠ 0#5) : (s.padCounter - 1).toNat + 1 = s.padCounter.toNat := by
    have hpos : s.padCounter.toNat ≠ 0 := fun h => hc (BitVec.eq_of_toNat_eq h)
    bv_omega
  unfold nextState at hnext
  unfold padCounterNext at hpad
  cases hf : s.fsmState with
  | idle => exact absurd hf hbusy
  | tha =>
    have hle := hcount.tha hf
    simp only [hf] at hnext hpad
    by_cases hc : s.padCounter = 0#5
    · rw [if_pos hc] at hnext
      exact ⟨by simp [hnext], by simp [position, hnext, hf, hc], by simp [hnext], by simp [hnext]⟩
    · rw [if_neg hc] at hnext
      have := hpred hc
      refine ⟨by simp [hnext], ?_, fun _ => ?_, by simp [hnext]⟩
      · simp only [position, hnext, hf, hpad]
        omega
      · rw [hpad]
        omega
  | pad =>
    have hle := hcount.pad hf
    have hc : s.padCounter ≠ 0#5 := by
      rintro hc
      simp [endsArp, hf, hc] at hend
    simp only [hf, hc, if_false] at hnext hpad
    have := hpred hc
    refine ⟨by simp [hnext], ?_, by simp [hnext], fun _ => ?_⟩
    · simp only [position, hnext, hf, hpad]
      omega
    · rw [hpad]
      omega
  | spa4 | tpa4 =>
    simp only [hf] at hnext hpad
    refine ⟨by simp [hnext], by simp [position, hnext, hf, hpad], ?_, ?_⟩ <;> simp [hnext, hpad]
  | _ =>
    simp only [hf] at hnext
    exact ⟨by simp [hnext], by simp [position, hnext, hf], by simp [hnext], by simp [hnext]⟩

/-- The last byte completes the packet. -/
theorem position_of_endsArp (hend : endsArp s = true) : position s = 46 := by
  simp only [endsArp, Bool.and_eq_true, beq_iff_eq] at hend
  simp [position, hend]

end Position

/-! ## The invariant -/

section Merging

variable {M : Set (BitVec 48 × BitVec 32)} {s : State} {i : Inputs}

/-- The beats in the two registers behind the state machine. -/
def pipe (s : State) : List ((Byte × Bool) × Bool) := s.output.held ++ s.framed.held

/-- The words of a packet with one `tuser` bit. -/
def tag (u : Bool) (q : List Byte) : List (Byte × Bool) := q.map (·, u)

/-- The beat that enters the pipeline in a cycle. -/
def entering (s : State) (i : Inputs) : List ((Byte × Bool) × Bool) :=
  if outputTready s i then (framedNext s i).held else []

/-- Nothing is lost in the pipeline. -/
theorem pipe_step (hi : i.reset = false) :
    taken s i ++ pipe (step s i) = pipe s ++ entering s i := by
  unfold taken pipe entering
  cases hready : outputTready s i with
  | false =>
    have hstall : i.mAxisTready = false := by
      unfold outputTready at hready
      simp_all
    simp [step, hi, hready, hstall]
  | true =>
    cases hm : i.mAxisTready with
    | true => simp [step, hi, hready]
    | false =>
      have hempty : s.output.tvalid = false := by simpa [outputTready, hm] using hready
      simp [step, hi, hready, Beat.held, hempty]

/-! ### What a cycle can do -/

/-- A stalled cycle passes nothing. -/
theorem passed_of_stalled (hready : outputTready s i = false) :
    accepted s i = [] ∧ entering s i = [] := by
  simp [accepted, sAxisTready, entering, hready]

/-- In `S_IDLE` the beat offered is passed. -/
theorem passed_of_idle (hready : outputTready s i = true) (hidle : s.fsmState = .idle) :
    accepted s i = (if i.sAxisTvalid then [(i.sAxisTdata, i.sAxisTlast)] else []) ∧
      entering s i = (if i.sAxisTvalid then [((i.sAxisTdata, false), i.sAxisTlast)] else []) := by
  simp [accepted, sAxisTready, entering, framedNext, Beat.held, hready, hidle]

/-- In the other states a byte of an ARP packet is sent. -/
theorem passed_of_busy (hready : outputTready s i = true) (hbusy : s.fsmState ≠ .idle) :
    accepted s i = [] ∧ entering s i = [((framedTdata s i, true), endsArp s)] := by
  simp [accepted, sAxisTready, entering, framedNext, Beat.held, endsArp, hready, hbusy]

/-- The targets are fixed when a packet is started. -/
theorem targets_step (h : outputTready s i = false ∨ s.fsmState ≠ .idle) :
    (step s i).activeArpIsReply = s.activeArpIsReply ∧
      (step s i).sendingTargetMac = s.sendingTargetMac ∧
      (step s i).sendingTargetIp = s.sendingTargetIp := by
  rcases h with h | h <;> simp [step, startsReply, startsGarp, h]

/-- A stalled cycle leaves the state machine where it is. -/
theorem fsm_of_stalled (hi : i.reset = false) (hready : outputTready s i = false) :
    (step s i).fsmState = s.fsmState ∧ (step s i).inDataPacket = s.inDataPacket ∧
      position (step s i) = position s ∧ (Counted s → Counted (step s i)) := by
  have hf : (step s i).fsmState = s.fsmState := by simp [step, hi, hready]
  have hpad : (step s i).padCounter = s.padCounter := by simp [step, hready]
  refine ⟨hf, by simp [step, hi, hready], ?_, fun h => ⟨?_, ?_⟩⟩
  · rw [position, hf, hpad, position]
  · rw [hf, hpad]
    exact h.tha
  · rw [hf, hpad]
    exact h.pad

/-- Inside a data packet the state machine stays in `S_IDLE`. -/
theorem fsmState_of_not_betweenPackets (hi : i.reset = false) (hready : outputTready s i = true)
    (hidle : s.fsmState = .idle) (h : betweenPackets s i = false) :
    (step s i).fsmState = .idle := by
  rw [fsmState_step hi hready, nextState, hidle]
  simp [h]

/-- The last byte of an ARP packet leads back to `S_IDLE`. -/
theorem fsmState_of_endsArp (hi : i.reset = false) (hready : outputTready s i = true)
    (hend : endsArp s = true) : (step s i).fsmState = .idle := by
  simp only [endsArp, Bool.and_eq_true, beq_iff_eq] at hend
  simp [fsmState_step hi hready, nextState, hend]

/-! ### The invariant -/

theorem length_pipe_le (s : State) : (pipe s).length ≤ 2 := by
  unfold pipe Beat.held
  split <;> split <;> simp

/-- **The invariant.** The source has handed over `acc`, the state machine has sent `total`: the
packets `ms`, each with its `tuser` bit, and the words `q` of the packet in progress. -/
structure Merges (M : Set (BitVec 48 × BitVec 32)) (s : State) (acc : List (Byte × Bool))
    (total : List ((Byte × Bool) × Bool)) (ms : List (Bool × List Byte)) (q : List Byte) :
    Prop where
  total_eq : total = ms.flatMap (fun m => beats (tag m.1 m.2)) ++
    (tag (s.fsmState ≠ .idle) q).map (·, false)
  data : (ms.filter (!·.1)).map (·.2) = packets acc
  arp : ∀ m ∈ ms, m.2 ≠ [] ∧ (m.1 = true → IsArpPacket M m.2)
  idle : s.fsmState = .idle → q = openPacket acc ∧ (q ≠ [] → s.inDataPacket = true)
  busy : s.fsmState ≠ .idle → openPacket acc = [] ∧ Counted s ∧ q.length = position s ∧
    Targets M s.activeArpIsReply s.sendingTargetMac s.sendingTargetIp ∧
    Begins M s.activeArpIsReply s.sendingTargetMac s.sendingTargetIp q

variable {acc : List (Byte × Bool)} {total : List ((Byte × Bool) × Bool)}
  {ms : List (Bool × List Byte)} {q : List Byte}

theorem Merges.step_stalled (h : Merges M s acc total ms q) (hi : i.reset = false)
    (hready : outputTready s i = false) : Merges M (step s i) acc total ms q := by
  obtain ⟨hf, hd, hpos, hcount⟩ := fsm_of_stalled hi hready
  obtain ⟨ha₁, ha₂, ha₃⟩ := targets_step (.inl hready)
  refine ⟨by rw [hf]; exact h.total_eq, h.data, h.arp, ?_, ?_⟩
  · rw [hf, hd]
    exact h.idle
  · rw [hf, ha₁, ha₂, ha₃, hpos]
    intro hbusy
    obtain ⟨h₁, h₂, h₃⟩ := h.busy hbusy
    exact ⟨h₁, hcount h₂, h₃⟩

/-- An ARP packet starts with its targets fixed. -/
theorem started (hi : i.reset = false) (hready : outputTready s i = true)
    (hM : (i.macAddressIn, i.ipAddressIn) ∈ M) (hidle : s.fsmState = .idle)
    (hnext : (step s i).fsmState ≠ .idle) :
    betweenPackets s i = true ∧ (step s i).fsmState = .hwType1 ∧
      Targets M (step s i).activeArpIsReply (step s i).sendingTargetMac
        (step s i).sendingTargetIp := by
  rw [fsmState_step hi hready, nextState, hidle] at hnext ⊢
  have hstart : (betweenPackets s i && (s.rx.replyPending || s.garpPending)) = true := by
    by_contra hstart
    simp [hstart] at hnext
  obtain ⟨hbetween, hpending⟩ := Bool.and_eq_true_iff.mp hstart
  refine ⟨hbetween, by simp [hstart], ?_⟩
  cases hr : s.rx.replyPending with
  | true => simp [Targets, step, startsReply, hidle, hready, hbetween, hr]
  | false =>
    have hg : s.garpPending = true := by simpa [hr] using hpending
    intro _
    refine ⟨?_, (i.macAddressIn, i.ipAddressIn), hM, ?_⟩ <;>
      simp [step, startsReply, startsGarp, hidle, hready, hbetween, hr, hg]

/-- A state between two packets is a good one to be in. -/
theorem merges_between (hi : i.reset = false) (hready : outputTready s i = true)
    (hM : (i.macAddressIn, i.ipAddressIn) ∈ M) (hidle : s.fsmState = .idle)
    (htotal : total = ms.flatMap fun m => beats (tag m.1 m.2))
    (hdata : (ms.filter (!·.1)).map (·.2) = packets acc)
    (harp : ∀ m ∈ ms, m.2 ≠ [] ∧ (m.1 = true → IsArpPacket M m.2)) (hopen : openPacket acc = []) :
    Merges M (step s i) acc total ms [] := by
  refine ⟨by simp [htotal, tag], hdata, harp, fun _ => ⟨hopen.symm, by simp⟩, fun hbusy => ?_⟩
  obtain ⟨-, hfirst, htargets⟩ := started hi hready hM hidle hbusy
  refine ⟨hopen, ⟨by simp [hfirst], by simp [hfirst]⟩, by simp [position, hfirst], htargets, ?_⟩
  intro k hk
  simp at hk

/-- **A cycle in which data packets are passed.** -/
theorem Merges.step_data (h : Merges M s acc total ms q) (hi : i.reset = false)
    (hready : outputTready s i = true) (hM : (i.macAddressIn, i.ipAddressIn) ∈ M)
    (hidle : s.fsmState = .idle) :
    ∃ ms' q', Merges M (step s i) (acc ++ accepted s i) (total ++ entering s i) ms' q' := by
  obtain ⟨hq, hin⟩ := h.idle hidle
  have htotal := h.total_eq
  simp only [hidle, ne_eq, not_true_eq_false, decide_false] at htotal
  obtain ⟨hacc, hent⟩ := passed_of_idle hready hidle
  rw [hacc, hent]
  cases hv : i.sAxisTvalid with
  | false =>
    rw [if_neg (by simp), if_neg (by simp), List.append_nil, List.append_nil]
    by_cases hq' : q = []
    · subst hq'
      exact ⟨ms, [], merges_between hi hready hM hidle (by simpa [tag] using htotal) h.data h.arp
        hq.symm⟩
    · -- the packet in progress keeps the state machine where it is
      have hstay := fsmState_of_not_betweenPackets hi hready hidle
        (by simp [betweenPackets, hv, hin hq'])
      refine ⟨ms, q, by rw [hstay]; simpa using htotal, h.data, h.arp, fun _ => ⟨hq, fun _ => ?_⟩,
        fun hbusy => absurd hstay hbusy⟩
      simp [step, hi, hv, hin hq']
  | true =>
    rw [if_pos rfl, if_pos rfl]
    cases hl : i.sAxisTlast with
    | false =>
      have hstay := fsmState_of_not_betweenPackets hi hready hidle
        (by simp [betweenPackets, hv, hl])
      refine ⟨ms, q ++ [i.sAxisTdata], ?_, ?_, h.arp, fun _ => ⟨?_, fun _ => ?_⟩,
        fun hbusy => absurd hstay hbusy⟩
      · rw [hstay, htotal]
        simp [tag]
      · rw [packets_concat]
        simpa using h.data
      · simp [openPacket_concat, hq]
      · simp [step, hi, hv, hready, hl]
    | true =>
      refine ⟨ms ++ [(false, q ++ [i.sAxisTdata])], [], merges_between hi hready hM hidle ?_ ?_ ?_
        (by simp [openPacket_concat])⟩
      · rw [htotal]
        simp [tag, beats_concat]
      · rw [packets_concat, ← h.data, ← hq]
        simp
      · intro m hm
        rcases List.mem_append.mp hm with hm | hm
        · exact h.arp m hm
        · simp only [List.mem_singleton] at hm
          simp [hm]

/-- **A cycle in which an ARP packet is sent.** -/
theorem Merges.step_arp (h : Merges M s acc total ms q) (hi : i.reset = false)
    (hready : outputTready s i = true) (hM : (i.macAddressIn, i.ipAddressIn) ∈ M)
    (hbusy : s.fsmState ≠ .idle) :
    ∃ ms' q', Merges M (step s i) (acc ++ accepted s i) (total ++ entering s i) ms' q' := by
  obtain ⟨hopen, hcount, hlen, htargets, hbegins⟩ := h.busy hbusy
  have htotal := h.total_eq
  simp only [hbusy, ne_eq, not_false_eq_true, decide_true] at htotal
  obtain ⟨hacc, hent⟩ := passed_of_busy hready hbusy
  obtain ⟨hkeep₁, hkeep₂, hkeep₃⟩ := targets_step (i := i) (.inr hbusy)
  -- the byte sent is the next one of the packet
  have hnext : Begins M s.activeArpIsReply s.sendingTargetMac s.sendingTargetIp
      (q ++ [framedTdata s i]) := by
    intro k hk
    rw [List.length_append, List.length_singleton] at hk
    rcases Nat.lt_succ_iff_lt_or_eq.mp hk with hk | rfl
    · rw [List.getElem?_append_left hk]
      exact hbegins k hk
    · refine ⟨_, hM, ?_⟩
      rw [List.getElem?_concat_length, hlen]
      exact (getElem?_arpPacket hbusy hcount fun hr => (htargets hr).1).symm
  rw [hacc, hent, List.append_nil]
  cases hend : endsArp s with
  | false =>
    obtain ⟨hbusy', hpos, hcount'⟩ := position_step hi hready hbusy hcount hend
    refine ⟨ms, q ++ [framedTdata s i], ?_, h.data, h.arp, fun hidle => absurd hidle hbusy',
      fun _ => ⟨hopen, hcount', by simp [hlen, hpos], ?_⟩⟩
    · rw [htotal]
      simp [hbusy', tag]
    · rw [hkeep₁, hkeep₂, hkeep₃]
      exact ⟨htargets, hnext⟩
  | true =>
    have hidle := fsmState_of_endsArp hi hready hend
    refine ⟨ms ++ [(true, q ++ [framedTdata s i])], [], ?_, ?_, fun m hm => ?_,
      fun _ => ⟨hopen.symm, by simp⟩, fun hbusy' => absurd hidle hbusy'⟩
    · rw [htotal]
      simp [tag, beats_concat]
    · simpa using h.data
    · rcases List.mem_append.mp hm with hm | hm
      · exact h.arp m hm
      · rw [List.mem_singleton] at hm
        subst hm
        refine ⟨by simp, fun _ => ⟨?_, _, _, _, htargets, hnext⟩⟩
        simp [hlen, position_of_endsArp hend]

theorem Merges.step (h : Merges M s acc total ms q) (hi : i.reset = false)
    (hM : (i.macAddressIn, i.ipAddressIn) ∈ M) :
    ∃ ms' q', Merges M (step s i) (acc ++ accepted s i) (total ++ entering s i) ms' q' := by
  cases hready : outputTready s i with
  | false =>
    obtain ⟨hacc, hent⟩ := passed_of_stalled hready
    rw [hacc, hent, List.append_nil, List.append_nil]
    exact ⟨ms, q, h.step_stalled hi hready⟩
  | true =>
    by_cases hidle : s.fsmState = .idle
    · exact h.step_data hi hready hM hidle
    · exact h.step_arp hi hready hM hidle

/-- A state in which nothing is in progress: the initial one, and the one that a reset leads to. -/
structure AtRest (s : State) : Prop where
  fsmState : s.fsmState = .idle
  framed : s.framed = .none
  output : s.output = .none

theorem AfterReset.atRest (h : AfterReset s) : AtRest s := by
  obtain ⟨s₀, i, hi, rfl⟩ := h
  constructor <;> simp [Arp.step, hi]

theorem AtRest.merges (h : AtRest s) : pipe s = [] ∧ Merges M s [] [] [] [] := by
  refine ⟨by simp [pipe, h.framed, h.output, Beat.held, Beat.none], ?_⟩
  exact ⟨rfl, rfl, by simp, fun _ => ⟨rfl, by simp⟩, fun hbusy => absurd h.fsmState hbusy⟩

/-- The packets that have been sent completely, and the one in progress. -/
theorem Merges.packets_total (h : Merges M s acc total ms q) :
    packets total = ms.map (fun m => tag m.1 m.2) ∧
      openPacket total = tag (s.fsmState ≠ .idle) q := by
  have hne : ∀ p ∈ ms.map (fun m => tag m.1 m.2), p ≠ [] := by
    intro p hp
    obtain ⟨m, hm, rfl⟩ := List.mem_map.mp hp
    simpa [tag] using (h.arp m hm).1
  have hpackets := packets_flatMap_beats_append hne (tag (s.fsmState ≠ .idle) q)
  rw [List.flatMap_map, ← h.total_eq] at hpackets
  exact hpackets

end Merging

/-! ## Whole runs -/

section Runs

variable {M : Set (BitVec 48 × BitVec 32)} {s : State} {is : List Inputs}

theorem merges_run (hs : AfterReset s) (hreset : ∀ i ∈ is, i.reset = false)
    (hM : ∀ i ∈ is, (i.macAddressIn, i.ipAddressIn) ∈ M) :
    ∃ ms q, Merges M (run step s is) (collect step accepted s is)
      (collect step taken s is ++ pipe (run step s is)) ms q := by
  induction is using List.reverseRecOn with
  | nil =>
    obtain ⟨hpipe, hmerges⟩ := hs.atRest.merges (M := M)
    exact ⟨[], [], by simpa [hpipe] using hmerges⟩
  | append_singleton is i ih =>
    obtain ⟨ms, q, h⟩ := ih (fun j hj => hreset j (by simp [hj])) fun j hj => hM j (by simp [hj])
    have hi := hreset i (by simp)
    obtain ⟨ms', q', h'⟩ := h.step hi (hM i (by simp))
    refine ⟨ms', q', ?_⟩
    rw [run_append, collect_append, collect_append, run_cons, run_nil, collect_cons, collect_nil,
      collect_cons, collect_nil, List.append_nil, List.append_nil, List.append_assoc,
      pipe_step hi, ← List.append_assoc]
    exact h'

/-- **The ARP block merges packets.** In every run, for every behaviour of all ports, what has been
taken and the at most two beats in the pipeline are packets `ms` with one `tuser` bit each and a
packet in progress. The packets with `tuser` 0 are the packets accepted from the source, in order,
and the one in progress is the one the source is in, unless it is an ARP packet and the source is
between packets. The packets with `tuser` 1 are complete ARP packets. -/
theorem taken_merges (M : Set (BitVec 48 × BitVec 32)) (hs : AfterReset s)
    (hreset : ∀ i ∈ is, i.reset = false)
    (hM : ∀ i ∈ is, (i.macAddressIn, i.ipAddressIn) ∈ M) :
    let acc := collect step accepted s is
    let out := collect step taken s is
    let pend := pipe (run step s is)
    ∃ (ms : List (Bool × List Byte)) (u : Bool) (q : List Byte),
      pend.length ≤ 2 ∧
      packets (out ++ pend) = ms.map (fun m => tag m.1 m.2) ∧
      openPacket (out ++ pend) = tag u q ∧
      (ms.filter (!·.1)).map (·.2) = packets acc ∧
      openPacket acc = (if u then [] else q) ∧
      (∀ m ∈ ms, m.1 = true → IsArpPacket M m.2) ∧
      packets out <+: ms.map (fun m => tag m.1 m.2) ∧
      ∃ v r, openPacket out = tag v r := by
  intro acc out pend
  obtain ⟨ms, q, h⟩ := merges_run hs hreset hM
  obtain ⟨hpackets, hopen⟩ := h.packets_total
  refine ⟨ms, _, q, length_pipe_le _, hpackets, hopen, h.data, ?_,
    fun m hm => (h.arp m hm).2, ?_, ?_⟩
  · by_cases hidle : (run step s is).fsmState = .idle
    · simpa [hidle] using (h.idle hidle).1.symm
    · simpa [hidle] using (h.busy hidle).1
  · rw [← hpackets]
    exact packets_prefix (List.prefix_append _ _)
  · obtain ⟨p, hp, hpre⟩ := exists_openPacket_prefix out pend
    rw [hpackets, hopen] at hp
    have htag : ∃ v r, p = tag v r := by
      rcases List.mem_append.mp hp with hp | hp
      · obtain ⟨m, -, rfl⟩ := List.mem_map.mp hp
        exact ⟨m.1, m.2, rfl⟩
      · exact ⟨_, q, List.mem_singleton.mp hp⟩
    obtain ⟨v, r, rfl⟩ := htag
    exact ⟨v, r.take _, (List.prefix_iff_eq_take.mp hpre).trans List.map_take.symm⟩

/-- The block after the reset. -/
def cleared : State :=
  step ⟨false, false, false, 0, 0, false, .idle, 0, .none, .none, 0,
      ⟨0, false, false, false, false, 0, 0, 0, 0, 0, false⟩⟩
    { reset := true, macAddressIn := 0, ipAddressIn := 0 }

theorem cleared_afterReset : AfterReset cleared := ⟨_, _, rfl, rfl⟩

/-- An announcement is requested during a packet of two bytes, and a second packet is offered while
it is sent. -/
theorem taken_merges_garp :
    let i : Inputs := { macAddressIn := 0x001122334455, ipAddressIn := 0x0A000001 }
    let is : List Inputs :=
      { i with sendGarpIn := true, sAxisTdata := 0xAA, sAxisTvalid := true } ::
        { i with sAxisTdata := 0xBB, sAxisTvalid := true, sAxisTlast := true } ::
        List.replicate 48 { i with sAxisTdata := 0xCC, sAxisTvalid := true, sAxisTlast := true } ++
        List.replicate 2 i
    ∃ ms : List (Bool × List Byte),
      packets (collect step taken cleared is) <+: ms.map (fun m => tag m.1 m.2) ∧
      (ms.filter (!·.1)).map (·.2) = [[0xAA, 0xBB], [0xCC]] ∧
      (packets (collect step taken cleared is)).length = 3 ∧
      ∀ m ∈ ms, m.1 = true → (∃ tha tpa, m.2 = arpPacket 0x001122334455 0x0A000001 true tha tpa) ∨
        m.2 = arpPacket 0x001122334455 0x0A000001 false 0 0x0A000001 := by
  intro i is
  have hreset : ∀ j ∈ is, j.reset = false := by decide +kernel
  have hM : ∀ j ∈ is, (j.macAddressIn, j.ipAddressIn) ∈
      ({(0x001122334455, 0x0A000001)} : Set (BitVec 48 × BitVec 32)) := by
    have haddress : ∀ j ∈ is, (j.macAddressIn, j.ipAddressIn) = (0x001122334455, 0x0A000001) := by
      decide +kernel
    exact haddress
  obtain ⟨ms, u, q, -, -, -, hdata, -, harp, hprefix, -⟩ :=
    taken_merges _ cleared_afterReset hreset hM
  refine ⟨ms, hprefix, ?_, by decide +kernel, fun m hm hu => isArpPacket_singleton (harp m hm hu)⟩
  rw [hdata]
  decide +kernel

end Runs

end RmiiEthernet.Arp
