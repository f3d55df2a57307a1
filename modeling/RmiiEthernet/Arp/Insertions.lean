import RmiiEthernet.Arp.Requests

/-!
# The ARP packets that `arp` inserts

An ARP packet is begun when the state machine leaves `S_IDLE`, with the targets of that cycle
(`starts`): those in `req_sha` and `req_spa` for a reply, none and the own address for an
announcement. Requests that arrive while it is being sent do not change it, so the packets with
`tuser` 1 at the output are the 47 bytes of each packet begun, in order (`inserted_packets`).

The invariant `Inserts` is about the beats that have entered the pipeline. It counts the packet in
progress apart: the state says how many of its words have been sent.
-/

namespace RmiiEthernet.Arp

open Sync EthernetFcs

/-- The kind of an ARP packet, a reply or not, and its target addresses. -/
abbrev Target := Bool × BitVec 48 × BitVec 32

/-- The ARP packet begun in a cycle. -/
def starts (s : State) (i : Inputs) : List Target :=
  if startsReply s i then [(true, s.rx.reqSha, s.rx.reqSpa)]
  else if startsGarp s i then [(false, 0, i.ipAddressIn)]
  else []

/-- The ARP packet in progress. -/
def sending (s : State) : Target := (s.activeArpIsReply, s.sendingTargetMac, s.sendingTargetIp)

/-- The words of an ARP packet. -/
def arpWords (mac : BitVec 48) (ip : BitVec 32) (m : Target) : List (Byte × Bool) :=
  tag true (arpPacket mac ip m.1 m.2.1 m.2.2)

/-- A word of the packet has `tuser` 1. -/
def tagged (p : List (Byte × Bool)) : Bool := p.any (·.2)

section Cycle

variable {mac : BitVec 48} {ip : BitVec 32} {s : State} {i : Inputs}
  {total : List ((Byte × Bool) × Bool)} {ms : List Target}

/-- **The invariant.** The complete packets with `tuser` 1 are the packets begun, but for the one in
progress. -/
structure Inserts (mac : BitVec 48) (ip : BitVec 32) (s : State)
    (total : List ((Byte × Bool) × Bool)) (ms : List Target) : Prop where
  idle : s.fsmState = .idle → (packets total).filter tagged = ms.map (arpWords mac ip) ∧
    tagged (openPacket total) = false ∧ (openPacket total ≠ [] → s.inDataPacket = true)
  busy : s.fsmState ≠ .idle → ∃ ms', ms = ms' ++ [sending s] ∧
    (packets total).filter tagged = ms'.map (arpWords mac ip) ∧
    openPacket total = (arpWords mac ip (sending s)).take (position s) ∧ Counted s ∧
    (s.activeArpIsReply = false → s.sendingTargetMac = 0)

@[simp] theorem length_arpWords (mac : BitVec 48) (ip : BitVec 32) (m : Target) :
    (arpWords mac ip m).length = 47 := rfl

theorem tagged_arpWords (mac : BitVec 48) (ip : BitVec 32) (m : Target) :
    tagged (arpWords mac ip m) = true := rfl

theorem sending_step (h : outputTready s i = false ∨ s.fsmState ≠ .idle) :
    sending (step s i) = sending s := by
  obtain ⟨h₁, h₂, h₃⟩ := targets_step h
  rw [sending, h₁, h₂, h₃, sending]

/-- The state machine sends the packet word by word. -/
theorem take_arpWords (hi : Addressed mac ip s i) (hbusy : s.fsmState ≠ .idle)
    (hcount : Counted s) (h : s.activeArpIsReply = false → s.sendingTargetMac = 0) :
    (arpWords mac ip (sending s)).take (position s + 1) =
      (arpWords mac ip (sending s)).take (position s) ++ [(framedTdata s i, true)] := by
  have hbyte := getElem?_arpPacket (i := i) hbusy hcount h
  rw [hi.2.1, hi.2.2] at hbyte
  have hword : (arpWords mac ip (sending s))[position s]? = some (framedTdata s i, true) := by
    rw [arpWords, tag, List.getElem?_map, sending, hbyte]
    rfl
  rw [List.take_add_one, hword]
  rfl

theorem starts_of_busy (h : outputTready s i = false ∨ s.fsmState ≠ .idle) : starts s i = [] := by
  rcases h with h | h <;> simp [starts, startsReply, startsGarp, h]

theorem starts_of_not_betweenPackets (h : betweenPackets s i = false) : starts s i = [] := by
  simp [starts, startsReply, startsGarp, h]

/-- The state machine leaves `S_IDLE` to send the packet begun. -/
theorem starts_eq (hi : Addressed mac ip s i) (hready : outputTready s i = true)
    (hidle : s.fsmState = .idle) :
    (starts s i = [] ∧ (step s i).fsmState = .idle) ∨
      (starts s i = [sending (step s i)] ∧ (step s i).fsmState = .hwType1 ∧
        ((step s i).activeArpIsReply = false → (step s i).sendingTargetMac = 0)) := by
  have hnext := fsmState_step hi.1 hready
  rw [nextState, hidle] at hnext
  cases hb : betweenPackets s i with
  | false => exact .inl ⟨starts_of_not_betweenPackets hb, by simp [hnext, hb]⟩
  | true =>
    cases hr : s.rx.replyPending with
    | true =>
      refine .inr ⟨?_, by simp [hnext, hb, hr], ?_⟩ <;>
        simp [starts, sending, step, startsReply, hidle, hready, hb, hr]
    | false =>
      cases hg : s.garpPending with
      | true =>
        refine .inr ⟨?_, by simp [hnext, hb, hg], ?_⟩ <;>
          simp [starts, sending, step, startsReply, startsGarp, hidle, hready, hb, hr, hg]
      | false =>
        refine .inl ⟨?_, by simp [hnext, hr, hg]⟩
        simp [starts, startsReply, startsGarp, hr, hg]

/-- A cycle behind which no data packet is open. -/
theorem inserts_between (hi : Addressed mac ip s i) (hready : outputTready s i = true)
    (hidle : s.fsmState = .idle)
    (htotal : (packets total).filter tagged = ms.map (arpWords mac ip))
    (hopen : openPacket total = []) : Inserts mac ip (step s i) total (ms ++ starts s i) := by
  rcases starts_eq hi hready hidle with ⟨hnone, hstay⟩ | ⟨hone, hfirst, htarget⟩
  · rw [hnone, List.append_nil]
    refine ⟨fun _ => ⟨htotal, by simp [hopen, tagged], by simp [hopen]⟩, fun h => absurd hstay h⟩
  · refine ⟨fun h => by simp [hfirst] at h, fun _ => ⟨ms, by rw [hone], htotal, ?_, ?_, htarget⟩⟩
    · simp [hopen, position, hfirst]
    · exact ⟨by simp [hfirst], by simp [hfirst]⟩

theorem Inserts.step_stalled (h : Inserts mac ip s total ms) (hi : Addressed mac ip s i)
    (hready : outputTready s i = false) : Inserts mac ip (step s i) total ms := by
  obtain ⟨hf, hd, hpos, hcount⟩ := fsm_of_stalled hi.1 hready
  obtain ⟨h₁, h₂, -⟩ := targets_step (.inl hready)
  refine ⟨?_, ?_⟩
  · rw [hf, hd]
    exact h.idle
  · rw [hf, h₁, h₂, hpos, sending_step (.inl hready)]
    intro hbusy
    obtain ⟨ms', hms, hdone, hopen, hcounted, htarget⟩ := h.busy hbusy
    exact ⟨ms', hms, hdone, hopen, hcount hcounted, htarget⟩

/-- A cycle in which data packets are passed. -/
theorem Inserts.step_data (h : Inserts mac ip s total ms) (hi : Addressed mac ip s i)
    (hready : outputTready s i = true) (hidle : s.fsmState = .idle) :
    Inserts mac ip (step s i) (total ++ entering s i) (ms ++ starts s i) := by
  obtain ⟨hdone, hplain, hin⟩ := h.idle hidle
  obtain ⟨-, hent⟩ := passed_of_idle hready hidle
  rw [hent]
  cases hv : i.sAxisTvalid with
  | false =>
    rw [if_neg (by simp), List.append_nil]
    by_cases hopen : openPacket total = []
    · exact inserts_between hi hready hidle hdone hopen
    · have hb : betweenPackets s i = false := by simp [betweenPackets, hv, hin hopen]
      have hstay := fsmState_of_not_betweenPackets hi.1 hready hidle hb
      rw [starts_of_not_betweenPackets hb, List.append_nil]
      refine ⟨fun _ => ⟨hdone, hplain, fun _ => ?_⟩, fun h => absurd hstay h⟩
      simp [step, hi.1, hv, hin hopen]
  | true =>
    rw [if_pos rfl]
    have hword : tagged (openPacket total ++ [(i.sAxisTdata, false)]) = false := by
      rw [tagged] at hplain ⊢
      rw [List.any_append, hplain]
      rfl
    cases hl : i.sAxisTlast with
    | false =>
      have hb : betweenPackets s i = false := by simp [betweenPackets, hv, hl]
      have hstay := fsmState_of_not_betweenPackets hi.1 hready hidle hb
      rw [starts_of_not_betweenPackets hb, List.append_nil]
      refine ⟨fun _ => ⟨?_, ?_, fun _ => ?_⟩, fun h => absurd hstay h⟩
      · simpa [packets_concat] using hdone
      · rw [openPacket_concat]
        exact hword
      · simp [step, hi.1, hv, hready, hl]
    | true =>
      apply inserts_between hi hready hidle
      · rw [packets_concat, if_pos rfl, List.filter_append, hdone,
          List.filter_cons_of_neg (by simp [hword]), List.filter_nil, List.append_nil]
      · simp [openPacket_concat]

/-- A cycle in which an ARP packet is sent. -/
theorem Inserts.step_arp (h : Inserts mac ip s total ms) (hi : Addressed mac ip s i)
    (hready : outputTready s i = true) (hbusy : s.fsmState ≠ .idle) :
    Inserts mac ip (step s i) (total ++ entering s i) (ms ++ starts s i) := by
  obtain ⟨ms', hms, hdone, hopen, hcount, htarget⟩ := h.busy hbusy
  obtain ⟨h₁, h₂, -⟩ := targets_step (i := i) (.inr hbusy)
  have hins : sending (step s i) = sending s := sending_step (.inr hbusy)
  have hnext := take_arpWords hi hbusy hcount htarget
  obtain ⟨-, hent⟩ := passed_of_busy hready hbusy
  rw [hent, starts_of_busy (.inr hbusy), List.append_nil]
  cases hend : endsArp s with
  | false =>
    obtain ⟨hbusy', hpos, hcount'⟩ := position_step hi.1 hready hbusy hcount hend
    refine ⟨fun h => absurd h hbusy', fun _ => ⟨ms', by rw [hins, hms], ?_, ?_, hcount', ?_⟩⟩
    · simpa [packets_concat] using hdone
    · rw [openPacket_concat, hins, hpos, hnext, hopen]
      rfl
    · rw [h₁, h₂]
      exact htarget
  | true =>
    have hidle := fsmState_of_endsArp hi.1 hready hend
    have hwords : openPacket total ++ [(framedTdata s i, true)] = arpWords mac ip (sending s) := by
      rw [hopen, ← hnext, position_of_endsArp hend, List.take_of_length_le]
      rw [length_arpWords]
    refine ⟨fun _ => ⟨?_, ?_, ?_⟩, fun h => absurd hidle h⟩
    · rw [packets_concat, if_pos rfl, List.filter_append, hdone, hwords,
        List.filter_cons_of_pos (tagged_arpWords _ _ _), hms, List.map_append]
      rfl
    · simp [openPacket_concat, tagged]
    · simp [openPacket_concat]

/-- **One cycle**: the packets begun are the packets sent and the one in progress. -/
theorem Inserts.step (h : Inserts mac ip s total ms) (hi : Addressed mac ip s i) :
    Inserts mac ip (step s i) (total ++ entering s i) (ms ++ starts s i) := by
  cases hready : outputTready s i with
  | false =>
    rw [(passed_of_stalled hready).2, starts_of_busy (.inl hready), List.append_nil,
      List.append_nil]
    exact h.step_stalled hi hready
  | true =>
    by_cases hidle : s.fsmState = .idle
    · exact h.step_data hi hready hidle
    · exact h.step_arp hi hready hidle

theorem inserts_afterReset (h : AfterReset s) : Inserts mac ip s [] [] := by
  obtain ⟨s₀, i, hi, rfl⟩ := h
  have hidle : (Arp.step s₀ i).fsmState = .idle := by simp [Arp.step, hi]
  exact ⟨fun _ => ⟨rfl, rfl, by simp⟩, fun h => absurd hidle h⟩

end Cycle

/-! ## Whole runs -/

section Runs

variable {mac : BitVec 48} {ip : BitVec 32} {s : State} {is : List Inputs}

theorem inserts_run (hs : AfterReset s) (h : Always step (Addressed mac ip) s is) :
    Inserts mac ip (run step s is) (collect step taken s is ++ pipe (run step s is))
      (collect step starts s is) := by
  induction is using List.reverseRecOn with
  | nil =>
    have hpipe := (hs.atRest.merges (M := ∅)).1
    simpa [hpipe] using inserts_afterReset hs
  | append_singleton is i ih =>
    obtain ⟨hrun, hi, -⟩ := (always_append _ _ _).mp h
    have hstep := (ih hrun).step hi
    rw [List.append_assoc, ← pipe_step hi.1, ← List.append_assoc] at hstep
    rw [run_concat, collect_concat, collect_concat]
    exact hstep

/-- **The ARP packets.** In every run with constant addresses of its own, for any requests, data
packets and stalls, the packets with `tuser` 1 taken at the output are, in order, the 47 words of
the packets begun; with the beats in the pipeline they are all of these, but for the last one while
it is being sent. -/
theorem inserted_packets (mac : BitVec 48) (ip : BitVec 32) (hs : AfterReset s)
    (h : Always step (Addressed mac ip) s is) :
    let out := collect step taken s is
    let begun := (collect step starts s is).map (arpWords mac ip)
    (packets out).filter tagged <+: begun ∧
      (packets (out ++ pipe (run step s is))).filter tagged =
        if (run step s is).fsmState = .idle then begun else begun.dropLast := by
  intro out begun
  have hrun := inserts_run hs h
  have hall : (packets (out ++ pipe (run step s is))).filter tagged =
      if (run step s is).fsmState = .idle then begun else begun.dropLast := by
    by_cases hidle : (run step s is).fsmState = .idle
    · rw [if_pos hidle]
      exact (hrun.idle hidle).1
    · obtain ⟨ms, hms, hdone, -⟩ := hrun.busy hidle
      rw [if_neg hidle, hdone]
      simp only [begun]
      rw [hms, List.map_append, List.map_singleton, List.dropLast_concat]
  have hpre : (packets out).filter tagged <+:
      (packets (out ++ pipe (run step s is))).filter tagged :=
    ( packets_prefix (List.prefix_append _ _)).filter _
  refine ⟨hpre.trans ?_, hall⟩
  rw [hall]
  split
  · exact List.prefix_refl _
  · exact List.dropLast_prefix _

/-- A request from host 7 is answered, and one from host 8 arrives while the reply is sent. -/
theorem inserted_packets_two :
    let i : Inputs := { macAddressIn := 0x001122334455, ipAddressIn := 0x0A000001 }
    let is := receive i (requestFrom 7) ++ receive i (requestFrom 8) ++ List.replicate 70 i
    (packets (collect step taken cleared is)).filter tagged =
      [arpWords 0x001122334455 0x0A000001 (true, 0x000000000007, 0x0A000007),
        arpWords 0x001122334455 0x0A000001 (true, 0x000000000008, 0x0A000008)] := by
  intro i is
  have h : Always step (Addressed 0x001122334455 0x0A000001) cleared is := by decide +kernel
  have hbegun : collect step starts cleared is = [(true, 0x000000000007, 0x0A000007),
      (true, 0x000000000008, 0x0A000008)] := by decide +kernel
  have hpackets := (inserted_packets _ _ cleared_afterReset h).1
  rw [hbegun] at hpackets
  exact hpackets.eq_of_length (by decide +kernel)

end Runs

end RmiiEthernet.Arp
