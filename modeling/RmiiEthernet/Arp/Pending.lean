import RmiiEthernet.Arp.Merge

/-!
# Announcements and replies that wait

`arp` keeps one announcement (`garp_pending`) and one reply (`reply_pending`) until the state
machine can start the packet. Both flags are cleared elsewhere than where the packet is started.

* The announcement is cleared by a process that repeats the condition of the state machine, without
  `output_tready` and with a weaker test of the data stream. `garp_balance` counts what is asked
  for, what is started and what is lost, and `garp_count_iff` says when nothing is lost.
* The reply is cleared one cycle after it has been started, whatever arrives in these two cycles.
  `Answers` is the invariant of the runs in which no other request arrives there, and
  `captured_of_raceless` what follows for them.
-/

namespace RmiiEthernet.Arp

open Sync EthernetFcs

/-! ## Announcements -/

section Garp

variable {s : State} {i : Inputs} {is : List Inputs}

/-- `send_garp_ready_out`. -/
def sendGarpReadyOut (s : State) : Bool := !s.garpPending

/-- An announcement is asked for and accepted in a cycle. -/
def garpAccepted (s : State) (i : Inputs) : List Unit :=
  if i.sendGarpIn && sendGarpReadyOut s then [()] else []

/-- The state machine starts an announcement in a cycle. -/
def garpStarted (s : State) (i : Inputs) : List Unit := if startsGarp s i then [()] else []

/-- An announcement is cleared in a cycle and not started. -/
def garpLost (s : State) (i : Inputs) : List Unit :=
  if clearsGarp s i && !startsGarp s i then [()] else []

/-- When an announcement waits in `idle`, no reply is first in line and no data packet is open or
its last byte is offered, then the output is not stalled and no data packet begins. -/
def KeepsGarp (s : State) (i : Inputs) : Prop :=
  s.fsmState = .idle → s.garpPending = true → s.rx.replyPending = false →
    (s.inDataPacket = false ∨ (i.sAxisTvalid = true ∧ i.sAxisTlast = true)) →
    outputTready s i = true ∧ (i.sAxisTvalid = true → i.sAxisTlast = true)

instance (s : State) (i : Inputs) : Decidable (KeepsGarp s i) :=
  inferInstanceAs (Decidable (_ → _))

/-- What is started is cleared. -/
theorem clearsGarp_of_startsGarp (h : startsGarp s i = true) : clearsGarp s i = true := by
  simp only [startsGarp, betweenPackets, Bool.and_eq_true, Bool.or_eq_true] at h
  simp only [clearsGarp, Bool.and_eq_true, Bool.or_eq_true]
  obtain ⟨⟨⟨⟨h₁, -⟩, h₂⟩, h₃⟩, h₄⟩ := h
  exact ⟨⟨⟨h₁, h₄⟩, h₃⟩, h₂.symm.imp And.symm And.right⟩

theorem garpLost_eq_nil_iff : garpLost s i = [] ↔ KeepsGarp s i := by
  unfold garpLost KeepsGarp clearsGarp startsGarp betweenPackets
  cases s.garpPending <;> cases s.rx.replyPending <;> cases s.inDataPacket <;>
    cases i.sAxisTvalid <;> cases i.sAxisTlast <;> cases outputTready s i <;>
    by_cases hs : s.fsmState = .idle <;> simp [hs]

/-- **One cycle**: what is asked for is pending, started or lost. -/
theorem garp_step (hi : i.reset = false) :
    (garpAccepted s i).length + s.garpPending.toNat =
      (garpStarted s i).length + (garpLost s i).length +
        (step s i).garpPending.toNat := by
  have hstart := clearsGarp_of_startsGarp (s := s) (i := i)
  have hclear : clearsGarp s i = true → s.garpPending = true := by
    simp only [clearsGarp, Bool.and_eq_true]
    exact fun h => h.1.1.2
  have hnext : (step s i).garpPending =
      (!clearsGarp s i && (i.sendGarpIn || s.garpPending)) := by
    cases hc : clearsGarp s i <;> cases hg : i.sendGarpIn <;> simp [step, hi, hc, hg]
  rw [hnext, garpAccepted, garpStarted, garpLost, sendGarpReadyOut]
  cases hs : startsGarp s i <;> cases hc : clearsGarp s i <;> cases hp : s.garpPending <;>
    cases i.sendGarpIn <;> simp_all

/-- **Every run**: the announcements asked for, started, lost and pending. -/
theorem garp_balance (hreset : ∀ i ∈ is, i.reset = false) :
    (collect step garpAccepted s is).length + s.garpPending.toNat =
      (collect step garpStarted s is).length + (collect step garpLost s is).length +
        (run step s is).garpPending.toNat := by
  induction is generalizing s with
  | nil => simp
  | cons i is ih =>
    have hstep := garp_step (s := s) (hreset i (by simp))
    have hrest := ih (s := step s i) fun j hj => hreset j (by simp [hj])
    simp only [collect_cons, run_cons, List.length_append]
    omega

/-- **When no announcement is lost**: in every state of a run after reset the announcements that
were accepted are those that were started and the one that is pending, if and only if every cycle
is one of `KeepsGarp`. -/
theorem garp_count_iff {s : State} {is : List Inputs} (h : AfterReset s)
    (hreset : ∀ i ∈ is, i.reset = false) :
    (∀ js, js <+: is → (collect step garpAccepted s js).length =
      (collect step garpStarted s js).length +
        (run step s js).garpPending.toNat) ↔
      Always step KeepsGarp s is := by
  have hzero : s.garpPending = false := by
    obtain ⟨s₀, i, hi, rfl⟩ := h
    simp [step, hi]
  have hnone : collect step garpLost s is = [] ↔ Always step KeepsGarp s is :=
    collect_eq_nil_iff_always (fun _ _ => garpLost_eq_nil_iff) s is
  rw [← hnone]
  constructor
  · intro hcount
    have hall := hcount is (List.prefix_refl is)
    have hsum := garp_balance (s := s) hreset
    rw [hzero] at hsum
    apply List.eq_nil_of_length_eq_zero
    simp at hsum
    omega
  · intro hlost js hjs
    have hsum := garp_balance (s := s) fun j hj => hreset j (hjs.subset hj)
    have hnone : collect step garpLost s js = [] := by
      have hpre : collect step garpLost s js <+: collect step garpLost s is := collect_prefix s hjs
      rwa [hlost, List.prefix_nil] at hpre
    rw [hzero, hnone] at hsum
    simpa using hsum

/-- An announcement on an idle line. -/
theorem garp_count_one :
    let i : Inputs := { macAddressIn := 0x001122334455, ipAddressIn := 0x0A000001 }
    ∀ js, js <+: [{ i with sendGarpIn := true }, i, i] →
      (collect step garpAccepted cleared js).length = (collect step garpStarted cleared js).length +
        (run step cleared js).garpPending.toNat :=
  (garp_count_iff cleared_afterReset (by decide)).mpr (by decide +kernel)

/-- An announcement is asked for in the cycle before a data packet begins. -/
theorem not_garp_count :
    ¬ ∀ (s : State) (is : List Inputs), AfterReset s → (∀ i ∈ is, i.reset = false) →
      (collect step garpAccepted s is).length = (collect step garpStarted s is).length +
        (run step s is).garpPending.toNat := by
  intro h
  have := h cleared
    [{ macAddressIn := 0, ipAddressIn := 0, sendGarpIn := true },
      { macAddressIn := 0, ipAddressIn := 0, sAxisTvalid := true }] cleared_afterReset (by decide)
  revert this
  decide +kernel

end Garp

/-! ## Replies -/

section Reply

variable {s : State} {i : Inputs} {is : List Inputs} {R C : List (BitVec 48 × BitVec 32)}

/-- The sender of a request that is completed in a cycle: its hardware and protocol address. -/
def request (s : State) (i : Inputs) : List (BitVec 48 × BitVec 32) :=
  if requestMatches s.rx i then [(s.rx.rxShaShift, s.rx.rxSpaShift)] else []

/-- The target that is captured for a reply in a cycle. -/
def captured (s : State) (i : Inputs) : List (BitVec 48 × BitVec 32) :=
  if startsReply s i then [(s.rx.reqSha, s.rx.reqSpa)] else []

/-- A request that is completed in the cycle in which a reply is started, or in the cycle after
that, has the target of the reply for its sender. -/
def Raceless (s : State) (i : Inputs) : Prop :=
  requestMatches s.rx i = true →
    (startsReply s i = true →
      (s.rx.rxShaShift, s.rx.rxSpaShift) = (s.rx.reqSha, s.rx.reqSpa)) ∧
    (s.replyStarted = true →
      (s.rx.rxShaShift, s.rx.rxSpaShift) = (s.sendingTargetMac, s.sendingTargetIp))

instance (s : State) (i : Inputs) : Decidable (Raceless s i) :=
  inferInstanceAs (Decidable (_ → _))

/-- The last request has been answered. -/
def Answered (R C : List (BitVec 48 × BitVec 32)) : Prop := R = [] ∨ C.getLast? = R.getLast?

/-- **Requests and replies**, when the requests `R` have been completed and replies to `C` have been
started. In the cycle after the start the last request has been answered although the flag is still
set; the flag may be clear there only directly after a reset. -/
structure Answers (s : State) (R C : List (BitVec 48 × BitVec 32)) : Prop where
  last : R ≠ [] → R.getLast? = some (s.rx.reqSha, s.rx.reqSpa)
  nothing : R = [] → s.rx.replyPending = false
  answered : s.rx.replyPending = false → Answered R C
  started : s.replyStarted = true → Answered R C ∧
    (s.rx.replyPending = true ∧ s.fsmState ≠ .idle ∧
        R.getLast? = some (s.sendingTargetMac, s.sendingTargetIp) ∨
      s.rx.replyPending = false ∧ s.rx.rxByteCnt = 0#7)

theorem Answers.not_startsReply (h : Answers s R C) (hs : s.replyStarted = true) :
    startsReply s i = false := by
  rcases (h.started hs).2 with ⟨-, hidle, -⟩ | ⟨hpending, -⟩
  · simp [startsReply, hidle]
  · simp [startsReply, hpending]

theorem requestMatches_rxByteCnt {r : Parser} (h : requestMatches r i = true) :
    r.rxByteCnt = 41#7 := by
  simp only [requestMatches, Bool.and_eq_true, beq_iff_eq] at h
  exact h.1.1.1.1.1.2

/-- What is known when the flag is about to be cleared. -/
theorem Answers.of_replyStarted (h : Answers s R C) (hi : Raceless s i)
    (hs : s.replyStarted = true) :
    Answered (R ++ request s i) C ∧ (s.rx.replyPending = true →
      (R ++ request s i).getLast? = some (s.sendingTargetMac, s.sendingTargetIp)) := by
  obtain ⟨hanswered, ⟨hpending, -, hlast⟩ | ⟨hpending, hcount⟩⟩ := h.started hs
  · cases hm : requestMatches s.rx i with
    | false =>
      have hnone : request s i = [] := by simp [request, hm]
      rw [hnone, List.append_nil]
      exact ⟨hanswered, fun _ => hlast⟩
    | true =>
      have hone : request s i = [(s.sendingTargetMac, s.sendingTargetIp)] := by
        rw [request, if_pos hm, (hi hm).2 hs]
      rw [hone, List.getLast?_append, List.getLast?_singleton, Option.some_or]
      refine ⟨.inr ?_, fun _ => rfl⟩
      rcases hanswered with rfl | hanswered
      · simp at hlast
      · rw [hanswered, hlast, List.getLast?_append, List.getLast?_singleton, Option.some_or]
  · -- no request ends at the first byte of a frame
    have hm : requestMatches s.rx i = false := by
      by_contra hm
      have := requestMatches_rxByteCnt (by simpa using hm)
      simp [hcount] at this
    have hnone : request s i = [] := by simp [request, hm]
    rw [hnone, List.append_nil]
    exact ⟨hanswered, fun hp => by simp [hpending] at hp⟩

theorem replyPending_step (hreset : i.reset = false) :
    (step s i).rx.replyPending =
      (!s.replyStarted && (requestMatches s.rx i || s.rx.replyPending)) := by
  simp [step, Parser.step, hreset]

/-- The request that a reply is started for is the last one. -/
theorem Answers.of_startsReply (h : Answers s R C) (hi : Raceless s i)
    (hs : startsReply s i = true) :
    (R ++ request s i).getLast? = some (s.rx.reqSha, s.rx.reqSpa) := by
  have hpending : s.rx.replyPending = true := by
    simp only [startsReply, Bool.and_eq_true] at hs
    exact hs.2
  have hne : R ≠ [] := by
    intro hnil
    simp [h.nothing hnil] at hpending
  cases hm : requestMatches s.rx i with
  | false =>
    have hnone : request s i = [] := by simp [request, hm]
    rw [hnone, List.append_nil, h.last hne]
  | true =>
    have hone : request s i = [(s.rx.reqSha, s.rx.reqSpa)] := by
      rw [request, if_pos hm, (hi hm).1 hs]
    rw [hone, List.getLast?_append, List.getLast?_singleton, Option.some_or]

/-- **One cycle** without a race. -/
theorem Answers.step (h : Answers s R C) (hreset : i.reset = false) (hi : Raceless s i) :
    Answers (step s i) (R ++ request s i) (C ++ captured s i) := by
  refine ⟨fun hne => ?_, fun hnil => ?_, fun hpending => ?_, fun hstarts => ?_⟩
  · cases hm : requestMatches s.rx i with
    | false =>
      have hnone : request s i = [] := by simp [request, hm]
      rw [hnone, List.append_nil] at hne ⊢
      rw [h.last hne]
      simp [Arp.step, Parser.step, hreset, hm]
    | true =>
      have hone : request s i = [(s.rx.rxShaShift, s.rx.rxSpaShift)] := if_pos hm
      rw [hone, List.getLast?_append, List.getLast?_singleton, Option.some_or]
      simp [Arp.step, Parser.step, hreset, hm]
  · obtain ⟨hR, hnone⟩ := List.append_eq_nil_iff.mp hnil
    have hm : requestMatches s.rx i = false := by
      by_contra hm
      simp [request, hm] at hnone
    simp [replyPending_step hreset, hm, h.nothing hR]
  · rw [replyPending_step hreset] at hpending
    cases hs : s.replyStarted with
    | true =>
      have hnone : captured s i = [] := by simp [captured, h.not_startsReply hs]
      rw [hnone, List.append_nil]
      exact (h.of_replyStarted hi hs).1
    | false =>
      obtain ⟨hm, hp⟩ : requestMatches s.rx i = false ∧ s.rx.replyPending = false := by
        simpa [hs] using hpending
      have hstart : startsReply s i = false := by simp [startsReply, hp]
      simpa [request, captured, hm, hstart] using h.answered hp
  · change startsReply s i = true at hstarts
    have hlast := h.of_startsReply hi hstarts
    have hone : captured s i = [(s.rx.reqSha, s.rx.reqSpa)] := if_pos hstarts
    have hnot : s.replyStarted = false := by
      by_contra hs
      simp [h.not_startsReply (by simpa using hs)] at hstarts
    refine ⟨.inr ?_, .inl ⟨?_, ?_, ?_⟩⟩
    · rw [hone, hlast, List.getLast?_append, List.getLast?_singleton, Option.some_or]
    · simp only [startsReply, Bool.and_eq_true] at hstarts
      simp [replyPending_step hreset, hnot, hstarts.2]
    · simp only [startsReply, Bool.and_eq_true, beq_iff_eq] at hstarts
      simp [Arp.step, hreset, nextState, hstarts]
    · rw [hlast]
      simp [Arp.step, hstarts]

theorem answers_afterReset (h : AfterReset s) : Answers s [] [] := by
  obtain ⟨s₀, i, hi, rfl⟩ := h
  refine ⟨by simp, fun _ => ?_, fun _ => .inl rfl, fun _ => ⟨.inl rfl, .inr ?_⟩⟩ <;>
    simp [Arp.step, Parser.step, hi]

/-- **Every run** without a race. -/
theorem answers_run (h : AfterReset s) (hreset : ∀ i ∈ is, i.reset = false)
    (hraceless : Always step Raceless s is) :
    Answers (run step s is) (collect step request s is) (collect step captured s is) := by
  induction is using List.reverseRecOn with
  | nil => exact answers_afterReset h
  | append_singleton is i ih =>
    obtain ⟨hbefore, hi, -⟩ := (always_append _ _ _).mp hraceless
    have hstep := (ih (fun j hj => hreset j (by simp [hj])) hbefore).step (hreset i (by simp)) hi
    simpa [run_append, collect_append] using hstep

/-- **No request is lost without a race.** In a run after reset in which every cycle is one of
`Raceless`, the flag falls only when the target captured for a reply is the sender of the last
request, the one of this cycle included; and whenever the flag is clear, the last reply that was
started is for the last request. -/
theorem captured_of_raceless {s : State} {is : List Inputs} (h : AfterReset s)
    (hreset : ∀ i ∈ is, i.reset = false) (hraceless : Always step Raceless s is) :
    (∀ js i ks, is = js ++ i :: ks → (run step s js).rx.replyPending = true →
        (step (run step s js) i).rx.replyPending = false →
        (collect step request s (js ++ [i])).getLast? =
          some ((run step s js).sendingTargetMac, (run step s js).sendingTargetIp)) ∧
      ∀ js, js <+: is → (run step s js).rx.replyPending = false →
        Answered (collect step request s js) (collect step captured s js) := by
  constructor
  · rintro js i ks rfl hbefore hafter
    obtain ⟨hjs, hi, -⟩ := (always_append _ _ _).mp hraceless
    have hanswers := answers_run h (fun j hj => hreset j (by simp [hj])) hjs
    have hstarted : (run step s js).replyStarted = true := by
      rw [replyPending_step (hreset i (by simp)), hbefore] at hafter
      simpa using hafter
    rw [collect_concat]
    exact (hanswers.of_replyStarted hi hstarted).2 hbefore
  · rintro js ⟨ks, rfl⟩ hpending
    obtain ⟨hjs, -⟩ := (always_append _ _ _).mp hraceless
    exact (answers_run h (fun j hj => hreset j (by simp [hj])) hjs).answered hpending

/-- The bytes of a broadcast request for `10.0.0.1` from the host with number `k`. -/
def requestFrom (k : Byte) : List Byte :=
  List.replicate 6 0xFF ++ [0, 0, 0, 0, 0, k] ++
    [0x08, 0x06, 0x00, 0x01, 0x08, 0x00, 0x06, 0x04, 0x00, 0x01] ++
    [0, 0, 0, 0, 0, k, 10, 0, 0, k] ++ [0, 0, 0, 0, 0, 0, 10, 0, 0, 1]

/-- The cycles in which a frame is received, with the data port as in `i`. -/
def receive (i : Inputs) (f : List Byte) : List Inputs :=
  (Sync.beats f).map fun b =>
    { i with rxAxisTdata := b.1, rxAxisTvalid := true, rxAxisTlast := b.2 }

/-- A request is received and answered on an idle line. -/
theorem captured_of_raceless_one :
    let i : Inputs := { macAddressIn := 0x001122334455, ipAddressIn := 0x0A000001 }
    (collect step request cleared (receive i (requestFrom 7) ++ [i, i])).getLast? =
      some (0x000000000007, 0x0A000007) := by
  intro i
  have hreset : ∀ j ∈ receive i (requestFrom 7) ++ [i, i], j.reset = false := by decide +kernel
  have hraceless : Always step Raceless cleared (receive i (requestFrom 7) ++ [i, i]) := by
    decide +kernel
  have hfalls := (captured_of_raceless cleared_afterReset hreset hraceless).1
    (receive i (requestFrom 7) ++ [i]) i [] (by simp) (by decide +kernel) (by decide +kernel)
  rw [List.append_assoc] at hfalls
  exact hfalls.trans (by decide +kernel)

/-- A request waits behind a data packet; a second one is completed in the cycle in which the data
packet ends and the reply to the first one is started. -/
theorem not_captured :
    ¬ ∀ (s : State) (is : List Inputs), AfterReset s → (∀ i ∈ is, i.reset = false) →
      ∀ js i ks, is = js ++ i :: ks → (run step s js).rx.replyPending = true →
        (step (run step s js) i).rx.replyPending = false →
        (collect step request s (js ++ [i])).getLast? =
          some ((run step s js).sendingTargetMac, (run step s js).sendingTargetIp) := by
  intro h
  let i : Inputs := { macAddressIn := 0x001122334455, ipAddressIn := 0x0A000001 }
  let js : List Inputs := { i with sAxisTvalid := true } :: receive i (requestFrom 7) ++
    (receive i (requestFrom 8)).dropLast ++
    [{ i with rxAxisTdata := 1, rxAxisTvalid := true, rxAxisTlast := true, sAxisTvalid := true,
              sAxisTlast := true }]
  have := h cleared (js ++ [i]) cleared_afterReset (by decide +kernel) js i [] rfl
    (by decide +kernel) (by decide +kernel)
  revert this
  decide +kernel

end Reply

end RmiiEthernet.Arp
