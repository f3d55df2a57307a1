import RmiiEthernet.Mac.Peers

/-!
# What the counters tell

`rmii_mac_counters` counts the bytes and packets that go into the packet FIFO and those that come
over from the line. No beat is counted twice or missed (`counters_run`), and what one side has
counted on the way out the other one counts on the way in (`counters_agree`).
-/

namespace RmiiEthernet.RmiiMacCounters

open Sync

/-! ## Counting a stream -/

/-- A counter of 32 bits that has seen so many events. -/
def counted (c : BitVec 32) (n : ℕ) : BitVec 32 := c + BitVec.ofNat 32 n

@[simp] theorem counted_zero (c : BitVec 32) : counted c 0 = c := by simp [counted]

@[simp] theorem counted_sub (c : BitVec 32) (n : ℕ) : counted c n - c = BitVec.ofNat 32 n := by
  rw [counted, BitVec.add_comm, BitVec.add_sub_cancel]

theorem counted_add (c : BitVec 32) (m n : ℕ) : counted c (m + n) = counted (counted c m) n := by
  rw [counted, counted, counted, BitVec.ofNat_add, BitVec.add_assoc]

/-- The counters after the beats `tx` on the way out and `rx` on the way in. -/
def State.after (s : State) (tx rx : List (BitVec 8 × Bool)) : State where
  txBytesCounterU := counted s.txBytesCounterU tx.length
  txPacketsCounterU := counted s.txPacketsCounterU (tx.countP Prod.snd)
  rxBytesCounterU := counted s.rxBytesCounterU rx.length
  rxPacketsCounterU := counted s.rxPacketsCounterU (rx.countP Prod.snd)
  rxBadCarrierCounterU := s.rxBadCarrierCounterU

@[simp] theorem after_nil (s : State) : s.after [] [] = s := by simp [State.after]

theorem after_append (s : State) (tx tx' rx rx' : List (BitVec 8 × Bool)) :
    s.after (tx ++ tx') (rx ++ rx') = (s.after tx rx).after tx' rx' := by
  simp [State.after, counted_add]

/-- One cycle without a reset. -/
theorem step_eq_after {s : State} {i : Inputs} (hreset : i.reset = false)
    (hcarrier : i.rxBadCarrier = false) (b c : BitVec 8) :
    step s i = s.after (if i.txDataTvalid && i.txDataTready then [(b, i.txDataTlast)] else [])
      (if i.rxDataTvalid then [(c, i.rxDataTlast)] else []) := by
  have hone (n : BitVec 32) : counted n 1 = n + 1 := rfl
  simp only [step, State.after, hreset, hcarrier, Bool.false_eq_true, if_false]
  congr 1
  · split <;> simp [hone]
  · cases i.txDataTlast <;> cases i.txDataTvalid <;> cases i.txDataTready <;> simp [hone]
  · split <;> simp [hone]
  · cases i.rxDataTlast <;> cases i.rxDataTvalid <;> simp [hone]

end RmiiEthernet.RmiiMacCounters

namespace RmiiEthernet.RmiiMac

open Sync EthernetFcs RmiiMacCounters

variable {T R : ℕ} {cfg : Config} {s : State T R} {es : List Edge} {e : Edge}

/-- One edge. -/
theorem counters_step (he : Steady cfg e) :
    (step s e).rmiiMacCounters = s.rmiiMacCounters.after (framed s e) (received s e) := by
  cases e with
  | phy crsDv rxd => simp [step, phyStep, framed, received, txPacketAfifoEdge, PacketAfifo.accepted]
  | user i => exact step_eq_after he.1 rfl _ _

theorem counters_run (hsteady : ∀ e ∈ es, Steady cfg e) :
    (run step s es).rmiiMacCounters =
      s.rmiiMacCounters.after (collect step framed s es) (collect step received s es) := by
  induction es using List.reverseRecOn with
  | nil => simp
  | append_singleton es e ih =>
    rw [run_concat, counters_step (hsteady e (by simp)), ih fun f hf => hsteady f (by simp [hf]),
      collect_concat, collect_concat, after_append]

end RmiiEthernet.RmiiMac

namespace RmiiEthernet.RmiiMacPeers

open Sync EthernetFcs RmiiMac RmiiMacCounters

variable {T R : ℕ} {cfg : Bool → RmiiMac.Config} {k : Bool} {x : State T R} {fs gs : List Edge}

/-- **The counters of the two sides agree.** When the sending side has nothing on its way, its
counters of bytes and packets sent have moved on as far as those of the other side for bytes and
packets received have done, once the line has been quiet for six edges of the other user clock. -/
theorem counters_agree (cfg : Bool → RmiiMac.Config) (k : Bool) (hT : 1 ≤ T)
    (ht : TransmitIdle (x k)) (hr : LineIdle (x !k)) (hsteady : ∀ e ∈ fs ++ gs, Steady cfg e)
    (hpaces : Paces 3 (Edge.isUser !k) Edge.isLine (fs ++ gs))
    (hdrained : RmiiMac.Drained (run step x fs k))
    (hquiet : ∀ d ∈ collect RmiiMac.step RmiiMac.line (run step x fs k)
      (side k (run step x fs) gs), d.1 = false)
    (hcount : 6 ≤ gs.countP (Edge.isUser !k)) :
    let tx := (run step x fs k).rmiiMacCounters
    let rx := (run step x (fs ++ gs) !k).rmiiMacCounters
    tx.txBytesCounterU - (x k).rmiiMacCounters.txBytesCounterU =
        rx.rxBytesCounterU - (x !k).rmiiMacCounters.rxBytesCounterU ∧
      tx.txPacketsCounterU - (x k).rmiiMacCounters.txPacketsCounterU =
        rx.rxPacketsCounterU - (x !k).rmiiMacCounters.rxPacketsCounterU := by
  intro tx rx
  have hfs : ∀ e ∈ fs, Steady cfg e := fun e he => hsteady e (List.mem_append_left _ he)
  obtain ⟨hall, hnone⟩ := captured_of_drained hT ht hr hsteady hdrained hquiet
  obtain ⟨y, -, hsum, -⟩ := lines_user hT ht (steady_side (x := x) (k := k) hfs)
  have hframed := (framed_of_drained hT ht (steady_side hfs)
    (by rw [run_side]; exact hdrained.txPacketAfifo) hsum).2
  have hsteady' := steady_side (k := !k) (x := x) hsteady
  have hpaces' := paces_side (x := x) hpaces
  -- what has been received is what has been framed
  have hreceived : collect RmiiMac.step received (x !k) (side (!k) x (fs ++ gs)) =
      collect RmiiMac.step framed (x k) (side k x fs) := by
    rw [side_append] at hsteady' hpaces' ⊢
    rw [received_eq_captured hr hsteady' hpaces' (by rw [run_side]; exact hnone)
      (by rw [countP_side]; exact hcount), collect_append, run_side, hall, hnone, List.append_nil,
      ← hframed]
  have htx : tx = _ := (congrArg RmiiMac.State.rmiiMacCounters (run_side k x fs)).symm.trans
    (counters_run (steady_side hfs))
  have hrx : rx = _ := (congrArg RmiiMac.State.rmiiMacCounters
    (run_side (!k) x (fs ++ gs))).symm.trans (counters_run hsteady')
  rw [htx, hrx, hreceived]
  simp [State.after]

/-- The frame of a packet of 29 bytes has 47 of them, on both sides. -/
theorem counters_agree_one :
    let tx := (run step (fun _ => idle 6 6) benchPacket true).rmiiMacCounters
    let rx := (run step (fun _ => idle 6 6) (benchPacket ++ benchQuiet) false).rmiiMacCounters
    (tx.txBytesCounterU = 47 ∧ tx.txPacketsCounterU = 1) ∧
      rx.rxBytesCounterU = 47 ∧ rx.rxPacketsCounterU = 1 := by
  have hzero : (idle 6 6).rmiiMacCounters = ⟨0, 0, 0, 0, 0⟩ := rfl
  have htx : (run step (fun _ => idle 6 6) benchPacket true).rmiiMacCounters.txBytesCounterU = 47 ∧
      (run step (fun _ => idle 6 6) benchPacket true).rmiiMacCounters.txPacketsCounterU = 1 := by
    decide +kernel
  obtain ⟨hbytes, hpackets⟩ := counters_agree (x := fun _ => idle 6 6) benchConfig true
    (show 1 ≤ 6 by decide) (idle_transmitIdle 6 6) (idle_receiveIdle 6 6).toLineIdle
    (show ∀ e ∈ benchPacket ++ benchQuiet, Steady benchConfig e by decide +kernel)
    (by decide +kernel) (by decide +kernel) (by decide +kernel) (by decide +kernel)
  simp only [hzero, htx.1, BitVec.ofNat_eq_ofNat, BitVec.sub_zero] at hbytes
  simp only [hzero, htx.2, BitVec.ofNat_eq_ofNat, BitVec.sub_zero] at hpackets
  refine ⟨htx, ?_, ?_⟩
  · rw [← Bool.not_true, ← hbytes]
    rfl
  · rw [← Bool.not_true, ← hpackets]
    rfl

end RmiiEthernet.RmiiMacPeers
