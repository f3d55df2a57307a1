import RmiiEthernet.Afifo.Delay
import RmiiEthernet.Mac.Transmit
import RmiiEthernet.Rmii.Spacing
import RmiiEthernet.RxPacketBuffer.Lengths

/-!
# From the line to the user

The receive direction of `rmii_mac` over every interleaving of the two clocks in which the user
clock is not too slow: no four edges of the clock of the PHY without one of the user clock.

`rmii_mac_rx` makes a byte of at least three di-bits, so no second byte is written to the `afifo`
before the user clock moves on, and the `afifo` is a delay line (`Crossing`). A frame is followed by
a delimiter before the next byte, so the line has an empty place behind each frame, which is the
idle cycle that `ethernet_deframer` needs (`allows_run`). Hence nothing is lost or changed on the
way to `rx_packet_buffer`, and the user gets the payloads of the frames for it that are intact
(`shown_delivered`).
-/

namespace RmiiEthernet.RmiiMac

open Sync EthernetFcs PacketAfifo RmiiMacRx

variable {T R : ℕ} {cfg : Config} {s : State T R} {es : List Edge} {e : Edge}

/-! ## The words between the two clocks -/

/-- A word that ends a frame is in the place. -/
def ends (o : Option Word) : Bool := o.any Word.last

/-- Behind the last word of a frame there is an empty place. -/
def Parted (a b : Option Word) : Prop := ends a = true → b = none

/-- The places of the delay line, the oldest first. -/
def places (l : Afifo.Slots Word) : List (Option Word) :=
  [l.output, l.fetched, l.admitted, l.crossed, l.crossing, l.written]

/-- The beats in the delay line. -/
def crossing (l : Afifo.Slots Word) : List (Byte × Bool) :=
  ((places l).flatMap Option.toList).map beatOf

/-- **The words between the two clocks**, `c` edges of the clock of the PHY after the last one of
the user clock: the next byte of the receiver is far enough from those that wait. -/
structure Crossing (c : ℕ) (s : State T R) (l : Afifo.Slots Word) : Prop where
  delays : Afifo.Delays s.afifo l
  spread : Spread s.rmiiMacRx
  written : l.written ≠ none → 3 ≤ distance s.rmiiMacRx + c
  writtenLast : ends l.written = true → 6 ≤ distance s.rmiiMacRx + c
  crossingLast : ends l.crossing = true → 3 ≤ distance s.rmiiMacRx + c
  parted : (places l).IsChain Parted

variable {c : ℕ} {l : Afifo.Slots Word}

theorem Parted.of_none (a : Option Word) : Parted a none := fun _ => rfl

theorem distance_of_mAxisTvalid {s : RmiiMacRx.State} (h : s.mAxisTvalid = true) :
    distance s = 0 := by
  rw [distance, if_pos h]

/-- **An edge of the clock of the PHY**: there is room for the byte of the receiver. -/
theorem Crossing.phy_step (h : Crossing c s l) (hc : c ≤ 2) (hreset : resetClk50 s = false)
    (crsDv : Bool) (rxd : DiBit) :
    (s.rmiiMacRx.mAxisTvalid = true → l.written = none) ∧
    Crossing (c + 1) (step s (.phy crsDv rxd))
      (l.write (if s.rmiiMacRx.mAxisTvalid then [rxAfifoDin s] else [])) := by
  have hroom : s.rmiiMacRx.mAxisTvalid = true → l.written = none := by
    intro hv
    by_contra hne
    have hdistance := h.written hne
    rw [distance_of_mAxisTvalid hv] at hdistance
    omega
  have hnext : (step s (.phy crsDv rxd)).rmiiMacRx =
      RmiiMacRx.step s.rmiiMacRx (rmiiMacRxInputs s crsDv rxd) := rfl
  have hafifo : (step s (.phy crsDv rxd)).afifo =
      s.afifo.wrStep false s.rmiiMacRx.mAxisTvalid (rxAfifoDin s) := by
    rw [← hreset]
    rfl
  have hdelays := h.delays.wrStep (by omega) (d := rxAfifoDin s) hroom
  rw [← hafifo] at hdelays
  have hdistance := h.spread.distance_step (rmiiMacRxInputs s crsDv rxd)
  have hspread := h.spread.step (rmiiMacRxInputs s crsDv rxd)
  refine ⟨hroom, ?_⟩
  cases hv : s.rmiiMacRx.mAxisTvalid with
  | false =>
    rw [hv] at hdelays
    refine ⟨hdelays, hspread, fun hne => ?_, fun hlast => ?_, fun hlast => ?_, h.parted⟩
    · have := h.written hne
      rw [hnext]
      omega
    · have := h.writtenLast hlast
      rw [hnext]
      omega
    · have := h.crossingLast hlast
      rw [hnext]
      omega
  | true =>
    rw [hv] at hdelays
    obtain ⟨htwo, hfive⟩ := h.spread.distance_of_shown hv (rmiiMacRxInputs s crsDv rxd)
    have hquiet : ends l.crossing = false := by
      by_contra hlast
      have hd := h.crossingLast (by simpa using hlast)
      rw [distance_of_mAxisTvalid hv] at hd
      omega
    refine ⟨hdelays, hspread, fun _ => ?_, fun hlast => ?_, fun hlast => ?_, ?_⟩
    · rw [hnext]
      omega
    · have hlast : (rxAfifoDin s).last = true := hlast
      have hword : (rxAfifoDin s).last = s.rmiiMacRx.mAxisTlast :=
        congrArg Prod.snd (beatOf_wordOf (s.rmiiMacRx.mAxisTdata, s.rmiiMacRx.mAxisTlast))
      rw [hword] at hlast
      have := hfive hlast
      rw [hnext]
      omega
    · have hlast : ends l.crossing = true := hlast
      rw [hquiet] at hlast
      cases hlast
    · have hparted := h.parted
      simp only [places, List.isChain_cons_cons, List.IsChain.singleton, and_true, if_true,
        Afifo.Slots.write] at hparted ⊢
      obtain ⟨h₁, h₂, h₃, h₄, -⟩ := hparted
      refine ⟨h₁, h₂, h₃, h₄, fun hlast => ?_⟩
      rw [hquiet] at hlast
      cases hlast

/-- **An edge of the user clock** moves the words one place on. -/
theorem Crossing.user_step (h : Crossing c s l) (hc : c ≤ 3) (i : UserInputs) :
    Crossing 0 (step s (.user i)) l.shift := by
  have hnext : (step s (.user i)).rmiiMacRx = s.rmiiMacRx := rfl
  have hparted := h.parted
  refine ⟨h.delays.rdStep.1, h.spread, fun hne => absurd rfl hne, fun hlast => (nomatch hlast),
    fun hlast => ?_, ?_⟩
  · have := h.writtenLast hlast
    rw [hnext]
    omega
  · simp only [places, Afifo.Slots.shift, List.isChain_cons_cons, List.IsChain.singleton,
      and_true] at hparted ⊢
    obtain ⟨-, h₂, h₃, h₄, h₅⟩ := hparted
    exact ⟨h₂, h₃, h₄, h₅, .of_none _⟩

/-! ## What comes over -/

/-- What `rmii_mac_rx` gets at an edge. -/
def rmiiMacRxIn (s : State T R) : Edge → List RmiiMacRx.Inputs
  | .user _ => []
  | .phy crsDv rxd => [rmiiMacRxInputs s crsDv rxd]

theorem clocked_rmiiMacRx :
    Clocked RmiiMacRx.step State.rmiiMacRx (step (T := T) (R := R)) rmiiMacRxIn := by
  intro s e
  cases e <;> rfl

/-- What `ethernet_deframer` gets at an edge. -/
def ethernetDeframerIn (s : State T R) : Edge → List EthernetDeframer.Inputs
  | .user i => [ethernetDeframerInputs s i]
  | .phy _ _ => []

theorem clocked_ethernetDeframer :
    Clocked EthernetDeframer.step State.ethernetDeframer (step (T := T) (R := R))
      ethernetDeframerIn := by
  intro s e
  cases e <;> rfl

/-- The beat received is the word that leaves the delay line. -/
theorem received_user (h : Crossing c s l) (i : UserInputs) :
    received s (.user i) = l.output.toList.map beatOf := by
  rw [← h.delays.rdStep.2]
  cases he : s.afifo.empty true <;>
    simp [received, EthernetDeframer.arrived, ethernetDeframerInputs, clkUserRxAxisTvalid,
      clkUserRxAxisTdata, clkUserRxAxisTlast, rxAfifoDout, Afifo.delivered, he]

theorem crossing_shift (l : Afifo.Slots Word) :
    crossing l = l.output.toList.map beatOf ++ crossing l.shift := by
  simp [crossing, places, Afifo.Slots.shift]

theorem crossing_write (hv : s.rmiiMacRx.mAxisTvalid = true → l.written = none) (crsDv : Bool)
    (rxd : DiBit) :
    crossing (l.write (if s.rmiiMacRx.mAxisTvalid then [rxAfifoDin s] else [])) =
      crossing l ++ captured s (.phy crsDv rxd) := by
  cases hm : s.rmiiMacRx.mAxisTvalid with
  | false => simp [captured, output, hm, Afifo.Slots.write]
  | true =>
    have hword : beatOf (rxAfifoDin s) = (s.rmiiMacRx.mAxisTdata, s.rmiiMacRx.mAxisTlast) :=
      beatOf_wordOf _
    simp [captured, output, hm, crossing, places, Afifo.Slots.write, hv hm, hword]

/-- The frame at the input of `ethernet_deframer` at the end of a run. -/
def lineAfter (s : State T R) (es : List Edge) : EthernetDeframer.Line :=
  run EthernetDeframer.Line.step ⟨[], false⟩ (collect step ethernetDeframerIn s es)

/-- **What has come over** in a run from the line to the user clock, and what is between. -/
structure Arrives (s : State T R) (es : List Edge) (l : Afifo.Slots Word) : Prop where
  between : Crossing (run (lag Edge.isUser Edge.isPhy) 0 es) (run step s es) l
  captured_eq : collect step captured s es = collect step received s es ++ crossing l
  frame : (lineAfter s es).frame = openPacket (collect step received s es)
  ended : (lineAfter s es).ended = true → l.output = none

theorem Arrives.phy_step (h : Arrives s es l) (hreset : resetClk50 (run step s es) = false)
    {crsDv : Bool} {rxd : DiBit}
    (hpaces : Paces 3 Edge.isUser Edge.isPhy (es ++ [.phy crsDv rxd])) :
    Arrives s (es ++ [.phy crsDv rxd])
      (l.write (if (run step s es).rmiiMacRx.mAxisTvalid then [rxAfifoDin (run step s es)]
        else [])) := by
  have hlag := hpaces.lag_le
  rw [run_concat, lag] at hlag
  simp only [Edge.isUser, Edge.isPhy, Bool.false_eq_true, if_false, if_true] at hlag
  obtain ⟨hroom, hnext⟩ := h.between.phy_step (by omega) hreset crsDv rxd
  have hline : lineAfter s (es ++ [.phy crsDv rxd]) = lineAfter s es := by
    rw [lineAfter, collect_concat, ethernetDeframerIn, List.append_nil, lineAfter]
  refine ⟨?_, ?_, ?_, ?_⟩
  · rw [run_concat, run_concat]
    exact hnext
  · rw [collect_concat, collect_concat, h.captured_eq, crossing_write hroom crsDv rxd]
    simp [received]
  · rw [hline, collect_concat, h.frame]
    simp [received]
  · rw [hline]
    intro hended
    have hout := h.ended hended
    cases hm : (run step s es).rmiiMacRx.mAxisTvalid <;> simpa [Afifo.Slots.write] using hout

theorem Arrives.user_step (h : Arrives s es l) (i : UserInputs)
    (hpaces : Paces 3 Edge.isUser Edge.isPhy es) : Arrives s (es ++ [.user i]) l.shift := by
  have hreceived := received_user h.between i
  have hline : lineAfter s (es ++ [.user i]) =
      (lineAfter s es).step (ethernetDeframerInputs (run step s es) i) := by
    rw [lineAfter, collect_concat, run_append, ethernetDeframerIn, run_cons, run_nil, lineAfter]
  refine ⟨?_, ?_, ?_, ?_⟩
  · rw [run_concat, run_concat]
    exact h.between.user_step hpaces.lag_le i
  · rw [collect_concat, collect_concat, h.captured_eq, crossing_shift, ← hreceived]
    simp [captured]
  · rw [hline, collect_concat, openPacket_append, ← h.frame, EthernetDeframer.Line.step]
    simp only [received, EthernetDeframer.arrived]
    split <;> rfl
  · rw [hline]
    intro hended
    -- the word that has left ends a frame, so the place behind it is empty
    have hparted := h.between.parted
    simp only [places, List.isChain_cons_cons] at hparted
    refine hparted.1 ?_
    unfold EthernetDeframer.Line.step at hended
    split at hended
    · next hv =>
      have hone : received (run step s es) (.user i) =
          [(clkUserRxAxisTdata (run step s es), clkUserRxAxisTlast (run step s es))] := if_pos hv
      rw [hreceived] at hone
      cases ho : l.output with
      | none => simp [ho] at hone
      | some w =>
        have hw : beatOf w =
            (clkUserRxAxisTdata (run step s es), clkUserRxAxisTlast (run step s es)) := by
          simpa [ho] using hone
        have hlast : w.last = clkUserRxAxisTlast (run step s es) := congrArg Prod.snd hw
        exact hlast.trans hended
    · cases hended

/-- Nothing is in progress in the receive direction up to the `afifo`. -/
structure LineIdle (s : State T R) : Prop where
  unreset : Unreset s
  rmiiMacRx : Silent s.rmiiMacRx ∧ s.rmiiMacRx.fsmState = .waitForSfd
  afifo : Afifo.PowerUp s.afifo

theorem LineIdle.spread (h : LineIdle s) : Spread s.rmiiMacRx := by
  obtain ⟨hsilent, hwait⟩ := h.rmiiMacRx
  refine ⟨fun hv => ?_, fun hv => ?_, fun _ => ⟨hsilent.rxByteValidR, hsilent.rxByteValid⟩,
    fun _ _ => hwait, fun _ _ => hwait⟩
  · rw [hsilent.rxByteValid] at hv
    cases hv
  · rw [hsilent.rxByteValidR] at hv
    cases hv

theorem LineIdle.arrives (h : LineIdle s) : Arrives s [] .empty where
  between :=
    { delays := h.afifo.delays
      spread := h.spread
      written := fun hne => absurd rfl hne
      writtenLast := nofun
      crossingLast := nofun
      parted := by simp [places, Afifo.Slots.empty, Parted] }
  captured_eq := rfl
  frame := rfl
  ended := nofun

/-- **Nothing is lost on the way over**, at any pace of the two clocks that `Paces` allows. -/
theorem arrives_run (h : LineIdle s) (hsteady : ∀ e ∈ es, Steady cfg e)
    (hpaces : Paces 3 Edge.isUser Edge.isPhy es) : ∃ l, Arrives s es l := by
  induction es using List.reverseRecOn with
  | nil => exact ⟨_, h.arrives⟩
  | append_singleton es e ih =>
    have hes : ∀ e ∈ es, Steady cfg e := fun f hf => hsteady f (by simp [hf])
    have hbefore := hpaces.of_infix (List.prefix_append es [e]).isInfix
    obtain ⟨l, hl⟩ := ih hes hbefore
    cases e with
    | user i => exact ⟨_, hl.user_step i hbefore⟩
    | phy crsDv rxd => exact ⟨_, hl.phy_step (unreset_run h.unreset hes).resetClk50 hpaces⟩

/-- While nothing is captured, one more place is empty behind each edge of the user clock. -/
theorem Arrives.drain {fs gs : List Edge} (h : Arrives s fs l) (hs : LineIdle s)
    (hsteady : ∀ e ∈ fs ++ gs, Steady cfg e) (hpaces : Paces 3 Edge.isUser Edge.isPhy (fs ++ gs))
    (hnone : collect step captured (run step s fs) gs = []) :
    ∃ l', Arrives s (fs ++ gs) l' ∧
      ∀ o ∈ (places l').drop (6 - gs.countP Edge.isUser), o = none := by
  induction gs using List.reverseRecOn with
  | nil => exact ⟨l, by simpa using h, by simp [places]⟩
  | append_singleton gs e ih =>
    rw [← List.append_assoc] at hsteady hpaces ⊢
    rw [collect_concat, List.append_eq_nil_iff] at hnone
    have hes : ∀ e ∈ fs ++ gs, Steady cfg e := fun f hf => hsteady f (List.mem_append_left _ hf)
    have hbefore := hpaces.of_infix (List.prefix_append (fs ++ gs) [e]).isInfix
    obtain ⟨l', hl', hempty⟩ := ih hes hbefore hnone.1
    rw [← run_append] at hnone
    cases e with
    | user i =>
      refine ⟨_, hl'.user_step i hbefore, ?_⟩
      have hshift : places l'.shift = (places l').drop 1 ++ [none] := rfl
      have hcount : (gs ++ [Edge.user i]).countP Edge.isUser = gs.countP Edge.isUser + 1 := by
        simp [Edge.isUser]
      intro o ho
      rw [hshift, hcount, List.drop_append] at ho
      rcases List.mem_append.mp ho with ho | ho
      · rw [List.drop_drop] at ho
        exact hempty o (List.drop_subset_drop_left _ (by omega) ho)
      · exact List.mem_singleton.mp (List.drop_subset _ _ ho)
    | phy crsDv rxd =>
      have hvalid : (run step s (fs ++ gs)).rmiiMacRx.mAxisTvalid = false := by
        have hout := hnone.2
        simpa [captured, output] using hout
      have hwrite : l'.write (if (run step s (fs ++ gs)).rmiiMacRx.mAxisTvalid then
          [rxAfifoDin (run step s (fs ++ gs))] else []) = l' := by
        rw [hvalid]
        rfl
      have hcount : (gs ++ [Edge.phy crsDv rxd]).countP Edge.isUser = gs.countP Edge.isUser := by
        simp [Edge.isUser]
      have hnext := hl'.phy_step (unreset_run hs.unreset hes).resetClk50 hpaces
      rw [hwrite] at hnext
      exact ⟨l', hnext, by rw [hcount]; exact hempty⟩

/-- **Everything is over** six edges of the user clock after the last byte has been captured. -/
theorem received_eq_captured {fs gs : List Edge} (h : LineIdle s)
    (hsteady : ∀ e ∈ fs ++ gs, Steady cfg e) (hpaces : Paces 3 Edge.isUser Edge.isPhy (fs ++ gs))
    (hnone : collect step captured (run step s fs) gs = [])
    (hcount : 6 ≤ gs.countP Edge.isUser) :
    collect step received s (fs ++ gs) = collect step captured s (fs ++ gs) := by
  obtain ⟨l, hl⟩ := arrives_run h (fun e he => hsteady e (List.mem_append_left _ he))
    (hpaces.of_infix (List.prefix_append fs gs).isInfix)
  obtain ⟨l', hl', hempty⟩ := hl.drain h hsteady hpaces hnone
  rw [Nat.sub_eq_zero_of_le hcount, List.drop_zero] at hempty
  have hnil : crossing l' = [] := by
    rw [crossing, List.map_eq_nil_iff, List.flatMap_eq_nil_iff]
    intro o ho
    rw [hempty o ho]
    rfl
  rw [hl'.captured_eq, hnil, List.append_nil]

/-- **An idle cycle behind each frame**, as `ethernet_deframer` needs it. -/
theorem allows_run (h : LineIdle s) (hsteady : ∀ e ∈ es, Steady cfg e)
    (hpaces : Paces 3 Edge.isUser Edge.isPhy es)
    (hshort : ∀ q ∈ packets (collect step captured s es), 15 ≤ q.length) :
    Always EthernetDeframer.Line.step EthernetDeframer.Line.Allows ⟨[], false⟩
      (collect step ethernetDeframerIn s es) := by
  induction es using List.reverseRecOn with
  | nil => trivial
  | append_singleton es e ih =>
    have hes : ∀ e ∈ es, Steady cfg e := fun f hf => hsteady f (by simp [hf])
    have hbefore := hpaces.of_infix (List.prefix_append es [e]).isInfix
    have hmono : packets (collect step captured s es) <+:
        packets (collect step captured s (es ++ [e])) :=
      packets_prefix (Sync.collect_prefix s (List.prefix_append _ _))
    have hpast := ih hes hbefore fun q hq => hshort q (hmono.subset hq)
    rw [collect_concat, always_append]
    refine ⟨hpast, ?_⟩
    cases e with
    | phy crsDv rxd => trivial
    | user i =>
      obtain ⟨l, hl⟩ := arrives_run h hes hbefore
      have hreceived := received_user hl.between i
      refine ⟨fun hv => ⟨?_, fun hlast => ?_⟩, trivial⟩
      · by_contra hended
        have hnone := hl.ended (Bool.not_eq_false _ ▸ hended)
        have hone : received (run step s es) (.user i) = [_] := if_pos hv
        rw [hreceived, hnone] at hone
        cases hone
      · have hone : received (run step s es) (.user i) =
            [(clkUserRxAxisTdata (run step s es), true)] := by
          have hlast : clkUserRxAxisTlast (run step s es) = true := hlast
          rw [← hlast]
          exact if_pos hv
        apply hshort
        have hframe : (lineAfter s es).frame = _ := hl.frame
        have hcaptured := hl.captured_eq
        rw [crossing_shift, ← hreceived, hone, ← List.append_assoc] at hcaptured
        refine hmono.subset ?_
        rw [hcaptured]
        refine mem_packets_append _ ?_
        rw [packets_concat, if_pos rfl, ← hframe]
        simp [lineAfter, ethernetDeframerInputs]

end RmiiEthernet.RmiiMac
