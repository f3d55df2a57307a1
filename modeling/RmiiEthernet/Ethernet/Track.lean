import RmiiEthernet.Ethernet.Resync

/-!
# The Ethernet deframer, cycle by cycle

`Track` is the deframer as seen from the line: the bytes of the frame in progress, the bytes the
check sequence has been computed over, and the bytes that were in the delay line before the frame.
All three belong together as long as frames are long enough and have an idle cycle behind them;
this module follows them without these assumptions.

* A frame ends for the machine only where it looks at `tlast` (`Track.heeds`), so fragments are
  joined with what comes after them.
* The CRC is cleared in the cycle after the end of a frame, whether or not a byte arrives in it.
* The delay line is cleared after a frame that has been passed, not after one that has been dropped.

`Tracks.step` shows that the circuit does in every cycle what `Track.step` and `Track.emit` say, and
`Tracks.run` that it does so in every run, from any state in which the four agree.
-/

namespace RmiiEthernet.EthernetDeframer

open Sync EthernetFcs EthernetFrame

/-! ## The line and what is left over from it -/

/-- The bytes of the frame in progress, those in the CRC register, and those in the delay line from
before the frame; whether a frame ended in the cycle before. -/
structure Track where
  frame : List Byte
  crc : List Byte
  old : List Byte
  ended : Bool

namespace Track

variable (cfg : Config) (l : Track) (i : Inputs)

/-- The bytes that have gone into the delay line. -/
def delayed : List Byte := l.old ++ payloadAndFcs cfg l.frame

/-- The machine takes the byte for the last one of a frame. -/
def heeds : Bool :=
  i.sAxisTvalid && i.sAxisTlast && decide (Resyncs cfg (l.frame ++ [i.sAxisTdata]))

/-- One cycle. -/
def step : Track where
  frame :=
    if l.heeds cfg i then [] else if i.sAxisTvalid then l.frame ++ [i.sAxisTdata] else l.frame
  crc := if l.ended then [] else if i.sAxisTvalid then l.crc ++ [i.sAxisTdata] else l.crc
  old := if l.heeds cfg i && decide (Matches cfg l.frame) then [] else l.old
  ended := l.heeds cfg i

/-- What leaves the delay line in the next cycle. -/
def emit : List OutBeat :=
  if i.sAxisTvalid = true ∧ Matches cfg l.frame ∧ 4 ≤ (l.delayed cfg).length then
    [((l.delayed cfg).getD ((l.delayed cfg).length - 4) 0, i.sAxisTlast,
      i.sAxisTlast && !decide (circuitRegister (l.crc ++ [i.sAxisTdata]) = crcVerify))]
  else []

/-- A frame is dropped. -/
def drop : List Unit := if l.heeds cfg i && !decide (Matches cfg l.frame) then [()] else []

end Track

/-- **The registers and the line.** -/
structure Tracks (cfg : Config) (s : State) (l : Track) : Prop extends Parses cfg s l.frame where
  fcsReset : s.fcsReset = l.ended
  crcReg : s.fcs.crcReg = circuitRegister l.crc
  ended : l.ended = true → l.frame = []
  delay : (s.payloadFinished = true ∧ l.frame = [] ∧ l.old = []) ∨
    (s.payloadFinished = false ∧
      ∃ q, q ++ held s = l.delayed cfg ∧ CircularBuffer.Holds s.fifo (q.rtake 4))

section Cycle

variable {cfg : Config} {s : State} {i : Inputs} {l : Track} {f : List Byte}

theorem Track.heeds_iff (hv : i.sAxisTvalid = true) :
    l.heeds cfg i = true ↔
      i.sAxisTlast = true ∧ (¬ Admitted cfg l.frame ∨ 14 ≤ l.frame.length) := by
  rw [heeds, hv, Bool.true_and, Bool.and_eq_true, decide_eq_true_iff, resyncs_concat]

theorem Parses.idle_iff (h : Parses cfg s f) : s.deframerState = .idle ↔ f = [] := by
  constructor
  · intro hidle
    rw [h.state, stateAfter] at hidle
    split at hidle
    · by_contra hf
      have hpos := List.length_pos_of_ne_nil hf
      by_cases hlen : 14 ≤ f.length
      · simp [stateAt_of_le hlen] at hidle
      · generalize f.length = n at *
        interval_cases n <;> cases hidle
    · cases hidle
  · rintro rfl
    exact parses_nil_iff.mp h

/-- A fragment that ends in the header is continued. -/
theorem Parses.step_open (h : Parses cfg s f) (hi : Steady cfg s i) (hv : i.sAxisTvalid = true)
    (hopen : ¬ (i.sAxisTlast = true ∧ (¬ Admitted cfg f ∨ 14 ≤ f.length))) :
    Parses cfg (EthernetDeframer.step s i) (f ++ [i.sAxisTdata]) := by
  cases hl : i.sAxisTlast with
  | false => exact h.step hi hv hl
  | true =>
    have hnot : ¬ (s.deframerState = .payloadAndFcs ∨ s.deframerState = .discard) :=
      fun hlooks => hopen ⟨hl, h.looks_iff.mp hlooks⟩
    rw [not_or] at hnot
    have hgo := h.step (i := { i with sAxisTlast := false }) hi hv rfl
    have hadvance : advance s i = advance s { i with sAxisTlast := false } := by
      unfold advance
      cases hs : s.deframerState with
      | payloadAndFcs => exact absurd hs hnot.1
      | discard => exact absurd hs hnot.2
      | _ => rfl
    refine ⟨?_, ?_, ?_⟩
    · simpa [EthernetDeframer.step, hadvance] using hgo.state
    · simpa [EthernetDeframer.step] using hgo.dst
    · simpa [EthernetDeframer.step] using hgo.src

theorem Tracks.parses_step (h : Tracks cfg s l) (hi : Steady cfg s i) :
    Parses cfg (step s i) (l.step cfg i).frame := by
  cases hv : i.sAxisTvalid with
  | false => simpa [Track.step, Track.heeds, hv] using h.toParses.step_quiet hi hv
  | true =>
    have hiff : l.heeds cfg i = true ↔ _ := Track.heeds_iff hv
    by_cases hh : l.heeds cfg i = true
    · have hl := (hiff.mp hh).1
      have hidle := (h.toParses.step_last_iff hi hv hl).mpr (resyncs_concat.mpr (hiff.mp hh).2)
      simpa [Track.step, hh] using parses_nil_iff.mpr hidle
    · simpa [Track.step, hh, hv] using h.toParses.step_open hi hv (mt hiff.mpr hh)

theorem Tracks.fcsReset_step (h : Tracks cfg s l) :
    (step s i).fcsReset = l.heeds cfg i := by
  rw [Bool.eq_iff_iff]
  cases hv : i.sAxisTvalid with
  | false => simp [EthernetDeframer.step, deframes, drops, Track.heeds, hv]
  | true =>
    rw [Track.heeds_iff hv, ← h.toParses.looks_iff]
    cases hl : i.sAxisTlast <;> simp [EthernetDeframer.step, deframes, drops, hv, hl]

theorem Tracks.drops_eq (h : Tracks cfg s l) :
    drops s i = (l.heeds cfg i && !decide (Matches cfg l.frame)) := by
  rw [Bool.eq_iff_iff]
  cases hv : i.sAxisTvalid with
  | false => simp [drops, Track.heeds, hv]
  | true =>
    have hiff : l.heeds cfg i = true ↔ _ := Track.heeds_iff hv
    have hdiscard := h.toParses.discard_iff
    rw [Bool.and_eq_true, hiff, Bool.not_eq_true', decide_eq_false_iff_not, matches_iff, drops, hv,
      Bool.true_and, Bool.and_eq_true, beq_iff_eq, hdiscard]
    by_cases ha : Admitted cfg l.frame
    · simp only [ha, not_true_eq_false, false_and, and_true, false_or, false_iff]
      exact fun h => h.2 h.1.2
    · simp [ha]

/-- The CRC goes on from where it was, but for the cycle after a frame. -/
theorem Tracks.crcReg_step (h : Tracks cfg s l) (hreset : i.reset = false) :
    (step s i).fcs.crcReg = circuitRegister (l.step cfg i).crc := by
  cases he : l.ended with
  | true =>
    simp [EthernetDeframer.step, EthernetFcs.step, h.fcsReset, he, Track.step, circuitRegister_nil]
  | false =>
    cases hv : i.sAxisTvalid with
    | false =>
      simpa [EthernetDeframer.step, EthernetFcs.step, h.fcsReset, he, hreset, Track.step, hv]
        using h.crcReg
    | true =>
      simp [EthernetDeframer.step, EthernetFcs.step, h.fcsReset, he, hreset, Track.step, hv,
        crcNext_circuitRegister h.crcReg]

theorem payloadAndFcs_nil : payloadAndFcs cfg [] = [] := by simp [payloadAndFcs]

/-- The delay line holds the last four of the bytes that have gone into it. -/
theorem Tracks.holds_step (h : Tracks cfg s l) :
    CircularBuffer.Holds (step s i).fifo ((l.delayed cfg).rtake 4) := by
  rcases h.delay with ⟨hp, hframe, hold⟩ | ⟨hp, q, hq, hfifo⟩
  · have hnil : l.delayed cfg = [] := by
      rw [Track.delayed, hframe, hold, payloadAndFcs_nil, List.append_nil]
    rw [hnil]
    exact CircularBuffer.holds_step_sreset hp
  · rw [← hq]
    exact EthernetDeframer.holds_step hfifo hp

theorem Tracks.held_step (h : Tracks cfg s l) (hreset : i.reset = false) :
    held (step s i) =
      if i.sAxisTvalid = true ∧ Matches cfg l.frame then [i.sAxisTdata] else [] := by
  cases hv : i.sAxisTvalid with
  | false => simp [held, EthernetDeframer.step, deframes, hv]
  | true =>
    have hd := h.toParses.deframes_eq (i := i) hv
    by_cases hm : Matches cfg l.frame <;> simp [held, EthernetDeframer.step, hreset, hd, hm]

theorem Tracks.payloadFinished_step (h : Tracks cfg s l) (hreset : i.reset = false) :
    (step s i).payloadFinished = if i.sAxisTvalid then
      decide (Matches cfg l.frame) && i.sAxisTlast else s.payloadFinished := by
  cases hv : i.sAxisTvalid with
  | false => simp [EthernetDeframer.step, deframes, hreset, hv]
  | true =>
    have hd := h.toParses.deframes_eq (i := i) hv
    by_cases hf : l.frame = []
    · have hidle : s.deframerState = .idle := h.toParses.idle_iff.mpr hf
      have hm : ¬ Matches cfg l.frame := by
        rw [← h.toParses.payload_iff, hidle]
        simp
      simp [EthernetDeframer.step, hreset, hv, hidle, hm]
    · have hp : s.payloadFinished = false := by
        rcases h.delay with ⟨-, hframe, -⟩ | ⟨hp, -⟩
        · exact absurd hframe hf
        · exact hp
      have hidle : s.deframerState ≠ .idle := mt h.toParses.idle_iff.mp hf
      simp [EthernetDeframer.step, hreset, hv, hidle, hd, hp]

theorem Tracks.delay_step (h : Tracks cfg s l) (hreset : i.reset = false) :
    ((step s i).payloadFinished = true ∧ (l.step cfg i).frame = [] ∧ (l.step cfg i).old = []) ∨
      ((step s i).payloadFinished = false ∧ ∃ q, q ++ held (step s i) = (l.step cfg i).delayed cfg ∧
        CircularBuffer.Holds (step s i).fifo (q.rtake 4)) := by
  have hfinished := h.payloadFinished_step (i := i) hreset
  have hheld := h.held_step (i := i) hreset
  have hholds := h.holds_step (i := i)
  cases hv : i.sAxisTvalid with
  | false =>
    have hkeep : (l.step cfg i).frame = l.frame ∧ (l.step cfg i).old = l.old := by
      simp [Track.step, Track.heeds, hv]
    rw [hv, if_neg (by simp)] at hfinished
    rw [hfinished, hheld, Track.delayed, hkeep.1, hkeep.2, if_neg (by simp [hv])]
    rcases h.delay with ⟨hp, hframe, hold⟩ | ⟨hp, -⟩
    · exact .inl ⟨hp, hframe, hold⟩
    · exact .inr ⟨hp, l.delayed cfg, List.append_nil _, hholds⟩
  | true =>
    have hiff : l.heeds cfg i = true ↔ _ := Track.heeds_iff hv
    rw [hv, if_pos rfl] at hfinished
    by_cases hm : Matches cfg l.frame
    · obtain ⟨hlen, hadm⟩ := matches_iff.mp hm
      cases hl : i.sAxisTlast with
      | true =>
        have hh : l.heeds cfg i = true := hiff.mpr ⟨hl, .inr hlen⟩
        exact .inl (by simp [hfinished, hm, hl, Track.step, hh])
      | false =>
        have hh : l.heeds cfg i = false := by simp [Track.heeds, hl]
        refine .inr ⟨by simp [hfinished, hl], l.delayed cfg, ?_, hholds⟩
        rw [hheld, if_pos ⟨hv, hm⟩, Track.delayed, Track.delayed]
        simp [Track.step, hh, hv, payloadAndFcs_append, hm]
    · refine .inr ⟨by simp [hfinished, hm], l.delayed cfg, ?_, hholds⟩
      rw [hheld, if_neg (by simp [hm]), List.append_nil, Track.delayed, Track.delayed]
      have hnone : payloadAndFcs cfg l.frame = [] := if_neg hm
      by_cases hh : l.heeds cfg i = true
      · simp [Track.step, hh, hm, hnone, payloadAndFcs_nil]
      · simp [Track.step, hh, hv, payloadAndFcs_append, hm, hnone]

/-- What leaves the delay line after a cycle. -/
theorem Tracks.leaving_step (h : Tracks cfg s l) (hi : Steady cfg s i) :
    leaving (step s i) = l.emit cfg i := by
  have hvalid : (step s i).deframedTvalidR1 = true ↔
      i.sAxisTvalid = true ∧ Matches cfg l.frame := by
    cases hv : i.sAxisTvalid with
    | false => simp [EthernetDeframer.step, deframes, hv]
    | true => simp [EthernetDeframer.step, hi.1, h.toParses.deframes_eq hv]
  rw [leaving_eq h.holds_step, Track.emit]
  by_cases hp : i.sAxisTvalid = true ∧ Matches cfg l.frame ∧ 4 ≤ (l.delayed cfg).length
  · obtain ⟨hv, hm, hlen⟩ := hp
    have hended : l.ended = false := by
      by_contra he
      have hframe := h.ended (by simpa using he)
      have := (matches_iff.mp hm).1
      simp [hframe] at this
    have hcrc : (l.step cfg i).crc = l.crc ++ [i.sAxisTdata] := by simp [Track.step, hended, hv]
    have hmatches : fcsMatches (step s i) =
        decide (circuitRegister (l.crc ++ [i.sAxisTdata]) = crcVerify) := by
      rw [fcsMatches, verifyOut, h.crcReg_step hi.1, hcrc]
      rfl
    rw [if_pos ⟨hvalid.mpr ⟨hv, hm⟩, hlen⟩, if_pos ⟨hv, hm, hlen⟩, h.payloadFinished_step hi.1,
      hmatches]
    simp [hv, hm]
  · rw [if_neg fun h => hp ⟨(hvalid.mp h.1).1, (hvalid.mp h.1).2, h.2⟩, if_neg hp]

/-- **One cycle**: the circuit does what the line says. -/
theorem Tracks.step (h : Tracks cfg s l) (hi : Steady cfg s i) :
    Tracks cfg (step s i) (l.step cfg i) := by
  refine ⟨h.parses_step hi, h.fcsReset_step, h.crcReg_step hi.1, fun he => ?_, h.delay_step hi.1⟩
  have hh : l.heeds cfg i = true := he
  simp [Track.step, hh]

end Cycle

/-! ## Every run -/

section Runs

variable {cfg : Config} {s : State} {l : Track} {is : List Inputs}

/-- **Every run**: the beats that leave the delay line are shown one cycle later, in order. -/
theorem Tracks.shown_run (h : Tracks cfg s l)
    (hsteady : Always EthernetDeframer.step (Steady cfg) s is) :
    output s ++ leaving s ++ collect (Track.step cfg) (Track.emit cfg) l is =
      collect EthernetDeframer.step shown s is ++ (output (run EthernetDeframer.step s is) ++
        leaving (run EthernetDeframer.step s is)) := by
  induction is generalizing s l with
  | nil => simp
  | cons i is ih =>
    have hnext := ih (h.step hsteady.1) hsteady.2
    have hout : output (EthernetDeframer.step s i) = leaving s := output_step hsteady.1.1
    rw [hout, h.leaving_step hsteady.1] at hnext
    rw [collect_cons, collect_cons, run_cons, List.append_assoc (shown s i), ← hnext, shown]
    simp only [List.append_assoc]

/-- The drop counter counts the frames that are dropped. -/
theorem Tracks.dropped_run (h : Tracks cfg s l)
    (hsteady : Always EthernetDeframer.step (Steady cfg) s is) :
    (run EthernetDeframer.step s is).droppedPacketCountU = s.droppedPacketCountU +
      BitVec.ofNat 16 (collect (Track.step cfg) (Track.drop cfg) l is).length := by
  induction is generalizing s l with
  | nil => simp
  | cons i is ih =>
    have hcount : (EthernetDeframer.step s i).droppedPacketCountU =
        s.droppedPacketCountU + BitVec.ofNat 16 (l.drop cfg i).length := by
      have hd := h.drops_eq (i := i)
      cases hdrop : l.heeds cfg i && !decide (Matches cfg l.frame) <;> rw [hdrop] at hd <;>
        simp [EthernetDeframer.step, hsteady.1.1, hd, Track.drop, hdrop]
    rw [run_cons, ih (h.step hsteady.1) hsteady.2, hcount, collect_cons, List.length_append,
      BitVec.ofNat_add, BitVec.add_assoc]

/-- **What a reset leaves over**: the delay line is cleared with `payload_finished` only, and the
end of a frame in the cycle of the reset clears the CRC once more. -/
theorem tracks_reset (cfg : Config) {i : Inputs} {q : List Byte}
    (hfifo : CircularBuffer.Holds s.fifo q) (hi : i.reset = true) :
    Tracks cfg (step s i) ⟨[], [], if s.payloadFinished then [] else q ++ held s,
      deframes s i && i.sAxisTlast || drops s i⟩ := by
  have hidle : (step s i).deframerState = .idle := by simp [step, hi]
  have hparses : Parses cfg (step s i) [] := parses_nil_iff.mpr hidle
  have hheld : held (step s i) = [] := by simp [held, step, hi]
  refine ⟨hparses, rfl, ?_, fun _ => rfl, .inr ⟨by simp [step, hi], _, ?_, holds_next hfifo i⟩⟩
  · simp [step, hi, EthernetFcs.step, circuitRegister_nil]
  · rw [hheld, Track.delayed, payloadAndFcs_nil]

/-- After the reset that follows power-up nothing is left over. -/
theorem tracks_afterReset (cfg : Config) (h : AfterReset s) :
    Tracks cfg s ⟨[], [], [], false⟩ ∧ output s = [] ∧ leaving s = [] := by
  obtain ⟨s₀, i, hp, hi, rfl⟩ := h
  have htracks := tracks_reset cfg hp.holds_nil hi
  have hheld : held s₀ = [] := by simp [held, hp.deframedTvalidR1]
  have hended : (deframes s₀ i && i.sAxisTlast || drops s₀ i) = false := by
    simp [deframes, drops, hp.deframerState]
  rw [hended, hheld, hp.payloadFinished] at htracks
  exact ⟨htracks, output_reset hi⟩

end Runs

end RmiiEthernet.EthernetDeframer
