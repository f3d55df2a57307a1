import RmiiEthernet.Ethernet.Timing

/-!
# What is left over at the Ethernet deframer

Bytes that `ethernet_deframer` should forget can still be in two of its registers. While it is
disabled the state machine rests, but the CRC goes on over every byte that comes by; and a reset
clears the CRC, but not the delay line, and not the register that clears the CRC once more.

* `ignored_iff` says when frames that came by while the deframer was disabled show in what comes of
  the ones after them: only the first frame is judged wrongly.
* `reset_iff` says after which cycles a reset makes the deframer as new.
-/

namespace RmiiEthernet.EthernetDeframer

open Sync EthernetFcs EthernetFrame

/-! ## Traffic while the deframer is disabled -/

section Ignored

variable {cfg : Config} {s : State} {i : Inputs} {is js : List Inputs} {m f : List Byte}
  {t u : Track}

/-- No reset, disabled. -/
def Disabled (_ : State) (i : Inputs) : Prop := i.reset = false ∧ i.enableIn = false

instance (s : State) (i : Inputs) : Decidable (Disabled s i) := inferInstanceAs (Decidable (_ ∧ _))

/-- The first frame of a stream as the machine cuts it: a fragment that ends in the header is joined
with what comes after it. -/
def firstFrame (cfg : Config) : List Byte → List (Byte × Bool) → Option (List Byte)
  | _, [] => none
  | f, b :: bs =>
    if b.2 = true ∧ Resyncs cfg (f ++ [b.1]) then some (f ++ [b.1])
    else firstFrame cfg (f ++ [b.1]) bs

theorem not_resyncs_singleton (b : Byte) : ¬ Resyncs cfg [b] := by simp [Resyncs]

theorem payloadAndFcs_singleton (b : Byte) : payloadAndFcs cfg [b] = [] := by
  have happend : payloadAndFcs cfg ([] ++ [b]) = _ := payloadAndFcs_append b
  rwa [payloadAndFcs_nil, if_neg not_matches_nil] at happend

/-- A byte that is ignored goes into the CRC, and nowhere else. -/
theorem Tracks.step_disabled (h : Tracks cfg s ⟨[], m, [], false⟩) (hreset : i.reset = false)
    (henable : i.enableIn = false ∨ i.sAxisTvalid = false) :
    Tracks cfg (EthernetDeframer.step s i) ⟨[], m ++ (arrived s i).map Prod.fst, [], false⟩ ∧
      leaving (EthernetDeframer.step s i) = [] ∧
      (EthernetDeframer.step s i).droppedPacketCountU = s.droppedPacketCountU := by
  have hidle : s.deframerState = .idle := h.toParses.idle_iff.mpr rfl
  have hheeds : Track.heeds cfg ⟨[], m, [], false⟩ i = false := by
    simp [Track.heeds, not_resyncs_singleton]
  have hcrc := h.crcReg_step hreset
  have hdelay := h.delay_step hreset
  refine ⟨⟨parses_nil_iff.mpr ?_, ?_, ?_, fun _ => rfl, ?_⟩, ?_, ?_⟩
  · rcases henable with hen | hv
    · simp [EthernetDeframer.step, hreset, advance, hidle, hen]
    · simp [EthernetDeframer.step, hreset, hidle, hv]
  · rw [h.fcsReset_step, hheeds]
  · rw [hcrc]
    cases hv : i.sAxisTvalid <;> simp [Track.step, arrived, hv]
  · have hdelayed : (Track.step cfg ⟨[], m, [], false⟩ i).delayed cfg = [] := by
      cases hv : i.sAxisTvalid <;>
        simp [Track.step, hheeds, hv, Track.delayed, payloadAndFcs_nil, payloadAndFcs_singleton]
    have hnil : Track.delayed cfg ⟨[], m ++ (arrived s i).map Prod.fst, [], false⟩ = [] := by
      rw [Track.delayed, payloadAndFcs_nil, List.nil_append]
    rw [hnil]
    rcases hdelay with ⟨hp, -, -⟩ | ⟨hp, q, hq, hfifo⟩
    · exact .inl ⟨hp, rfl, rfl⟩
    · exact .inr ⟨hp, q, hq.trans hdelayed, hfifo⟩
  · simp [leaving, deframedTvalidR6, EthernetDeframer.step, deframes, hidle]
  · simp [EthernetDeframer.step, drops, hidle, hreset]

theorem Tracks.run_disabled (h : Tracks cfg s ⟨[], m, [], false⟩) (hleaving : leaving s = [])
    (his : Always EthernetDeframer.step Disabled s is) :
    Tracks cfg (run EthernetDeframer.step s is)
        ⟨[], m ++ (collect EthernetDeframer.step arrived s is).map Prod.fst, [], false⟩ ∧
      leaving (run EthernetDeframer.step s is) = [] ∧
      (run EthernetDeframer.step s is).droppedPacketCountU = s.droppedPacketCountU := by
  induction is generalizing s m with
  | nil => exact ⟨by simpa using h, hleaving, rfl⟩
  | cons i is ih =>
    obtain ⟨hstep, hleaving', hdropped⟩ := h.step_disabled his.1.1 (.inl his.1.2)
    obtain ⟨h₁, h₂, h₃⟩ := ih hstep hleaving' his.2
    rw [collect_cons, List.map_append, ← List.append_assoc]
    exact ⟨h₁, h₂, h₃.trans hdropped⟩

/-- The cycle after a frame leaves nothing over in the CRC. -/
theorem collect_emit_of_ended (cfg : Config) (ht : t.ended = true) (hu : u.ended = true)
    (htf : t.frame = []) (hframe : t.frame = u.frame) (hold : t.old = u.old) (js : List Inputs) :
    collect (Track.step cfg) (Track.emit cfg) t js =
        collect (Track.step cfg) (Track.emit cfg) u js ∧
      collect (Track.step cfg) (Track.drop cfg) t js =
        collect (Track.step cfg) (Track.drop cfg) u js := by
  cases js with
  | nil => exact ⟨rfl, rfl⟩
  | cons j js =>
    have huf : u.frame = [] := hframe ▸ htf
    have hstep : t.step cfg j = u.step cfg j := by
      simp [Track.step, Track.heeds, ht, hu, htf, huf, hold]
    rw [collect_cons, collect_cons, collect_cons, collect_cons, hstep]
    simp [Track.emit, Track.drop, Track.heeds, htf, huf, not_matches_nil]

/-- Bytes in front of a frame change the verdict on it exactly if they change the CRC and the check
sequence is right with them or without them. -/
theorem checked_append_iff (hf : 4 ≤ f.length) :
    (Checked (m ++ f) ↔ Checked f) ↔
      circuitRegister m = crcInitVal ∨ ¬ (Checked f ∨ Checked (m ++ f)) := by
  by_cases hm : circuitRegister m = crcInitVal
  · have hsame : circuitRegister (m ++ f) = circuitRegister f :=
      (circuitRegister_append_inj m [] f).mpr (hm.trans circuitRegister_nil.symm)
    have hiff : Checked (m ++ f) ↔ Checked f := by
      rw [← circuitRegister_eq_crcVerify_iff hf,
        ← circuitRegister_eq_crcVerify_iff (by simp; omega), hsame]
    exact iff_of_true hiff (.inl hm)
  · have hnot : Checked f → ¬ Checked (m ++ f) := not_checked_append hm hf
    tauto

/-- The verdict on a frame is shown with the last byte of its payload. -/
theorem emit_eq_iff (hv : i.sAxisTvalid = true) (hl : i.sAxisTlast = true) :
    Track.emit cfg ⟨f, m ++ f, [], false⟩ i = Track.emit cfg ⟨f, f, [], false⟩ i ↔
      (Matches cfg (f ++ [i.sAxisTdata]) → 19 ≤ (f ++ [i.sAxisTdata]).length →
        (Checked (m ++ f ++ [i.sAxisTdata]) ↔ Checked (f ++ [i.sAxisTdata]))) := by
  have hdelayed : ∀ c, Track.delayed cfg ⟨f, c, [], false⟩ = payloadAndFcs cfg f := fun _ => rfl
  rw [Track.emit, Track.emit, hdelayed, hdelayed]
  by_cases hp : Matches cfg f ∧ 18 ≤ f.length
  · obtain ⟨hm, hlen⟩ := hp
    have hlength : 4 ≤ (payloadAndFcs cfg f).length := by
      rw [payloadAndFcs, if_pos hm, List.length_drop]
      omega
    have hm' : Matches cfg (f ++ [i.sAxisTdata]) := (matches_append (by omega)).mpr hm
    have hchecked := circuitRegister_eq_crcVerify_iff (f := f ++ [i.sAxisTdata])
      (by simp; omega)
    have hchecked' := circuitRegister_eq_crcVerify_iff (f := m ++ f ++ [i.sAxisTdata])
      (by simp; omega)
    rw [if_pos ⟨hv, hm, hlength⟩, if_pos ⟨hv, hm, hlength⟩, ← hchecked, ← hchecked']
    simp [hl, hm', hlen]
  · have hnone : ¬ (i.sAxisTvalid = true ∧ Matches cfg f ∧ 4 ≤ (payloadAndFcs cfg f).length) := by
      rintro ⟨-, hm, hlength⟩
      rw [payloadAndFcs, if_pos hm, List.length_drop] at hlength
      exact hp ⟨hm, by omega⟩
    rw [if_neg hnone, if_neg hnone, List.length_append, List.length_singleton]
    refine iff_of_true rfl fun hm hlen => absurd ⟨?_, by omega⟩ hp
    exact (matches_append (by omega)).mp hm

/-- **Two lines that differ in the CRC**: what comes of the frames from now on is the same exactly
if the verdict on the first one is. -/
theorem collect_emit_eq_iff (cfg : Config) (m f : List Byte) (s : State) (js : List Inputs) :
    (collect (Track.step cfg) (Track.emit cfg) ⟨f, m ++ f, [], false⟩ js =
        collect (Track.step cfg) (Track.emit cfg) ⟨f, f, [], false⟩ js ↔
      ∀ g, firstFrame cfg f (collect step arrived s js) = some g → Matches cfg g → 19 ≤ g.length →
        (Checked (m ++ g) ↔ Checked g)) ∧
    collect (Track.step cfg) (Track.drop cfg) ⟨f, m ++ f, [], false⟩ js =
      collect (Track.step cfg) (Track.drop cfg) ⟨f, f, [], false⟩ js := by
  induction js generalizing f s with
  | nil => simp [firstFrame]
  | cons j js ih =>
    cases hv : j.sAxisTvalid with
    | false =>
      have hquiet : ∀ c, Track.step cfg ⟨f, c, [], false⟩ j = ⟨f, c, [], false⟩ := by
        intro c
        simp [Track.step, Track.heeds, hv]
      simpa [hquiet, Track.emit, Track.drop, Track.heeds, arrived, hv] using ih f (step s j)
    | true =>
      have harrived : arrived s j = [(j.sAxisTdata, j.sAxisTlast)] := by simp [arrived, hv]
      simp only [collect_cons, harrived, List.singleton_append, firstFrame]
      by_cases hend : j.sAxisTlast = true ∧ Resyncs cfg (f ++ [j.sAxisTdata])
      · have hstep : ∀ c, Track.step cfg ⟨f, c, [], false⟩ j =
            ⟨[], c ++ [j.sAxisTdata], [], true⟩ := by
          intro c
          simp [Track.step, Track.heeds, hv, hend]
        obtain ⟨hrest, hrest'⟩ := collect_emit_of_ended cfg
          (t := ⟨[], m ++ f ++ [j.sAxisTdata], [], true⟩) (u := ⟨[], f ++ [j.sAxisTdata], [], true⟩)
          rfl rfl rfl rfl rfl js
        rw [hstep, hstep, hrest, hrest', if_pos hend, List.append_cancel_right_eq]
        refine ⟨?_, rfl⟩
        rw [emit_eq_iff hv hend.1]
        constructor
        · rintro h g hg
          obtain rfl := Option.some.inj hg
          rwa [List.append_assoc] at h
        · intro h
          rw [List.append_assoc]
          exact h _ rfl
      · have hstep : ∀ c, Track.step cfg ⟨f, c, [], false⟩ j =
            ⟨f ++ [j.sAxisTdata], c ++ [j.sAxisTdata], [], false⟩ := by
          intro c
          have hheeds : Track.heeds cfg ⟨f, c, [], false⟩ j = false := by
            simpa [Track.heeds, hv] using hend
          simp [Track.step, hheeds, hv]
        have hemit : Track.emit cfg ⟨f, m ++ f, [], false⟩ j =
            Track.emit cfg ⟨f, f, [], false⟩ j := by
          unfold Track.emit
          by_cases hm : Matches cfg f
          · have hlast : j.sAxisTlast = false := by
              by_contra hl
              exact hend ⟨by simpa using hl,
                resyncs_concat.mpr (.inr (matches_iff.mp hm).1)⟩
            simp [hlast, Track.delayed]
          · simp [hm]
        have hnext := ih (f ++ [j.sAxisTdata]) (step s j)
        rw [← List.append_assoc] at hnext
        rw [hstep, hstep, hemit, if_neg hend, List.append_cancel_left_eq]
        refine ⟨hnext.1, ?_⟩
        rw [hnext.2]
        rfl

/-- **When ignored traffic leaves no trace**: frames that come by after reset while the deframer is
disabled do not show in what comes of the ones after them, exactly if they leave the CRC as it was,
or the first frame the deframer takes is not passed, or its check sequence is neither right for the
frame nor for all that came by with it. -/
theorem ignored_iff (cfg : Config) {s : State} {is js : List Inputs} {i : Inputs}
    (hs : AfterReset s) (his : Always step Disabled s is) (hi : i.reset = false)
    (hv : i.sAxisTvalid = false) (hsteady : ∀ j ∈ js, Steady cfg s j) (hend : Settled js) :
    let m := (collect step arrived s is).map Prod.fst
    (collect step shown (run step s (is ++ [i])) js = collect step shown s js ∧
      (run step (run step s (is ++ [i])) js).droppedPacketCountU =
        (run step s js).droppedPacketCountU) ↔
    circuitRegister m = crcInitVal ∨ ∀ g, firstFrame cfg [] (collect step arrived s js) = some g →
      Matches cfg g → 19 ≤ g.length → ¬ (Checked g ∨ Checked (m ++ g)) := by
  intro m
  obtain ⟨htracks, hout, hleaving⟩ := tracks_afterReset cfg hs
  obtain ⟨hrun, hleaving₁, hdropped₁⟩ := htracks.run_disabled hleaving his
  obtain ⟨hlast, hleaving₂, hdropped₂⟩ := hrun.step_disabled (i := i) hi (.inr hv)
  have hnone : arrived (run step s is) i = [] := by simp [arrived, hv]
  have hrun₂ : step (run step s is) i = run step s (is ++ [i]) := (run_concat s is i).symm
  rw [hnone, List.map_nil, List.append_nil, List.nil_append, hrun₂] at hlast
  rw [hrun₂] at hleaving₂ hdropped₂
  have hout₂ : output (run step s (is ++ [i])) = [] := by
    rw [run_concat, output_step hi, hleaving₁]
  have halways : ∀ x, Always step (Steady cfg) x js := fun x => always_of_forall hsteady x
  obtain ⟨hemit, hdrop⟩ := collect_emit_eq_iff cfg m [] s js
  rw [List.append_nil] at hemit hdrop
  rw [hlast.shown_settled hout₂ hleaving₂ (halways _) hend,
    htracks.shown_settled hout hleaving (halways _) hend, hlast.dropped_run (halways _),
    htracks.dropped_run (halways _), hdropped₂, hdropped₁, hdrop, and_iff_left rfl, hemit]
  by_cases hm : circuitRegister m = crcInitVal
  · refine iff_of_true (fun g _ _ hg => ?_) (.inl hm)
    exact (checked_append_iff (by omega)).mpr (.inl hm)
  · rw [or_iff_right hm]
    refine forall_congr' fun g => imp_congr_right fun _ => imp_congr_right fun _ =>
      forall_congr' fun hg => ?_
    rw [checked_append_iff (by omega), or_iff_right hm]

/-- The inputs of a cycle while the deframer is disabled. -/
def presentedOff (b : Option (Byte × Bool)) : Inputs := { presented b with enableIn := false }

/-- A frame, and two cycles in which nothing arrives. -/
def benchFollow : List Inputs := ((beats benchFrame).map some ++ [none, none]).map presented

/-- A frame is ignored, and a damaged and a good one follow. -/
theorem ignored_iff_damaged :
    let is := ((beats benchFrame).map some).map presentedOff
    let js := ((beats (benchFrame.dropLast ++ [0x00])).map some ++ [none] ++
      (beats benchFrame).map some ++ [none, none]).map presented
    collect step shown (run step cleared (is ++ [presentedOff none])) js =
        collect step shown cleared js ∧
      (run step (run step cleared (is ++ [presentedOff none])) js).droppedPacketCountU =
        (run step cleared js).droppedPacketCountU :=
  (ignored_iff ⟨false, 0, 0x0A0B0C0D0E0F⟩ cleared_afterReset (by decide +kernel) rfl rfl
    (steady_presented _ _) (settled_presented _)).mpr
    (.inr fun g hg _ _ => by
      have hfirst : some (benchFrame.dropLast ++ [0x00]) = some g :=
        (show _ = firstFrame _ _ _ by decide +kernel).trans hg
      obtain rfl := Option.some.inj hfirst
      decide +kernel)

/-- A good frame after a frame that has been ignored is marked bad. -/
theorem not_ignored :
    ¬ ∀ (cfg : Config) (s : State) (is js : List Inputs) (i : Inputs), AfterReset s →
      Always step Disabled s is → openPacket (collect step arrived s is) = [] →
      i.reset = false → i.sAxisTvalid = false → (∀ j ∈ js, Steady cfg s j) → Settled js →
      collect step shown (run step s (is ++ [i])) js = collect step shown s js ∧
        (run step (run step s (is ++ [i])) js).droppedPacketCountU =
          (run step s js).droppedPacketCountU := by
  intro h
  have hshown := (h ⟨false, 0, 0x0A0B0C0D0E0F⟩ cleared
    ((beats benchFrame).map (presentedOff ∘ some)) benchFollow (presentedOff none)
    cleared_afterReset (by decide +kernel) (by decide +kernel) rfl rfl
    (steady_presented _ _) (settled_presented _)).1
  revert hshown
  decide +kernel

end Ignored

/-! ## Reset -/

section Reset

variable {s t : State} {i : Inputs} {is js : List Inputs}

/-- In every reachable state the delay line is in order. -/
theorem exists_holds_run (hs : PowerUp s) (is : List Inputs) :
    ∃ q, CircularBuffer.Holds (run step s is).fifo q := by
  have hstep : ∀ s i, (∃ q, CircularBuffer.Holds s.fifo q) → True →
      ∃ q, CircularBuffer.Holds (step s i).fifo q := by
    rintro s i ⟨q, hq⟩ -
    exact ⟨_, holds_next hq i⟩
  exact run_invariant hstep ⟨[], hs.holds_nil⟩ (always_of_forall (P := fun _ => True) (by simp) s)

/-- **Two states that no input tells apart.** The bytes stand in different rows of the delay line,
and the output register may differ while it is empty. -/
structure Twins (s t : State) : Prop where
  deframerState : s.deframerState = t.deframerState
  fcsReset : s.fcsReset = t.fcsReset
  crcReg : s.fcs.crcReg = t.fcs.crcReg
  srcMac : s.srcMac = t.srcMac
  dstMac : s.dstMac = t.dstMac
  payloadFinished : s.payloadFinished = t.payloadFinished
  dropped : s.droppedPacketCountU = t.droppedPacketCountU
  tdata : s.deframedTdataR1 = t.deframedTdataR1
  tvalid : s.deframedTvalidR1 = t.deframedTvalidR1
  fifo : ∃ q, CircularBuffer.Holds s.fifo q ∧ CircularBuffer.Holds t.fifo q
  output : output s = output t

theorem Twins.leaving_eq (h : Twins s t) : leaving s = leaving t := by
  obtain ⟨q, hs, ht⟩ := h.fifo
  have hfour : q.rtake 4 = q := rtake_of_le (show q.length ≤ 4 from hs.fits)
  rw [EthernetDeframer.leaving_eq (hfour ▸ hs), EthernetDeframer.leaving_eq (hfour ▸ ht),
    fcsMatches, fcsMatches, verifyOut, verifyOut, h.tvalid, h.payloadFinished, h.crcReg]

/-- **One cycle**, whatever the inputs are. -/
theorem Twins.step (h : Twins s t) (i : Inputs) : Twins (step s i) (step t i) := by
  have hadvance : advance s i = advance t i := by
    unfold advance dstMacMatch srcMacMatch
    rw [h.deframerState, h.dstMac, h.srcMac]
  have hdeframes : deframes s i = deframes t i := by rw [deframes, deframes, h.deframerState]
  have hdrops : drops s i = drops t i := by rw [drops, drops, h.deframerState]
  refine ⟨?_, ?_, ?_, ?_, ?_, ?_, ?_, ?_, ?_, ?_, ?_⟩
  · simp only [EthernetDeframer.step, hadvance, h.deframerState]
  · simp only [EthernetDeframer.step, hdeframes, hdrops]
  · simp only [EthernetDeframer.step, EthernetFcs.step, EthernetFcs.State.crcNext, h.fcsReset]
    split_ifs <;> simp [h.crcReg]
  · simp only [EthernetDeframer.step, h.srcMac, h.deframerState]
  · simp only [EthernetDeframer.step, h.dstMac, h.deframerState]
  · simp only [EthernetDeframer.step, h.payloadFinished, h.deframerState, hdeframes]
  · simp only [EthernetDeframer.step, h.dropped, hdrops]
  · simp only [EthernetDeframer.step, hdeframes]
  · simp only [EthernetDeframer.step, hdeframes]
  · obtain ⟨q, hs, ht⟩ := h.fifo
    have hheld : held s = held t := by rw [held, held, h.tvalid, h.tdata]
    have ht' := holds_next ht i
    rw [← hheld, ← h.payloadFinished] at ht'
    exact ⟨_, holds_next hs i, ht'⟩
  · cases hi : i.reset with
    | true => simp [EthernetDeframer.output, EthernetDeframer.step, hi]
    | false => rw [output_step hi, output_step hi, h.leaving_eq]

theorem Twins.run (h : Twins s t) (js : List Inputs) :
    collect EthernetDeframer.step shown s js = collect EthernetDeframer.step shown t js ∧
      (run EthernetDeframer.step s js).droppedPacketCountU =
        (run EthernetDeframer.step t js).droppedPacketCountU := by
  induction js generalizing s t with
  | nil => exact ⟨rfl, h.dropped⟩
  | cons j js ih =>
    obtain ⟨h₁, h₂⟩ := ih (h.step j)
    rw [collect_cons, collect_cons, h₁, shown, shown, h.output]
    exact ⟨rfl, h₂⟩

/-- The reset comes when the delay line is empty or about to be cleared, and not in the cycle of the
last byte of a frame. -/
def Cleans (s : State) (i : Inputs) : Prop :=
  (s.payloadFinished = true ∨ s.fifo.emptySig = true ∧ s.deframedTvalidR1 = false) ∧
    ¬ (i.sAxisTvalid = true ∧ i.sAxisTlast = true ∧
      (s.deframerState = .payloadAndFcs ∨ s.deframerState = .discard))

instance (s : State) (i : Inputs) : Decidable (Cleans s i) := inferInstanceAs (Decidable (_ ∧ _))

theorem ends_iff : (deframes s i && i.sAxisTlast || drops s i) = true ↔
    i.sAxisTvalid = true ∧ i.sAxisTlast = true ∧
      (s.deframerState = .payloadAndFcs ∨ s.deframerState = .discard) := by
  rw [deframes, drops]
  cases i.sAxisTvalid <;> cases i.sAxisTlast <;> simp

/-- A reset at the right time makes the state as new. -/
theorem Cleans.twins {q : List Byte} (h : Cleans s i) (hfifo : CircularBuffer.Holds s.fifo q)
    (ht : PowerUp t) (hi : i.reset = true) : Twins (step s i) (step t i) := by
  obtain ⟨hdelay, hends⟩ := h
  rw [← ends_iff, Bool.not_eq_true] at hends
  have hends' : (deframes t i && i.sAxisTlast || drops t i) = false := by
    simp [deframes, drops, ht.deframerState]
  refine ⟨?_, hends.trans hends'.symm, ?_, ?_, ?_, ?_, ?_, ?_, ?_, ⟨[], ?_, ?_⟩, ?_⟩
  · simp [step, hi]
  · simp [step, EthernetFcs.step, hi]
  · simp [step, hi]
  · simp [step, hi]
  · simp [step, hi]
  · simp [step, hi]
  · simp [step, hi]
  · simp [step, hi]
  · have hnext := holds_next hfifo i
    rcases hdelay with hp | ⟨hempty, hvalid⟩
    · simpa [hp] using hnext
    · obtain rfl := hfifo.empty_iff.mp hempty
      simpa [held, hvalid, List.rtake] using hnext
  · simpa [ht.payloadFinished, held, ht.deframedTvalidR1, List.rtake] using
      holds_next ht.holds_nil i
  · simp [output, step, hi]

/-- Bytes of a frame in progress. -/
theorem Track.run_open (cfg : Config) (l : Track) (bs : List Byte) :
    (Sync.run (Track.step cfg) l ((bs.map fun b => some (b, false)).map presented)).frame =
        l.frame ++ bs ∧
      (Sync.run (Track.step cfg) l ((bs.map fun b => some (b, false)).map presented)).old =
        l.old := by
  induction bs generalizing l with
  | nil => simp
  | cons b bs ih =>
    obtain ⟨h₁, h₂⟩ := ih (l.step cfg (presented (some (b, false))))
    rw [List.map_cons, List.map_cons, run_cons, h₁, h₂]
    simp [Track.step, Track.heeds, presented]

/-- The first bytes of a frame, up to the fourth after the header. -/
def benchStart : List Inputs :=
  (((benchFrame.take 17).map fun b => some (b, false)) ++ [some (0, false)] ++
    [none, none]).map presented

/-- The deframer when it has been powered up. -/
def fresh : State :=
  ⟨.idle, false, ⟨0, 0⟩, 0, 0, false, 0, 0, false, ⟨fun _ => 0, 0, 0⟩, 0, false, false, false⟩

theorem fresh_powerUp : PowerUp fresh := ⟨rfl, rfl, rfl, rfl, rfl, rfl⟩

/-- Bytes that were left in the delay line come out in front of the payload. -/
theorem collect_emit_ne_nil {l : Track} (hframe : l.frame = []) (hold : l.old ≠ []) :
    collect (Track.step ⟨false, 0, 0x0A0B0C0D0E0F⟩) (Track.emit ⟨false, 0, 0x0A0B0C0D0E0F⟩) l
      benchStart ≠ [] := by
  have hpos := List.length_pos_of_ne_nil hold
  obtain ⟨h₁, h₂⟩ := Track.run_open ⟨false, 0, 0x0A0B0C0D0E0F⟩ l (benchFrame.take 17)
  rw [hframe, List.nil_append] at h₁
  have hm : Matches ⟨false, 0, 0x0A0B0C0D0E0F⟩ (benchFrame.take 17) := by decide +kernel
  have hpay : (payloadAndFcs ⟨false, 0, 0x0A0B0C0D0E0F⟩ (benchFrame.take 17)).length = 3 := by
    decide +kernel
  rw [benchStart, List.map_append, List.map_append, List.append_assoc, collect_append]
  intro h
  have hemit := (List.append_eq_nil_iff.mp (List.append_eq_nil_iff.mp h).2).1
  rw [Track.emit, Track.delayed, h₁, h₂, List.length_append, hpay,
    if_pos ⟨rfl, hm, by omega⟩] at hemit
  cases hemit

/-- **When a reset makes the deframer as new**: from a reachable state, one cycle of reset leads to
the same output on every later input as for a deframer that has just been powered up, exactly if the
delay line is empty or about to be cleared, and the reset does not come with the last byte of a
frame. -/
theorem reset_iff {s₀ t : State} {is : List Inputs} {i : Inputs} (hs : PowerUp s₀) (ht : PowerUp t)
    (hi : i.reset = true) :
    (∀ js, collect step shown (step (run step s₀ is) i) js = collect step shown (step t i) js ∧
      (run step (step (run step s₀ is) i) js).droppedPacketCountU =
        (run step (step t i) js).droppedPacketCountU) ↔
    Cleans (run step s₀ is) i := by
  obtain ⟨q, hq⟩ := exists_holds_run hs is
  generalize run step s₀ is = s at *
  refine ⟨fun h => ?_, fun h => (h.twins hq ht hi).run⟩
  have htracks := tracks_reset ⟨false, 0, 0x0A0B0C0D0E0F⟩ hq hi
  obtain ⟨htracks', hout', hleaving'⟩ :=
    tracks_afterReset ⟨false, 0, 0x0A0B0C0D0E0F⟩ ⟨t, i, ht, hi, rfl⟩
  have hout : output (step s i) = [] ∧ leaving (step s i) = [] := output_reset hi
  have hsame : ∀ js, (∀ j ∈ js, Steady ⟨false, 0, 0x0A0B0C0D0E0F⟩ s j) → Settled js →
      collect (Track.step ⟨false, 0, 0x0A0B0C0D0E0F⟩) (Track.emit ⟨false, 0, 0x0A0B0C0D0E0F⟩)
          ⟨[], [], if s.payloadFinished then [] else q ++ held s,
            deframes s i && i.sAxisTlast || drops s i⟩ js =
        collect (Track.step ⟨false, 0, 0x0A0B0C0D0E0F⟩) (Track.emit ⟨false, 0, 0x0A0B0C0D0E0F⟩)
          ⟨[], [], [], false⟩ js := by
    intro js hsteady hend
    rw [← htracks.shown_settled hout.1 hout.2 (always_of_forall hsteady _) hend,
      ← htracks'.shown_settled hout' hleaving' (always_of_forall hsteady _) hend]
    exact (h js).1
  have hstale : (if s.payloadFinished then [] else q ++ held s) = [] := by
    by_contra hne
    have hemits := collect_emit_ne_nil (l := ⟨[], [], _, deframes s i && i.sAxisTlast || drops s i⟩)
      rfl hne
    exact hemits ((hsame benchStart (steady_presented _ s) (settled_presented _)).trans
      (by decide +kernel))
  have hends : (deframes s i && i.sAxisTlast || drops s i) = false := by
    by_contra hne
    rw [Bool.not_eq_false] at hne
    rw [hstale, hne] at hsame
    have hjudged := hsame benchFollow (steady_presented _ s) (settled_presented _)
    revert hjudged
    decide +kernel
  constructor
  · cases hp : s.payloadFinished with
    | true => exact .inl rfl
    | false =>
      rw [hp, if_neg Bool.false_ne_true, List.append_eq_nil_iff] at hstale
      refine .inr ⟨hq.empty_iff.mpr hstale.1, ?_⟩
      simpa [held] using hstale.2
  · rw [← ends_iff, hends]
    exact Bool.false_ne_true

/-- A reset in the cycle after the last byte of a payload. -/
theorem reset_iff_ended :
    let is := ((beats benchFrame).map some).map presented
    let i : Inputs := { presented none with reset := true }
    collect step shown (step (run step fresh is) i) = collect step shown (step fresh i) ∧
      (fun js => (run step (step (run step fresh is) i) js).droppedPacketCountU) =
        fun js => (run step (step fresh i) js).droppedPacketCountU := by
  intro is i
  have hcleans : Cleans (run step fresh is) i := by decide +kernel
  have hsame := (reset_iff fresh_powerUp fresh_powerUp rfl).mpr hcleans
  constructor
  · funext js
    exact (hsame js).1
  · funext js
    exact (hsame js).2

/-- A reset in the middle of a payload leaves bytes over for the next one. -/
theorem not_always_reset :
    ¬ ∀ (s₀ t : State) (is : List Inputs) (i : Inputs), PowerUp s₀ → PowerUp t → i.reset = true →
      ∀ js, collect step shown (step (run step s₀ is) i) js = collect step shown (step t i) js ∧
        (run step (step (run step s₀ is) i) js).droppedPacketCountU =
          (run step (step t i) js).droppedPacketCountU := by
  intro h
  have hshown := (h fresh fresh (((benchFrame.take 16).map fun b => some (b, false)).map presented)
    { presented none with reset := true } fresh_powerUp fresh_powerUp rfl benchFollow).1
  revert hshown
  decide +kernel

end Reset

end RmiiEthernet.EthernetDeframer
