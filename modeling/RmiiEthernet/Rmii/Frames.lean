import RmiiEthernet.Rmii.Transmitter

/-!
# The line of the RMII transmitter

`tx_en` and `txd` over a whole run of `rmii_mac_tx`: the packets that the source offers, each as one
burst of the di-bits of preamble, delimiter and bytes, in order, with a gap of at least 48 cycles
between two of them, and `txd` 00 in the gaps (`Waiting.framed`).

Between two packets the line so far is that of the packets handed over (`Between`); inside one it is
completed by the di-bits to come (`Within`).

The reset leaves `s_axis_tready` alone. When it comes while the third di-bit of a byte is sent, the
port is ready in the first cycle behind it, and a beat that is offered there is lost (`framed_iff`).
-/

namespace RmiiEthernet.RmiiMacTx

open Sync EthernetFcs

/-! ## Lines -/

/-- A pause on the line. -/
def quiet (n : ℕ) : List (Bool × BitVec 2) := List.replicate n (false, 0)

/-- A packet on the line. -/
def burst (q : List Byte) : List (Bool × BitVec 2) := (wire q).map (true, ·)

/-- Packets on the line, with a pause before each. -/
def frames (gs : List ℕ) (qs : List (List Byte)) : List (Bool × BitVec 2) :=
  (gs.zip qs).flatMap fun g => quiet g.1 ++ burst g.2

/-- The line in one state. -/
def onLine (s : State) : Bool × BitVec 2 := (s.txEn, s.txd)

/-- The line over a run. -/
def line (s : State) (is : List Inputs) : List (Bool × BitVec 2) :=
  collect step (fun s _ => [onLine s]) s is ++ [onLine (run step s is)]

/-- The state after a cycle of a reset, whatever was in progress before. -/
def AfterReset (s : State) : Prop := ∃ s₀ i, i.reset = true ∧ s = step s₀ i

/-- The transmitter waits for a packet, and the port is not ready. -/
structure Waiting (s : State) : Prop where
  idle : s.fsmState = .idle
  refuses : s.sAxisTready = false
  quiet : onLine s = (false, 0)

theorem line_concat (s : State) (is : List Inputs) (i : Inputs) :
    line s (is ++ [i]) = line s is ++ [onLine (step (run step s is) i)] := by
  rw [line, collect_concat, run_concat, line]

theorem quiet_succ (n : ℕ) : quiet (n + 1) = quiet n ++ [(false, 0)] := List.replicate_succ'

theorem frames_append {gs gs' : List ℕ} {qs qs' : List (List Byte)} (h : gs.length = qs.length) :
    frames (gs ++ gs') (qs ++ qs') = frames gs qs ++ frames gs' qs' := by
  rw [frames, List.zip_append h, List.flatMap_append]
  rfl

theorem frames_concat {gs : List ℕ} {qs : List (List Byte)} (h : gs.length = qs.length) (g : ℕ)
    (q : List Byte) : frames (gs ++ [g]) (qs ++ [q]) = frames gs qs ++ quiet g ++ burst q := by
  rw [frames_append h, List.append_assoc]
  simp [frames]

/-- A pause is the beginning of any packets, or of a longer pause. -/
theorem quiet_prefix_frames (n : ℕ) (qs : List (List Byte)) :
    quiet n <+: frames (List.replicate qs.length (n + 48)) qs ++ quiet n := by
  cases qs with
  | nil => exact List.prefix_refl _
  | cons q qs =>
    refine ⟨quiet 48 ++ burst q ++ frames (List.replicate qs.length (n + 48)) qs ++ quiet n, ?_⟩
    have hsplit : quiet (n + 48) = quiet n ++ quiet 48 := List.replicate_add ..
    rw [List.length_cons, List.replicate_succ, frames, frames, List.zip_cons_cons,
      List.flatMap_cons, hsplit]
    simp only [List.append_assoc]

/-! ## The invariant -/

section Cycle

variable {s : State} {x : State × Source Byte} {i : Inputs} {ps done fresh : List (List Byte)}
  {gs : List ℕ} {g : ℕ} {l : List (Bool × BitVec 2)}

/-- Every pause but the first is long enough. -/
def Gapped (gs : List ℕ) : Prop := ∀ n ∈ gs.tail, 48 ≤ n

/-- Between two packets, `g` cycles after the last one. -/
structure Between (ps : List (List Byte)) (x : State × Source Byte) (l : List (Bool × BitVec 2))
    (gs : List ℕ) (done fresh : List (List Byte)) (g : ℕ) : Prop where
  sending : x.1.fsmState.sending = false
  split : ps = done ++ fresh
  todo : x.2.todo = fresh.flatMap beats
  phase : Phase x.1 x.2.must []
  line : l = frames gs done ++ quiet g
  gaps : gs.length = done.length ∧ Gapped gs
  ipg : x.1.fsmState = .ipg → 56 ≤ g + x.1.cycleCounter.toNat
  idle : x.1.fsmState = .idle → done ≠ [] → 48 ≤ g

/-- In the packet `r`, of which the bytes `q` have not been handed over. -/
structure Within (ps : List (List Byte)) (x : State × Source Byte) (l : List (Bool × BitVec 2))
    (gs : List ℕ) (done fresh : List (List Byte)) (g : ℕ) (r q : List Byte) : Prop where
  sending : x.1.fsmState.sending = true
  split : ps = done ++ r :: fresh
  todo : x.2.todo = beats q ++ fresh.flatMap beats
  phase : Phase x.1 x.2.must q
  line : l ++ (ahead x.1 q).map (true, ·) = frames gs done ++ quiet g ++ burst r
  gaps : gs.length = done.length ∧ Gapped gs
  gap : done ≠ [] → 48 ≤ g
  first : x.1.txEn = false → q = r ∧ l = frames gs done ++ quiet g

/-- **The invariant.** -/
def Lines (ps : List (List Byte)) (x : State × Source Byte) (l : List (Bool × BitVec 2)) : Prop :=
  ∃ gs done fresh g, Between ps x l gs done fresh g ∨ ∃ r q, Within ps x l gs done fresh g r q

theorem FsmState.sending_eq_false_iff {f : FsmState} :
    f.sending = false ↔ f = .idle ∨ f = .ipg := by
  cases f <;> simp [FsmState.sending]

theorem gapped_append {gs' : List ℕ} (h : Gapped gs) (h' : ∀ n ∈ gs', 48 ≤ n) :
    Gapped (gs ++ gs') := by
  cases gs with
  | nil => exact fun n hn => h' n (List.mem_of_mem_tail hn)
  | cons a gs =>
    intro n hn
    rcases List.mem_append.mp hn with hn | hn
    · exact h n hn
    · exact h' n hn

theorem gapped_concat (h : gs.length = done.length ∧ Gapped gs) (hg : done ≠ [] → 48 ≤ g) :
    Gapped (gs ++ [g]) := by
  cases gs with
  | nil => simp [Gapped]
  | cons a gs =>
    have hdone : done ≠ [] := List.ne_nil_of_length_pos (by rw [← h.1]; simp)
    exact gapped_append h.2 (by simpa using hg hdone)

/-- Outside of a packet the line is quiet in the next cycle. -/
theorem onLine_step (h : x.1.fsmState.sending = false) (hi : i.reset = false) :
    onLine (step x.1 i) = (false, 0) := by
  rcases FsmState.sending_eq_false_iff.mp h with hf | hf <;>
    simp [onLine, step, hf, hi, FsmState.sending]

/-- A packet ends in the gap. -/
theorem step_of_sending (h : x.1.fsmState.sending = true)
    (hnext : (step x.1 i).fsmState.sending = false) (hi : i.reset = false) :
    (step x.1 i).fsmState = .ipg ∧ (step x.1 i).cycleCounter = 56 := by
  cases hf : x.1.fsmState with
  | idle | ipg => simp [hf, FsmState.sending] at h
  | sfd => simp [step, advance, hf, hi, FsmState.sending] at hnext
  | preamble =>
    by_cases hc : x.1.cycleCounter = 0#12 <;>
      simp [step, advance, hf, hi, hc, FsmState.sending] at hnext
  | data =>
    by_cases hend : (i.sAxisTlast && x.1.diBitSelect == 3#2) = true
    · simp [step, advance, hf, hi, hend, ipgLength]
    · simp [step, advance, hf, hi, hend, FsmState.sending] at hnext

/-- Outside of a packet nothing is accepted. -/
theorem phase_quiet {must : Bool} (h : s.fsmState.sending = false)
    (hready : s.sAxisTready = false) :
    Phase s must [] := by
  have hf := FsmState.sending_eq_false_iff.mp h
  refine ⟨by simp [h], fun _ => rfl, fun hstart => ?_, ?_⟩
  · rcases hf with hf | hf <;> simp [hf] at hstart
  · rcases hf with hf | hf <;> simp [hf, hready]

theorem Between.fed_eq (h : Between ps x l gs done fresh g) :
    fed x i = (step x.1 i, ⟨x.2.todo, x.2.must || i.sAxisTvalid⟩) := by
  refine fed_refused (h.phase.not_sAxisTready fun hf => ?_)
  have hsending := h.sending
  simp [hf, FsmState.sending] at hsending

/-- The pause goes on. -/
theorem Between.step_quiet (h : Between ps x l gs done fresh g) (hi : i.reset = false)
    (hnext : (step x.1 i).fsmState.sending = false) :
    Between ps (fed x i) (l ++ [onLine (fed x i).1]) gs done fresh (g + 1) := by
  have hready : (step x.1 i).sAxisTready = false := by
    rcases FsmState.sending_eq_false_iff.mp h.sending with hf | hf <;> simp [step, hf]
  rw [h.fed_eq]
  refine ⟨hnext, h.split, h.todo, phase_quiet hnext hready, ?_, h.gaps, fun hipg => ?_,
    fun hidle hdone => ?_⟩
  · rw [onLine_step h.sending hi, h.line, List.append_assoc, quiet_succ]
  · rcases FsmState.sending_eq_false_iff.mp h.sending with hf | hf
    · cases hv : i.sAxisTvalid <;> simp [step, advance, hf, hi, hv] at hipg
    · have hle := h.ipg hf
      have hc : x.1.cycleCounter ≠ 0#12 := by
        intro hc
        simp [step, advance, hf, hi, hc] at hipg
      have hpred := toNat_cycleCounter_sub x.1 hc
      have hcount : (step x.1 i).cycleCounter = x.1.cycleCounter - 1 := by simp only [step, hf]
      rw [hcount]
      omega
  · rcases FsmState.sending_eq_false_iff.mp h.sending with hf | hf
    · exact (h.idle hf hdone).trans (Nat.le_succ _)
    · have hle := h.ipg hf
      by_cases hc : x.1.cycleCounter = 0#12
      · have hzero : x.1.cycleCounter.toNat = 0 := by rw [hc]; rfl
        omega
      · simp [step, advance, hf, hi, hc] at hidle

/-- A packet begins. -/
theorem Between.step_begin (h : Between ps x l gs done fresh g) (hi : i.reset = false)
    (hne : ∀ r ∈ fresh, r ≠ []) (ho : Source.Offers offer x i)
    (hnext : (step x.1 i).fsmState.sending = true) :
    ∃ r fresh', Within ps (fed x i) (l ++ [onLine (fed x i).1]) gs done fresh' (g + 1) r r := by
  obtain ⟨hf, hv⟩ : x.1.fsmState = .idle ∧ i.sAxisTvalid = true := by
    rcases FsmState.sending_eq_false_iff.mp h.sending with hf | hf
    · cases hv : i.sAxisTvalid
      · simp [step, advance, hf, hi, hv, FsmState.sending] at hnext
      · exact ⟨hf, rfl⟩
    · by_cases hc : x.1.cycleCounter = 0#12 <;>
        simp [step, advance, hf, hi, hc, FsmState.sending] at hnext
  cases fresh with
  | nil => simp [Source.Offers, offer, hv, h.todo] at ho
  | cons r fresh =>
    have hstep : step x.1 i = ⟨.preamble, 0, 30, false, false, 0⟩ := by
      simp [step, advance, hf, hv, hi, preambleLengthDibits, FsmState.sending]
    have hl : l ++ [onLine (step x.1 i)] = frames gs done ++ quiet (g + 1) := by
      rw [onLine_step h.sending hi, h.line, List.append_assoc, quiet_succ]
    rw [h.fed_eq]
    refine ⟨r, fresh, hnext, h.split, ?_, ?_, ?_, h.gaps, fun hdone => ?_, fun _ => ⟨rfl, hl⟩⟩
    · simpa using h.todo
    · rw [hstep]
      constructor <;> simp [hv, hne r List.mem_cons_self, FsmState.sending]
    · rw [hl, hstep, burst, wire_eq]
      simp [ahead]
    · exact (h.idle hf hdone).trans (Nat.le_succ _)

/-- A di-bit of a packet. -/
theorem Within.step {r q : List Byte} (h : Within ps x l gs done fresh g r q)
    (hi : i.reset = false) (ho : Source.Offers offer x i) :
    Lines ps (fed x i) (l ++ [onLine (fed x i).1]) := by
  have hadvances : Advances x i q (fresh.flatMap beats) := by
    have hsending := h.sending
    cases hf : x.1.fsmState with
    | preamble => exact advances_preamble h.todo h.phase hf hi
    | sfd => exact advances_sfd h.todo h.phase hf hi
    | data => exact advances_data h.todo h.phase hf hi ho
    | idle | ipg => simp [hf, FsmState.sending] at hsending
  obtain ⟨q', htodo, hphase, hen, hahead⟩ := hadvances
  have hline : l ++ [onLine (fed x i).1] ++ (ahead (fed x i).1 q').map (true, ·) =
      frames gs done ++ quiet g ++ burst r := by
    rw [← h.line, hahead, onLine, hen]
    simp
  cases hs : (fed x i).1.fsmState.sending with
  | true =>
    exact ⟨gs, done, fresh, g, .inr ⟨r, q', hs, h.split, htodo, hphase, hline, h.gaps, h.gap,
      fun hoff => by simp [hen] at hoff⟩⟩
  | false =>
    obtain ⟨hipg, hcount⟩ := step_of_sending h.sending hs hi
    have hq : q' = [] := hphase.quiet hs
    have hnone : ahead (fed x i).1 [] = [] := by
      have hipg : (fed x i).1.fsmState = .ipg := hipg
      simp [ahead, hipg]
    rw [hq, hnone, List.map_nil, List.append_nil] at hline
    refine ⟨gs ++ [g], done ++ [r], fresh, 0, .inl ⟨hs, ?_, ?_, ?_, ?_, ⟨?_, ?_⟩, fun _ => ?_,
      fun hidle => ?_⟩⟩
    · simpa using h.split
    · simpa [hq] using htodo
    · rwa [hq] at hphase
    · rw [hline, frames_concat h.gaps.1]
      simp [quiet]
    · simp [h.gaps.1]
    · exact gapped_concat h.gaps h.gap
    · have hcount : (fed x i).1.cycleCounter = 56 := hcount
      rw [hcount]
      decide
    · have hipg : (fed x i).1.fsmState = .ipg := hipg
      simp [hipg] at hidle

/-- **One cycle.** -/
theorem Lines.step (h : Lines ps x l) (hne : ∀ r ∈ ps, r ≠ []) (hi : i.reset = false)
    (ho : Source.Offers offer x i) : Lines ps (fed x i) (l ++ [onLine (fed x i).1]) := by
  obtain ⟨gs, done, fresh, g, h | ⟨r, q, h⟩⟩ := h
  · cases hs : (RmiiMacTx.step x.1 i).fsmState.sending with
    | false => exact ⟨gs, done, fresh, g + 1, .inl (h.step_quiet hi hs)⟩
    | true =>
      obtain ⟨r, fresh', h'⟩ :=
        h.step_begin hi (fun r hr => hne r (by simp [h.split, hr])) ho hs
      exact ⟨gs, done, fresh', g + 1, .inr ⟨r, r, h'⟩⟩
  · exact h.step hi ho

end Cycle

/-! ## Whole runs -/

section Runs

variable {s : State} {is : List Inputs} {ps : List (List Byte)}

theorem AfterReset.idle (h : AfterReset s) : s.fsmState = .idle ∧ onLine s = (false, 0) := by
  obtain ⟨s₀, i, hi, rfl⟩ := h
  constructor <;> simp [onLine, step, hi]

theorem AfterReset.waiting (h : AfterReset s) (hready : s.sAxisTready = false) : Waiting s :=
  ⟨h.idle.1, hready, h.idle.2⟩

/-- A cycle in which nothing is offered. -/
theorem waiting_step {i : Inputs} (hf : s.fsmState = .idle) (hi : i.reset = false)
    (hv : i.sAxisTvalid = false) : Waiting (step s i) := by
  constructor <;> simp [onLine, step, advance, hf, hi, hv, FsmState.sending]

theorem Waiting.phase (h : Waiting s) (must : Bool) : Phase s must [] :=
  phase_quiet (by rw [h.idle]; rfl) h.refuses

theorem Waiting.lines (h : Waiting s) (ps : List (List Byte)) :
    Lines ps (s, ⟨ps.flatMap beats, false⟩) [onLine s] := by
  refine ⟨[], [], ps, 1, .inl ⟨?_, rfl, rfl, h.phase _, ?_, ⟨rfl, by simp [Gapped]⟩, fun hipg => ?_,
    by simp⟩⟩
  · simp [h.idle, FsmState.sending]
  · simp [frames, RmiiMacTx.quiet, h.quiet]
  · simp [h.idle] at hipg

theorem fst_run_fed (x : State × Source Byte) (is : List Inputs) :
    (run fed x is).1 = run step x.1 is :=
  run_proj (π := Prod.fst) (fun _ _ => rfl) x is

theorem lines_run (hs : Waiting s) (hps : ∀ q ∈ ps, q ≠ []) (hreset : ∀ i ∈ is, i.reset = false)
    (hfeeds : Feeds true step offer sAxisTready (ps.flatMap beats) s is) :
    Lines ps (run fed (s, ⟨ps.flatMap beats, false⟩) is) (line s is) := by
  induction is using List.reverseRecOn with
  | nil => exact hs.lines ps
  | append_singleton is i ih =>
    obtain ⟨hrun, ho, -⟩ := (always_append _ _ _).mp hfeeds
    have h := (ih (fun j hj => hreset j (by simp [hj])) hrun).step hps (hreset i (by simp)) ho
    have hstate : (fed (run fed (s, ⟨ps.flatMap beats, false⟩) is) i).1 =
        step (run step s is) i := congrArg (step · i) (fst_run_fed _ is)
    rw [hstate, ← line_concat] at h
    rw [run_concat]
    exact h

/-- A line is the beginning of one that carries all the packets. -/
theorem Lines.prefix_frames {x : State × Source Byte} {l : List (Bool × BitVec 2)}
    (h : Lines ps x l) :
    ∃ gs n, gs.length = ps.length ∧ Gapped gs ∧ l <+: frames gs ps ++ quiet n := by
  obtain ⟨gs, done, fresh, g, h | ⟨r, q, h⟩⟩ := h
  · refine ⟨gs ++ List.replicate fresh.length (g + 48), g, ?_, ?_, ?_⟩
    · simp [h.split, h.gaps.1]
    · exact gapped_append h.gaps.2 (by simp)
    · rw [h.line, h.split, frames_append h.gaps.1, List.append_assoc]
      exact (List.prefix_append_right_inj _).mpr (quiet_prefix_frames g fresh)
  · have hlen : (gs ++ [g]).length = (done ++ [r]).length := by simp [h.gaps.1]
    refine ⟨gs ++ [g] ++ List.replicate fresh.length 48, 0, ?_, ?_, ?_⟩
    · simp [h.split, h.gaps.1, Nat.add_comm]
    · exact gapped_append (gapped_concat h.gaps h.gap) (by simp)
    · rw [h.split, List.append_cons done r, frames_append hlen,
        frames_concat h.gaps.1, ← h.line]
      simp only [List.append_assoc]
      exact List.prefix_append _ _

/-- While `tx_en` is low, the packets handed over are those on the line. -/
theorem Lines.of_txEn {x : State × Source Byte} {l : List (Bool × BitVec 2)} (h : Lines ps x l)
    (hoff : x.1.txEn = false) :
    ∃ gs done fresh g, ps = done ++ fresh ∧ gs.length = done.length ∧ Gapped gs ∧
      x.2.todo = fresh.flatMap beats ∧ l = frames gs done ++ quiet g := by
  obtain ⟨gs, done, fresh, g, h | ⟨r, q, h⟩⟩ := h
  · exact ⟨gs, done, fresh, g, h.split, h.gaps.1, h.gaps.2, h.todo, h.line⟩
  · obtain ⟨rfl, hl⟩ := h.first hoff
    exact ⟨gs, done, q :: fresh, g, h.split, h.gaps.1, h.gaps.2, by simpa using h.todo, hl⟩

/-- The transmitter with its source starts with all the packets to be sent. -/
theorem Waiting.sends (hs : Waiting s) (hps : ∀ q ∈ ps, q ≠ []) :
    Sends (s, ⟨ps.flatMap beats, false⟩) (ps.flatMap fun q => beats (wire q)) ∧
      left (s, ⟨ps.flatMap beats, false⟩) = ((ps.map fun q => 4 * q.length + 90).sum : ℕ) := by
  have hoff : s.txEn = false := congrArg Prod.fst hs.quiet
  refine ⟨⟨[], ps, hps, rfl, hs.phase _, ?_⟩, ?_⟩
  · simp [sent, ahead, hoff, hs.idle]
  · simp [left, cost_flatMap_beats hps, hs.idle]

/-- After a run that is long enough the transmitter is idle and its source has nothing left. -/
theorem Waiting.idle_run (hs : Waiting s) (hps : ∀ q ∈ ps, q ≠ [])
    (hreset : ∀ i ∈ is, i.reset = false)
    (hfeeds : Feeds true step offer sAxisTready (ps.flatMap beats) s is)
    (hlen : (ps.map fun q => 4 * q.length + 90).sum +
      pauses true step offer sAxisTready (ps.flatMap beats) s is ≤ is.length) :
    (run step s is).fsmState = .idle ∧
      unsent true step offer sAxisTready (ps.flatMap beats) s is = [] := by
  obtain ⟨hp, hleft⟩ := hs.sends hps
  have hpauses : (collect fed (paused offer) (s, ⟨ps.flatMap beats, false⟩) is).length =
      pauses true step offer sAxisTready (ps.flatMap beats) s is := rfl
  obtain ⟨hidle, htodo⟩ := hp.idle_run ((always_of_forall hreset _).and hfeeds) (by omega)
  rw [fst_run_fed] at hidle
  exact ⟨hidle, htodo⟩

/-- **The RMII frame format** in a run whose source has the packets `ps` to send: the line is the
beginning of one that carries these packets in order, with `txd` 00 and `tx_en` low in the pauses,
which have 48 cycles at least between packets; while `tx_en` is low, the beats accepted are those of
the packets on the line; and once the run is as long as it takes, not counting the cycles in which
the source pauses, all the packets are accepted and on the line. -/
structure Framed (s : State) (ps : List (List Byte)) (is : List Inputs) : Prop where
  begins : ∃ gs n, gs.length = ps.length ∧ Gapped gs ∧ line s is <+: frames gs ps ++ quiet n
  boundary : (run step s is).txEn = false → ∃ gs done n, done <+: ps ∧ gs.length = done.length ∧
    Gapped gs ∧ line s is = frames gs done ++ quiet n ∧
    collect step (handed offer sAxisTready) s is = done.flatMap beats
  ends : (ps.map fun q => 4 * q.length + 90).sum +
      pauses true step offer sAxisTready (ps.flatMap beats) s is ≤ is.length →
    collect step (handed offer sAxisTready) s is = ps.flatMap beats ∧
      ∃ gs n, gs.length = ps.length ∧ Gapped gs ∧ line s is = frames gs ps ++ quiet n

/-- **A transmitter that waits** sends what it is offered. -/
theorem Waiting.framed (hs : Waiting s) (hps : ∀ q ∈ ps, q ≠ [])
    (hreset : ∀ i ∈ is, i.reset = false)
    (hfeeds : Feeds true step offer sAxisTready (ps.flatMap beats) s is) : Framed s ps is := by
  have h := lines_run hs hps hreset hfeeds
  have hsum := handed_append_unsent hfeeds
  have hstate : (run fed (s, ⟨ps.flatMap beats, false⟩) is).1 = run step s is := fst_run_fed _ is
  refine ⟨h.prefix_frames, fun hoff => ?_, fun hlen => ?_⟩
  · obtain ⟨gs, done, fresh, g, hsplit, hgaps, hgapped, htodo, hl⟩ :=
      h.of_txEn (by rw [hstate]; exact hoff)
    have hunsent : unsent true step offer sAxisTready (ps.flatMap beats) s is =
        fresh.flatMap beats := htodo
    refine ⟨gs, done, g, ⟨fresh, hsplit.symm⟩, hgaps, hgapped, hl, ?_⟩
    rw [hunsent, hsplit, List.flatMap_append] at hsum
    exact List.append_cancel_right hsum
  · obtain ⟨hidle, hunsent⟩ := hs.idle_run hps hreset hfeeds hlen
    have htodo : (run fed (s, ⟨ps.flatMap beats, false⟩) is).2.todo = [] := hunsent
    rw [hunsent, List.append_nil] at hsum
    refine ⟨hsum, ?_⟩
    obtain ⟨gs, done, fresh, g, h | ⟨r, q, h⟩⟩ := h
    · have hfresh : fresh = [] := by
        by_contra hfresh
        obtain ⟨r, fresh, rfl⟩ := List.exists_cons_of_ne_nil hfresh
        obtain ⟨b, r, rfl⟩ := List.exists_cons_of_ne_nil (hps r (by simp [h.split]))
        have htodo' := h.todo
        rw [htodo] at htodo'
        simp [beats_cons] at htodo'
      have hdone : ps = done := by simpa [hfresh] using h.split
      exact ⟨gs, g, by rw [hdone]; exact h.gaps.1, h.gaps.2, by rw [hdone]; exact h.line⟩
    · have hsending := h.sending
      simp [hstate, hidle, FsmState.sending] at hsending

/-! ## The first cycle behind a reset -/

/-- A cycle of the pause more in front of packets. -/
theorem exists_frames_cons {gs : List ℕ} (h : gs.length = ps.length ∧ Gapped gs) (n : ℕ) :
    ∃ gs' n', gs'.length = ps.length ∧ Gapped gs' ∧
      (false, 0) :: (frames gs ps ++ quiet n) = frames gs' ps ++ quiet n' := by
  cases gs with
  | nil =>
    obtain rfl : ps = [] := List.eq_nil_of_length_eq_zero h.1.symm
    exact ⟨[], n + 1, rfl, h.2, rfl⟩
  | cons g gs =>
    obtain ⟨q, ps, rfl⟩ := List.exists_cons_of_length_pos (l := ps) (by rw [← h.1]; simp)
    exact ⟨(g + 1) :: gs, n, h.1, h.2, rfl⟩

theorem line_cons (s : State) (i : Inputs) (is : List Inputs) :
    line s (i :: is) = onLine s :: line (step s i) is := rfl

theorem sourced_of_none {i : Inputs} (hv : i.sAxisTvalid = false) (bs : List (Byte × Bool)) :
    sourced true step offer sAxisTready (s, ⟨bs, false⟩) i = (step s i, ⟨bs, false⟩) := by
  simp [sourced, offer, hv]

theorem feeds_of_none {i : Inputs} {bs : List (Byte × Bool)} (hv : i.sAxisTvalid = false)
    (h : Feeds true step offer sAxisTready bs s (i :: is)) :
    Feeds true step offer sAxisTready bs (step s i) is := by
  have hrest := h.2
  rwa [sourced_of_none hv] at hrest

/-- A cycle in which nothing is offered does not count. -/
theorem length_of_none {i : Inputs} (hps : ∀ q ∈ ps, q ≠ []) (hv : i.sAxisTvalid = false)
    (hlen : (ps.map fun q => 4 * q.length + 90).sum +
      pauses true step offer sAxisTready (ps.flatMap beats) s (i :: is) ≤ (i :: is).length) :
    (ps.map fun q => 4 * q.length + 90).sum +
      pauses true step offer sAxisTready (ps.flatMap beats) (step s i) is ≤ is.length := by
  have hpauses : pauses true step offer sAxisTready (ps.flatMap beats) s (i :: is) =
      (paused offer (s, ⟨ps.flatMap beats, false⟩) i).length +
        pauses true step offer sAxisTready (ps.flatMap beats) (step s i) is := by
    rw [pauses, collect_cons, List.length_append, sourced_of_none hv, pauses]
  cases ps with
  | nil =>
    simpa [pauses] using
      length_collect_paused_le offer (sourced true step offer sAxisTready) (step s i, _) is
  | cons q ps =>
    obtain ⟨b, q, rfl⟩ := List.exists_cons_of_ne_nil (hps q (by simp))
    have hone : (paused offer (s, ⟨((b :: q) :: ps).flatMap beats, false⟩) i).length = 1 := by
      simp [paused, offer, hv, beats_cons]
    rw [hpauses, hone, List.length_cons] at hlen
    omega

/-- A cycle in which nothing is offered only makes the first pause longer. -/
theorem Framed.cons {i : Inputs} (h : Framed (step s i) ps is) (hps : ∀ q ∈ ps, q ≠ [])
    (hs : onLine s = (false, 0)) (hv : i.sAxisTvalid = false) : Framed s ps (i :: is) := by
  have hnone : offer i = none := by simp [offer, hv]
  have hhanded : collect step (handed offer sAxisTready) s (i :: is) =
      collect step (handed offer sAxisTready) (step s i) is := by
    simp [handed, hnone]
  have hline : line s (i :: is) = (false, 0) :: line (step s i) is := by rw [line_cons, hs]
  refine ⟨?_, fun hoff => ?_, fun hlen => ?_⟩
  · obtain ⟨gs, n, hgs, hgapped, hpre⟩ := h.begins
    obtain ⟨gs', n', hgs', hgapped', heq⟩ := exists_frames_cons ⟨hgs, hgapped⟩ n
    exact ⟨gs', n', hgs', hgapped', by rw [hline, ← heq]; exact (List.prefix_cons_inj _).mpr hpre⟩
  · obtain ⟨gs, done, n, hdone, hgs, hgapped, hl, hcollect⟩ := h.boundary hoff
    obtain ⟨gs', n', hgs', hgapped', heq⟩ := exists_frames_cons ⟨hgs, hgapped⟩ n
    exact ⟨gs', done, n', hdone, hgs', hgapped', by rw [hline, hl, heq], by rw [hhanded, hcollect]⟩
  · obtain ⟨hcollect, gs, n, hgs, hgapped, hl⟩ := h.ends (length_of_none hps hv hlen)
    obtain ⟨gs', n', hgs', hgapped', heq⟩ := exists_frames_cons ⟨hgs, hgapped⟩ n
    exact ⟨by rw [hhanded, hcollect], gs', n', hgs', hgapped', by rw [hline, hl, heq]⟩

/-- A run without cycles, whether the port is ready or not. -/
theorem framed_nil (hs : AfterReset s) (hps : ∀ q ∈ ps, q ≠ []) : Framed s ps [] := by
  have hwaiting : Waiting { s with sAxisTready := false } := ⟨hs.idle.1, rfl, hs.idle.2⟩
  have h : Framed { s with sAxisTready := false } ps [] :=
    hwaiting.framed hps (by simp) trivial
  exact ⟨h.begins, h.boundary, h.ends⟩

/-- After a run that is long enough the transmitter is idle and its source has nothing left, unless
a beat was taken in the first cycle. -/
theorem AfterReset.idle_run (hs : AfterReset s) (hps : ∀ q ∈ ps, q ≠ [])
    (hreset : ∀ i ∈ is, i.reset = false)
    (hfeeds : Feeds true step offer sAxisTready (ps.flatMap beats) s is)
    (hfirst : s.sAxisTready = true → ∀ i ∈ is.head?, i.sAxisTvalid = false)
    (hlen : (ps.map fun q => 4 * q.length + 90).sum +
      pauses true step offer sAxisTready (ps.flatMap beats) s is ≤ is.length) :
    (run step s is).fsmState = .idle ∧
      unsent true step offer sAxisTready (ps.flatMap beats) s is = [] := by
  cases hready : s.sAxisTready with
  | false => exact (hs.waiting hready).idle_run hps hreset hfeeds hlen
  | true =>
    cases is with
    | nil =>
      cases ps with
      | nil => exact ⟨hs.idle.1, rfl⟩
      | cons q ps => simp at hlen
    | cons i is =>
      have hv : i.sAxisTvalid = false := hfirst hready i (by simp)
      have h := (waiting_step hs.idle.1 (hreset i (by simp)) hv).idle_run hps
        (fun j hj => hreset j (by simp [hj])) (feeds_of_none hv hfeeds) (length_of_none hps hv hlen)
      rw [unsent, run_cons, run_cons, sourced_of_none hv]
      exact h

/-- When the port is ready behind a reset, a beat that is offered there is taken, and nothing of it
is on the line. -/
theorem not_framed_of_ready {i : Inputs} (hs : AfterReset s) (hready : s.sAxisTready = true)
    (hi : i.reset = false) (hv : i.sAxisTvalid = true) : ¬ Framed s ps [i] := by
  intro h
  have hstep : onLine (step s i) = (false, 0) := by
    simp [onLine, step, hs.idle.1, hi, FsmState.sending]
  obtain ⟨gs, done, n, -, hgs, -, hl, hhanded⟩ := h.boundary (congrArg Prod.fst hstep)
  have hone : collect step (handed offer sAxisTready) s [i] = [(i.sAxisTdata, i.sAxisTlast)] := by
    simp [handed, offer, sAxisTready, hready, hv]
  have hnone : done = [] := by
    by_contra hdone
    obtain ⟨q, done, rfl⟩ := List.exists_cons_of_ne_nil hdone
    obtain ⟨g, gs, rfl⟩ := List.exists_cons_of_length_pos (l := gs) (by rw [hgs]; simp)
    have hmem : (true, 1) ∈ line s [i] := by
      rw [hl]
      simp [frames, burst, wire_eq]
    rw [line_cons, line, hs.idle.2, run_nil, hstep] at hmem
    simp at hmem
  rw [hone, hnone] at hhanded
  cases hhanded

/-- **The RMII frame format after any reset.** A run keeps to the format if and only if no beat is
offered in its first cycle, or the port is not ready then. A packet on the line is 31 di-bits 01,
one 11 and the di-bits of its bytes. -/
theorem framed_iff (hs : AfterReset s) (hps : ∀ q ∈ ps, q ≠ [])
    (hreset : ∀ i ∈ is, i.reset = false)
    (hfeeds : Feeds true step offer sAxisTready (ps.flatMap beats) s is) :
    ((∀ js, js <+: is → Framed s ps js) ↔
      (s.sAxisTready = true → ∀ i ∈ is.head?, i.sAxisTvalid = false)) ∧
      ∀ q, wire q = List.replicate 31 1 ++ 3 :: q.flatMap diBits := by
  refine ⟨⟨fun h hready i hi => ?_, fun h js hjs => ?_⟩, wire_eq⟩
  · obtain ⟨is, rfl⟩ := List.head?_eq_some_iff.mp hi
    by_contra hv
    exact not_framed_of_ready hs hready (hreset i (by simp)) (by simpa using hv)
      (h [i] (List.prefix_append [i] is))
  · obtain ⟨ks, rfl⟩ := hjs
    have hquiet : ∀ i ∈ js, i.reset = false := fun i hi => hreset i (by simp [hi])
    have hfed : Feeds true step offer sAxisTready (ps.flatMap beats) s js :=
      ((always_append _ _ _).mp hfeeds).1
    cases hready : s.sAxisTready with
    | false => exact (hs.waiting hready).framed hps hquiet hfed
    | true =>
      cases js with
      | nil => exact framed_nil hs hps
      | cons i js =>
        have hv : i.sAxisTvalid = false := h hready i (by simp)
        refine Framed.cons ?_ hps hs.idle.2 hv
        exact (waiting_step hs.idle.1 (hquiet i (by simp)) hv).framed hps
          (fun j hj => hquiet j (by simp [hj])) (feeds_of_none hv hfed)

/-- The transmitter after the reset. -/
def cleared : State := step ⟨.idle, 0, 0, false, true, 1⟩ { reset := true }

theorem cleared_afterReset : AfterReset cleared := ⟨_, { reset := true }, rfl, rfl⟩

theorem cleared_waiting : Waiting cleared := cleared_afterReset.waiting rfl

/-- A packet of two bytes. -/
theorem framed_iff_two :
    let i : Inputs := { }
    let is := List.replicate 37 { i with sAxisTdata := 0xAB, sAxisTvalid := true } ++
      List.replicate 4 { i with sAxisTdata := 0xCD, sAxisTvalid := true, sAxisTlast := true } ++
      List.replicate 57 i
    collect step (handed offer sAxisTready) cleared is = [(0xAB, false), (0xCD, true)] ∧
      ∃ gs n, gs.length = 1 ∧ Gapped gs ∧
        line cleared is = frames gs [[0xAB, 0xCD]] ++ quiet n := by
  intro i is
  have hpacket : ∀ q ∈ [[(0xAB : Byte), 0xCD]], q ≠ [] := by simp
  have hreset : ∀ j ∈ is, j.reset = false := by decide +kernel
  have hiff := (framed_iff cleared_afterReset hpacket hreset (by decide +kernel)).1
  exact (hiff.mpr (by decide) is (List.prefix_refl is)).ends (by decide +kernel)

/-- A reset while the third di-bit of a byte is sent: the byte that is offered behind it is taken,
and the packet on the line lacks it. -/
theorem not_framed :
    let i : Inputs := { }
    let s := run step cleared
      (List.replicate 35 { i with sAxisTdata := 0x11, sAxisTvalid := true } ++ [{ reset := true }])
    let is := { i with sAxisTdata := 0x11, sAxisTvalid := true } ::
      (List.replicate 36 { i with sAxisTdata := 0x22, sAxisTvalid := true, sAxisTlast := true } ++
        List.replicate 80 i)
    AfterReset s ∧ Feeds true step offer sAxisTready (beats [0x11, 0x22]) s is ∧
      collect step (handed offer sAxisTready) s is = beats [0x11, 0x22] ∧
      line s is = frames [2] [[0x22]] ++ quiet 80 ∧
      ¬ ∀ js, js <+: is → Framed s [[0x11, 0x22]] js := by
  intro i s is
  have hs : AfterReset s := ⟨_, { reset := true }, rfl, run_concat _ _ _⟩
  have hfirst : [{ i with sAxisTdata := 0x11, sAxisTvalid := true }] <+: is :=
    List.prefix_append [_] _
  exact ⟨hs, by decide +kernel, by decide +kernel, by decide +kernel,
    fun h => not_framed_of_ready hs (by decide +kernel) rfl rfl (h _ hfirst)⟩

end Runs

end RmiiEthernet.RmiiMacTx
