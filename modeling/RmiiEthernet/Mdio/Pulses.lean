import RmiiEthernet.Mdio.Phases

/-!
# The pulses of `mdc_out`

`mdc_out` is the divided clock, let out while an operation is in progress. A meter tells how long it
has been high, and how long low since then in the same operation (`Meter`). The low intervals are
those of the divided clock. A high interval is cut short when the operation begins within it, and
when the operation ends: `done` comes with the second high cycle (`noRunts_iff`).
-/

namespace RmiiEthernet.Mdio

open Sync

/-- The circuit, and for how many cycles `mdc_out` has been high until now, and low since it was
high in this operation. -/
structure Meter (n : ℕ) where
  high : ℕ
  low : Option ℕ
  circuit : State (counterBits n)

variable {n : ℕ}

namespace Meter

variable (x : Meter n) (i : Inputs)

/-- One clock edge. -/
def step : Meter n where
  high := if mdcOut x.circuit then x.high + 1 else 0
  low :=
    if x.circuit.opInProgress then if mdcOut x.circuit then some 0 else x.low.map (· + 1) else none
  circuit := Mdio.step x.circuit i

/-- The high interval that ends with this cycle. -/
def pulse : List ℕ :=
  if mdcOut x.circuit && !mdcOut (Mdio.step x.circuit i) then [x.high + 1] else []

/-- The low interval that has ended before this cycle. -/
def gap (x : Meter n) (_ : Inputs) : List ℕ :=
  match x.low with
  | some (k + 1) => if mdcOut x.circuit then [k + 1] else []
  | _ => []

end Meter

/-- Every high interval that ends in a run, and every low interval between two high ones within an
operation, lasts at least half a period. -/
def NoRunts (s : State (counterBits n)) (is : List Inputs) : Prop :=
  (∀ k ∈ collect Meter.step Meter.pulse ⟨0, none, s⟩ is, n / 2 ≤ k) ∧
    ∀ k ∈ collect Meter.step Meter.gap ⟨0, none, s⟩ is, n / 2 ≤ k

variable {x : Meter n} {s : State (counterBits n)} {i : Inputs}

theorem run_meter (s : State (counterBits n)) (is : List Inputs) :
    (run Meter.step ⟨0, none, s⟩ is).circuit = run step s is :=
  run_proj (π := Meter.circuit) (fun _ _ => rfl) _ is

/-! ## The low intervals -/

/-- A low interval is one of the divided clock: it begins in the phase `0`. -/
def LowSince (x : Meter n) : Prop :=
  x.circuit.opInProgress = true → ∀ k, x.low = some k →
    k = phase x.circuit ∨ k = 0 ∧ n / 2 + 1 < phase x.circuit

theorem Timed.mdcOut_iff (hs : Timed s) :
    mdcOut s = true ↔ n / 2 < phase s ∧ s.opInProgress = true := by
  rw [mdcOut, hs.mdc, Bool.and_eq_true, decide_eq_true_eq]

theorem lowSince_step (hn : Fits n) (hs : Timed x.circuit) (h : LowSince x)
    (hreset : i.reset = false) : LowSince (x.step i) := by
  intro _ k hk
  have h6 := hn.six_le
  have hphase := phase_step hn hs.phase_le hreset
  rw [show (x.step i).circuit = step x.circuit i from rfl, hphase]
  simp only [Meter.step] at hk
  cases hop : x.circuit.opInProgress with
  | false => simp [hop] at hk
  | true =>
    rw [hop, if_pos rfl] at hk
    split at hk
    · -- the clock is high
      next hout =>
      have hhigh := (hs.mdcOut_iff.mp hout).1
      obtain rfl : 0 = k := Option.some.inj hk
      split <;> omega
    · -- the clock is low
      next hout =>
      have hlow : ¬n / 2 < phase x.circuit := fun hlt => hout (hs.mdcOut_iff.mpr ⟨hlt, hop⟩)
      obtain ⟨j, hj, rfl⟩ := Option.map_eq_some_iff.mp hk
      have hj := h hop j hj
      rw [if_neg (by omega)]
      omega

theorem lowSince_run (hn : Fits n) (hs : PowerUp s) {is : List Inputs}
    (his : ∀ i ∈ is, i.reset = false) : LowSince (run Meter.step ⟨0, none, s⟩ is) := by
  induction is using List.reverseRecOn with
  | nil => simp [LowSince]
  | append_singleton is i ih =>
    rw [run_concat]
    refine lowSince_step hn ?_ (ih fun j hj => his j (List.mem_append_left _ hj))
      (his i (List.mem_append_right _ (List.mem_singleton_self i)))
    rw [run_meter]
    exact (sound_run hn hs is).toTimed

theorem gap_le (hs : Timed x.circuit) (h : LowSince x) : ∀ k ∈ x.gap i, n / 2 ≤ k := by
  intro k hk
  unfold Meter.gap at hk
  split at hk
  · next j hj =>
    split at hk
    · next hout =>
      obtain ⟨hhigh, hop⟩ := hs.mdcOut_iff.mp hout
      have hj := h hop _ hj
      obtain rfl := List.mem_singleton.mp hk
      omega
    · cases hk
  · cases hk

/-! ## The high intervals -/

/-- A high interval is one of the divided clock, or it has begun with the acceptance of an
operation. -/
def HighSince (s : State (counterBits n)) (is : List Inputs) (high : ℕ) : Prop :=
  phase (run step s is) = n / 2 + 1 + high ∨
    ∃ ps i qs, is = ps ++ i :: qs ∧ accepts (run step s ps) i = true ∧
      n / 2 < phase (run step s ps) ∧ high = qs.length ∧
      phase (run step s is) = phase (run step s ps) + 1 + qs.length

/-- An operation is in progress in the first cycle of `done` only. -/
theorem phase_done_step (hn : Fits n) (hs : Timed s)
    (hop : (step s i).opInProgress = true) (hdone : (step s i).fsmState = .done) :
    phase (step s i) = n / 2 + 2 := by
  have h6 := hn.six_le
  cases hreset : i.reset with
  | true => simp [step, hreset] at hop
  | false =>
    rw [fsmState_step hreset, hs.mdcRising] at hdone
    by_cases hrising : phase s = n / 2 + 1
    · rw [phase_step hn hs.phase_le hreset, hrising, if_neg (by omega)]
    · simp only [hrising, decide_false, Bool.false_eq_true, if_false] at hdone
      simp [step, opFinishedComb, hdone] at hop

theorem phase_done_run (hn : Fits n) (hs : PowerUp s) (is : List Inputs)
    (hop : (run step s is).opInProgress = true) (hdone : (run step s is).fsmState = .done) :
    phase (run step s is) = n / 2 + 2 := by
  cases is using List.reverseRecOn with
  | nil =>
    rw [run_nil, hs.fsmState] at hdone
    cases hdone
  | append_singleton is i =>
    rw [run_concat] at hop hdone ⊢
    exact phase_done_step hn (sound_run hn hs is).toTimed hop hdone

theorem opInProgress_step_iff (hreset : i.reset = false) :
    (step s i).opInProgress = true ↔
      s.fsmState ≠ .done ∧ (accepts s i = true ∨ s.opInProgress = true) := by
  simp [step, hreset, opFinishedComb]

theorem highSince_run (hn : Fits n) (hs : PowerUp s) {is : List Inputs}
    (his : ∀ i ∈ is, i.reset = false) (hout : mdcOut (run step s is) = true) :
    HighSince s is (run Meter.step ⟨0, none, s⟩ is).high := by
  induction is using List.reverseRecOn with
  | nil => simp [mdcOut, hs.opInProgress] at hout
  | append_singleton is i ih =>
    have h6 := hn.six_le
    have htimed := (sound_run hn hs is).toTimed
    have hreset := his i (List.mem_append_right _ (List.mem_singleton_self i))
    have hphase := phase_step hn htimed.phase_le hreset
    rw [run_concat] at hout
    obtain ⟨hhigh, hop⟩ := (htimed.step hn).mdcOut_iff.mp hout
    have hnext : phase (step (run step s is) i) = phase (run step s is) + 1 := by
      rw [hphase] at hhigh ⊢
      split at hhigh
      · omega
      · rw [if_neg ‹_›]
    rw [HighSince, run_concat, run_concat, hnext]
    simp only [Meter.step, run_meter]
    by_cases hbefore : mdcOut (run step s is) = true
    · rw [if_pos hbefore]
      rcases ih (fun j hj => his j (List.mem_append_left _ hj)) hbefore with
        hclock | ⟨ps, j, qs, rfl, haccepts, hlate, hlength, hsince⟩
      · exact .inl (by omega)
      · refine .inr ⟨ps, j, qs ++ [i], by simp, haccepts, hlate, ?_, ?_⟩
        · rw [List.length_append, hlength, List.length_singleton]
        · rw [hsince, List.length_append, List.length_singleton]
          omega
    · rw [if_neg hbefore]
      by_cases hlow : n / 2 < phase (run step s is)
      · -- the clock is high already
        have hidle : (run step s is).opInProgress ≠ true := fun hop =>
          hbefore (htimed.mdcOut_iff.mpr ⟨hlow, hop⟩)
        have haccepts := ((opInProgress_step_iff hreset).mp hop).2.resolve_right hidle
        exact .inr ⟨is, i, [], rfl, haccepts, hlow, rfl, rfl⟩
      · exact .inl (by omega)

/-- A high interval ends with the clock, or with the operation. -/
theorem falls_iff (hn : Fits n) (hs : Timed s) (hreset : i.reset = false)
    (hout : mdcOut s = true) :
    mdcOut (step s i) = false ↔ phase s = n ∨ s.fsmState = .done := by
  have h6 := hn.six_le
  obtain ⟨hhigh, hop⟩ := hs.mdcOut_iff.mp hout
  rw [← Bool.not_eq_true, (hs.step hn).mdcOut_iff, opInProgress_step_iff hreset,
    phase_step hn hs.phase_le hreset]
  by_cases hlast : phase s = n
  · simp [hlast]
  · simp [hlast, hop, show n / 2 < phase s + 1 by omega]

theorem mem_pulse_iff {k : ℕ} : k ∈ x.pulse i ↔
    mdcOut x.circuit = true ∧ mdcOut (step x.circuit i) = false ∧ k = x.high + 1 := by
  unfold Meter.pulse
  split <;> simp_all

/-- While the clock stays high, an operation that begins late shows one high cycle after another. -/
theorem late_run (hn : Fits n) (hs : PowerUp s) {ps : List Inputs} (hreset : i.reset = false)
    (haccepts : accepts (run step s ps) i = true) (hlate : n / 2 < phase (run step s ps))
    {qs : List Inputs} (hqs : ∀ j ∈ qs, j.reset = false)
    (hlength : phase (run step s ps) + 1 + qs.length ≤ n) :
    phase (run step s (ps ++ i :: qs)) = phase (run step s ps) + 1 + qs.length ∧
      (run step s (ps ++ i :: qs)).opInProgress = true ∧
      (run step s (ps ++ i :: qs)).fsmState = .idle ∧
      (run Meter.step ⟨0, none, s⟩ (ps ++ i :: qs)).high = qs.length := by
  induction qs using List.reverseRecOn with
  | nil =>
    rw [List.length_nil, Nat.add_zero] at hlength
    obtain ⟨-, hop⟩ := idle_of_accepts haccepts
    rw [run_concat, run_concat]
    refine ⟨?_, opInProgress_accepted hreset haccepts, fsmState_accepted hreset haccepts, ?_⟩
    · rw [phase_step hn (by omega) hreset, if_neg (by omega)]
      rfl
    · simp [Meter.step, run_meter, mdcOut, hop]
  | append_singleton qs j ih =>
    rw [List.length_append, List.length_singleton] at hlength
    obtain ⟨hphase, hop, hidle, hhigh⟩ :=
      ih (fun k hk => hqs k (List.mem_append_left _ hk)) (by omega)
    have htimed := (sound_run hn hs (ps ++ i :: qs)).toTimed
    have hreset' := hqs j (List.mem_append_right _ (List.mem_singleton_self j))
    have hout : mdcOut (run step s (ps ++ i :: qs)) = true :=
      htimed.mdcOut_iff.mpr ⟨by omega, hop⟩
    have hrising : (run step s (ps ++ i :: qs)).mdcRising = false := by
      rw [htimed.mdcRising, hphase, decide_eq_false_iff_not]
      omega
    rw [← List.cons_append, ← List.append_assoc, run_concat, run_concat, List.length_append,
      List.length_singleton]
    refine ⟨?_, ?_, ?_, ?_⟩
    · rw [phase_step hn htimed.phase_le hreset', hphase, if_neg (by omega)]
      omega
    · exact (opInProgress_step_iff hreset').mpr ⟨by simp [hidle], .inr hop⟩
    · rw [fsmState_step hreset', hrising, if_neg Bool.false_ne_true, hidle]
    · simp [Meter.step, run_meter, hout, hhigh]

/-! ## The runts -/

section Runts

variable {ps qs : List Inputs}

/-- The high interval that ends with a step. -/
theorem mem_pulses {k : ℕ} (hout : mdcOut (run step s ps) = true)
    (hfalls : mdcOut (step (run step s ps) i) = false)
    (hk : k = (run Meter.step ⟨0, none, s⟩ ps).high + 1) :
    k ∈ collect Meter.step Meter.pulse ⟨0, none, s⟩ (ps ++ i :: qs) :=
  mem_collect_iff.mpr ⟨ps, i, qs, rfl,
    mem_pulse_iff.mpr ⟨by rwa [run_meter], by rwa [run_meter], hk⟩⟩

/-- The last interval of an operation has two cycles at most. -/
theorem exists_pulse_of_done (hn : Fits n) (hs : PowerUp s)
    (his : ∀ j ∈ ps ++ i :: qs, j.reset = false) (hop : (run step s ps).opInProgress = true)
    (hdone : (run step s ps).fsmState = .done) :
    ∃ k ∈ collect Meter.step Meter.pulse ⟨0, none, s⟩ (ps ++ i :: qs), k < n / 2 := by
  have h6 := hn.six_le
  have hphase := phase_done_run hn hs ps hop hdone
  have htimed := (sound_run hn hs ps).toTimed
  have hout := htimed.mdcOut_iff.mpr ⟨by omega, hop⟩
  have hfalls := (falls_iff hn htimed (his i (by simp)) hout).mpr (.inr hdone)
  refine ⟨_, mem_pulses hout hfalls rfl, ?_⟩
  rcases highSince_run hn hs (fun j hj => his j (List.mem_append_left _ hj)) hout with
    hclock | ⟨_, _, _, -, -, hgt, hhigh, hsince⟩ <;> omega

/-- The first interval of an operation that has begun late. -/
theorem exists_pulse_of_late (hn : Fits n) (hs : PowerUp s)
    (his : ∀ j ∈ ps ++ i :: qs, j.reset = false) (haccepts : accepts (run step s ps) i = true)
    (hlate : n - n / 2 < phase (run step s ps)) (hlast : phase (run step s ps) < n)
    (hlength : n - phase (run step s ps) ≤ qs.length) :
    ∃ k ∈ collect Meter.step Meter.pulse ⟨0, none, s⟩ (ps ++ i :: qs), k < n / 2 := by
  obtain ⟨js, j, ks, rfl, hjs⟩ : ∃ js j ks, qs = js ++ j :: ks ∧
      js.length = n - phase (run step s ps) - 1 := by
    refine ⟨qs.take (n - phase (run step s ps) - 1), qs[n - phase (run step s ps) - 1],
      qs.drop (n - phase (run step s ps) - 1 + 1), ?_, ?_⟩
    · rw [← List.drop_eq_getElem_cons, List.take_append_drop]
    · rw [List.length_take]
      omega
  obtain ⟨hphase, hop, -, hhigh⟩ := late_run hn hs (his i (by simp)) haccepts (by omega)
    (fun k (hk : k ∈ js) => his k (by simp [hk])) (by omega)
  have htimed := (sound_run hn hs (ps ++ i :: js)).toTimed
  have hout := htimed.mdcOut_iff.mpr ⟨by omega, hop⟩
  have hfalls := (falls_iff hn htimed (his j (by simp)) hout).mpr (.inl (by omega))
  rw [← List.cons_append, ← List.append_assoc]
  exact ⟨_, mem_pulses hout hfalls rfl, by omega⟩

/-- Every other interval is long enough. -/
theorem pulse_le (hn : Fits n) (hs : PowerUp s) (his : ∀ j ∈ ps ++ i :: qs, j.reset = false)
    (hdone : ¬((run step s ps).opInProgress = true ∧ (run step s ps).fsmState = .done))
    (hlate : ∀ qs' j js, ps = qs' ++ j :: js →
      ¬(accepts (run step s qs') j = true ∧ n - n / 2 < phase (run step s qs') ∧
        phase (run step s qs') < n ∧ n - phase (run step s qs') ≤ js.length + 1)) :
    ∀ k ∈ Meter.pulse (run Meter.step ⟨0, none, s⟩ ps) i, n / 2 ≤ k := by
  intro k hk
  have h6 := hn.six_le
  have htimed := (sound_run hn hs ps).toTimed
  obtain ⟨hout, hfalls, rfl⟩ := mem_pulse_iff.mp hk
  rw [run_meter] at hout hfalls
  have hop := (htimed.mdcOut_iff.mp hout).2
  have hlast := ((falls_iff hn htimed (his i (by simp)) hout).mp hfalls).resolve_right
    fun hstate => hdone ⟨hop, hstate⟩
  rcases highSince_run hn hs (fun j hj => his j (List.mem_append_left _ hj)) hout with
    hclock | ⟨qs', j, js, rfl, haccepts, hgt, hhigh, hsince⟩
  · omega
  · -- the operation was accepted in time
    by_contra hlt
    exact hlate qs' j js rfl ⟨haccepts, by omega, by omega, by omega⟩

end Runts

/-- **The runts.** In a run from power-up without a reset, every high interval of `mdc_out` that
ends, and every low one between two high ones within an operation, lasts at least half a period if
no operation ends, and none is accepted when less than half a period is left of the high clock (and
the run goes on until the clock falls); and only then. -/
theorem noRunts_iff (hn : Fits n) {s : State (counterBits n)} (hs : PowerUp s) {is : List Inputs}
    (his : ∀ i ∈ is, i.reset = false) :
    NoRunts s is ↔ ∀ ps i qs, is = ps ++ i :: qs →
      ¬((run step s ps).opInProgress = true ∧ (run step s ps).fsmState = .done) ∧
      ¬(accepts (run step s ps) i = true ∧ n - n / 2 < phase (run step s ps) ∧
        phase (run step s ps) < n ∧ n - phase (run step s ps) ≤ qs.length) := by
  constructor
  · rintro ⟨hpulses, -⟩ ps i qs rfl
    refine ⟨fun ⟨hop, hdone⟩ => ?_, fun ⟨haccepts, hlate, hlast, hlength⟩ => ?_⟩
    · obtain ⟨k, hk, hlt⟩ := exists_pulse_of_done hn hs his hop hdone
      exact absurd (hpulses k hk) (Nat.not_le.mpr hlt)
    · obtain ⟨k, hk, hlt⟩ := exists_pulse_of_late hn hs his haccepts hlate hlast hlength
      exact absurd (hpulses k hk) (Nat.not_le.mpr hlt)
  · intro hcond
    refine ⟨fun k hk => ?_, fun k hk => ?_⟩ <;>
      obtain ⟨ps, i, qs, rfl, hmem⟩ := mem_collect_iff.mp hk
    · refine pulse_le hn hs his (hcond ps i qs rfl).1 (fun qs' j js heq => ?_) k hmem
      have hlate := (hcond qs' j (js ++ i :: qs) (by simp [heq])).2
      rw [List.length_append, List.length_cons] at hlate
      exact fun ⟨haccepts, hgt, hlast, hlength⟩ => hlate ⟨haccepts, hgt, hlast, by omega⟩
    · refine gap_le ?_ (lowSince_run hn hs fun j hj => his j (List.mem_append_left _ hj)) k hmem
      rw [run_meter]
      exact (sound_run hn hs ps).toTimed

/-- A request in the phase `4` of six: the clock is high for two cycles. -/
theorem not_noRunts_late :
    ¬NoRunts (initial (counterBits 6)) (List.replicate 4 quiet ++
      { quiet with sendMsgIn := true } :: List.replicate 2 quiet) := by
  intro h
  have hcond := (noRunts_iff ⟨by decide, by decide⟩ (powerUp_initial _) (by simp [quiet])).mp h _ _
    _ rfl
  exact hcond.2 (by decide)

/-- One operation, from power-up. -/
theorem not_noRunts :
    ¬∀ n : ℕ, Fits n → ∀ s : State (counterBits n), PowerUp s → ∀ is : List Inputs,
      (∀ i ∈ is, i.reset = false) → NoRunts s is := by
  intro h
  have hpulses := (h 6 ⟨by decide, by decide⟩ (initial _) (powerUp_initial _)
    ({ quiet with sendMsgIn := true } :: List.replicate 475 quiet)
    (List.forall_mem_cons.mpr ⟨rfl, fun i hi => by rw [List.eq_of_mem_replicate hi]; rfl⟩)).1
  revert hpulses
  decide +kernel

end RmiiEthernet.Mdio
