import RmiiEthernet.Dividers

/-!
# The phases of the divided clock

With constants that fit, the counter of the divider goes from `0` to `n` and starts again. The
divided clock is high in the phases above `n / 2`; the state machine steps at the end of the phase
`n / 2 + 1` and the line at the end of the phase `0`.

`Sound` is what holds in every reachable state: while nothing is sent, the line is high.
-/

namespace RmiiEthernet.Mdio

open Sync Utils

/-- The period keeps its value in the bits of the counter. -/
structure Fits (n : ℕ) : Prop where
  four_le : 4 ≤ n
  clkDivCount : (clkDivCountU n).toNat = n

variable {n : ℕ}

/-- Four and five do not fit. -/
theorem Fits.six_le (hn : Fits n) : 6 ≤ n := by
  have h4 := hn.four_le
  have h := (toNat_clkDivCountU_iff (by omega)).mp hn.clkDivCount 2
  omega

/-- The value of the counter. -/
def phase {w : ℕ} (s : State w) : ℕ := s.clkDivCounter.toNat

variable {s : State (counterBits n)} {i : Inputs}

theorem Fits.periodReached (hn : Fits n) : periodReached s = decide (phase s = n) := by
  have h4 := hn.four_le
  rw [periodReached_iff (by omega), decide_eq_decide]
  constructor
  · intro h
    rw [phase, h, hn.clkDivCount]
  · exact fun h => BitVec.eq_of_toNat_eq (h.trans hn.clkDivCount.symm)

theorem Fits.halfReached (hn : Fits n) : halfReached s = decide (phase s = n / 2) := by
  have h4 := hn.four_le
  have hhalf := toNat_clkDivCountHalfU h4
  rw [halfReached_iff (by omega), decide_eq_decide]
  constructor
  · intro h
    rw [phase, h, hhalf]
  · exact fun h => BitVec.eq_of_toNat_eq (h.trans hhalf.symm)

/-- The next phase. -/
theorem phase_step (hn : Fits n) (hle : phase s ≤ n) (hreset : i.reset = false) :
    phase (step s i) = if phase s = n then 0 else phase s + 1 := by
  have hlt : n < 2 ^ counterBits n := by
    have h := (clkDivCountU n).isLt
    rwa [hn.clkDivCount] at h
  have hcounter : (step s i).clkDivCounter = if phase s = n then 0 else s.clkDivCounter + 1 := by
    simp [step, hn.periodReached, hreset]
  rw [phase, hcounter]
  split
  · simp
  · next h =>
    refine toNat_add_one_of_ne fun hones => ?_
    rw [phase, hones, BitVec.toNat_allOnes] at h hle
    omega

/-- The divided clock and the tick on its rising edge. -/
structure Timed (s : State (counterBits n)) : Prop where
  phase_le : phase s ≤ n
  mdc : s.mdc = decide (n / 2 < phase s)
  mdcRising : s.mdcRising = decide (phase s = n / 2 + 1)

theorem Timed.step (hn : Fits n) (h : Timed s) : Timed (step s i) := by
  have h4 := hn.four_le
  have hle := h.phase_le
  cases hreset : i.reset with
  | true => constructor <;> simp [phase, Mdio.step, hreset]
  | false =>
    have hmdc : (Mdio.step s i).mdc = (halfReached s || (!periodReached s && s.mdc)) := by
      simp [Mdio.step, hreset]
    have hrising : (Mdio.step s i).mdcRising = halfReached s := by simp [Mdio.step, hreset]
    rw [hn.halfReached, hn.periodReached, h.mdc] at hmdc
    rw [hn.halfReached] at hrising
    have hphase := phase_step hn h.phase_le hreset
    constructor
    · rw [hphase]
      split <;> omega
    · rw [hmdc, hphase]
      split <;> grind
    · rw [hrising, hphase]
      split <;> grind

/-- The tick on the falling edge comes with the phase `0`. -/
theorem Timed.mdcFalling_step (hn : Fits n) (h : Timed s) (hreset : i.reset = false) :
    (Mdio.step s i).mdcFalling = decide (phase (Mdio.step s i) = 0) := by
  have hfalling : (Mdio.step s i).mdcFalling = periodReached s := by simp [Mdio.step, hreset]
  rw [hfalling, hn.periodReached, phase_step hn h.phase_le hreset]
  split <;> simp [*]

/-! ## The line while nothing is sent -/

theorem line_reset (hreset : i.reset = true) : line (step s i) = true := by
  simp [line, step, hreset]

theorem line_step (hreset : i.reset = false) :
    line (step s i) =
      if s.mdcFalling then mdioTristateComb s || mdioOutputComb s else line s := by
  simp only [line, step, hreset]
  split <;> simp

theorem fsmState_step (hreset : i.reset = false) :
    (step s i).fsmState = if s.mdcRising then nextState s else s.fsmState := by
  simp [step, hreset]

/-- What holds in every reachable state. A tick on the falling edge is missing only after a reset,
when the machine is idle. -/
structure Sound (s : State (counterBits n)) : Prop extends Timed s where
  mdcFalling : s.fsmState ≠ .idle → phase s = 0 → s.mdcFalling = true
  line_idle : s.fsmState = .idle → line s = true
  line_done : s.fsmState = .done → 1 ≤ phase s → phase s ≤ n / 2 + 1 → line s = true

theorem sound_powerUp (hs : PowerUp s) : Sound s := by
  have hphase : phase s = 0 := by simp [phase, hs.clkDivCounter]
  refine ⟨⟨by omega, ?_, ?_⟩, ?_, ?_, ?_⟩
  · simp [hs.mdc, hphase]
  · simp [hs.mdcRising, hphase]
  · exact fun h => absurd hs.fsmState h
  · simp [line, hs.mdioTristateOut]
  · intro h
    rw [hs.fsmState] at h
    cases h

/-- A line that is high stays high while the machine is idle or done. -/
theorem line_step_eq_true (hreset : i.reset = false) (hline : s.mdcFalling = false → line s = true)
    (hstate : s.fsmState = .idle ∨ s.fsmState = .done) : line (step s i) = true := by
  rw [line_step hreset]
  split
  · rcases hstate with h | h <;> simp [mdioTristateComb, mdioOutputComb, h]
  · next h => exact hline (by simpa using h)

theorem idle_or_done_of_nextState (h : nextState s = .idle) :
    s.fsmState = .idle ∨ s.fsmState = .done := by
  unfold nextState at h
  split at h
  · exact .inl ‹_›
  all_goals try split at h
  all_goals first
    | exact .inr ‹_›
    | cases h

theorem Sound.step (hn : Fits n) (h : Sound s) : Sound (step s i) := by
  have h4 := hn.four_le
  have htimed := h.toTimed.step hn (i := i)
  cases hreset : i.reset with
  | true =>
    have hidle : (Mdio.step s i).fsmState = .idle := by simp [Mdio.step, hreset]
    refine ⟨htimed, fun hne => absurd hidle hne, fun _ => line_reset hreset, fun _ _ _ =>
      line_reset hreset⟩
  | false =>
    have hphase := phase_step hn h.phase_le hreset
    have hstate := fsmState_step (s := s) hreset
    rw [h.mdcRising] at hstate
    refine ⟨htimed, fun _ hzero => ?_, fun hidle => ?_, fun hdone hpos hhalf => ?_⟩
    · rw [h.toTimed.mdcFalling_step hn hreset, hzero]
      rfl
    · rw [hidle] at hstate
      by_cases hrising : phase s = n / 2 + 1
      · -- the machine was idle, or done since the last tick
        simp only [hrising, decide_true, if_true] at hstate
        rcases idle_or_done_of_nextState hstate.symm with hs | hs
        · exact line_step_eq_true hreset (fun _ => h.line_idle hs) (.inl hs)
        · exact line_step_eq_true hreset (fun _ => h.line_done hs (by omega) (by omega)) (.inr hs)
      · simp only [hrising, decide_false, Bool.false_eq_true, if_false] at hstate
        exact line_step_eq_true hreset (fun _ => h.line_idle hstate.symm) (.inl hstate.symm)
    · rw [hphase] at hpos hhalf
      have hne : phase s ≠ n := fun heq => by simp [heq] at hpos
      have hrising : phase s ≠ n / 2 + 1 := by
        rw [if_neg hne] at hhalf
        omega
      rw [hdone] at hstate
      simp only [hrising, decide_false, Bool.false_eq_true, if_false] at hstate
      refine line_step_eq_true hreset (fun hfalling => ?_) (.inr hstate.symm)
      refine h.line_done hstate.symm (Nat.pos_of_ne_zero fun hzero => ?_) (by
        rw [if_neg hne] at hhalf
        omega)
      rw [h.mdcFalling (by simp [← hstate]) hzero] at hfalling
      cases hfalling

theorem sound_run (hn : Fits n) (hs : PowerUp s) (is : List Inputs) : Sound (run step s is) :=
  run_invariant (fun _ _ h _ => h.step hn) (sound_powerUp hs)
    (always_of_forall (P := fun _ => True) (by simp) s)

/-! ## The acceptance of an operation -/

theorem idle_of_accepts (haccepts : accepts s i = true) :
    s.fsmState = .idle ∧ s.opInProgress = false := by
  simp only [accepts, ready, Bool.and_eq_true, Bool.not_eq_true', beq_iff_eq] at haccepts
  exact ⟨haccepts.2.2, haccepts.2.1⟩

theorem fsmState_accepted (hreset : i.reset = false) (haccepts : accepts s i = true) :
    (step s i).fsmState = .idle := by
  obtain ⟨hidle, hprog⟩ := idle_of_accepts haccepts
  rw [fsmState_step hreset, nextState, hidle]
  simp [hprog]

theorem opInProgress_accepted (hreset : i.reset = false) (haccepts : accepts s i = true) :
    (step s i).opInProgress = true := by
  obtain ⟨hidle, -⟩ := idle_of_accepts haccepts
  simp [step, hreset, opFinishedComb, hidle, haccepts]

end RmiiEthernet.Mdio
