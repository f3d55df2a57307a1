import RmiiEthernet.Sync.Ring
import RmiiEthernet.Sync.Run

/-!
# Clock dividers

A divider counts up to a period, starts again from zero and then raises a tick for one cycle. It
ticks once in any `period + 1` edges in a row at which it is not cleared (`ticksEvery_of_divider`),
whatever has come before.
-/

namespace RmiiEthernet.Sync

variable {w : ℕ} {S I : Type*}

/-- The counter of a divider, and its tick. -/
structure Divider (w : ℕ) where
  counter : BitVec w
  tick : Bool

namespace Divider

/-- One clock edge. -/
def step (period : BitVec w) (d : Divider w) (clear : Bool) : Divider w where
  counter := if clear then 0 else if d.counter = period then 0 else d.counter + 1
  tick := !clear && decide (d.counter = period)

/-- The tick that an edge raises. -/
def raised (period : BitVec w) (d : Divider w) (clear : Bool) : List Unit :=
  if (d.step period clear).tick then [()] else []

variable {period : BitVec w} {d : Divider w}

/-- Below the period the counter counts. -/
theorem counter_add_one (h : d.counter.toNat ≤ period.toNat) (hne : d.counter ≠ period) :
    (d.counter + 1).toNat = d.counter.toNat + 1 := by
  have hlt : d.counter.toNat < period.toNat :=
    lt_of_le_of_ne h fun heq => hne (BitVec.eq_of_toNat_eq heq)
  refine toNat_add_one_of_ne fun hones => ?_
  have hp := period.isLt
  rw [hones, BitVec.toNat_allOnes] at hlt
  omega

theorem counter_le_step (h : d.counter.toNat ≤ period.toNat) (clear : Bool) :
    (d.step period clear).counter.toNat ≤ period.toNat := by
  cases clear with
  | true => simp [step]
  | false =>
    by_cases heq : d.counter = period
    · simp [step, heq]
    · have hne : d.counter.toNat ≠ period.toNat := fun hne => heq (BitVec.eq_of_toNat_eq hne)
      simp only [step, Bool.false_eq_true, if_false, heq, counter_add_one h heq]
      omega

theorem counter_le_run (h : d.counter.toNat ≤ period.toNat) (clears : List Bool) :
    (run (step period) d clears).counter.toNat ≤ period.toNat := by
  induction clears generalizing d with
  | nil => exact h
  | cons clear clears ih => exact ih (counter_le_step h clear)

/-- **The ticks of `n` edges**: one for each time the counter passes the period. -/
theorem ticks_eq (h : d.counter.toNat ≤ period.toNat) (n : ℕ) :
    (collect (step period) (raised period) d (List.replicate n false)).length =
      (d.counter.toNat + n) / (period.toNat + 1) := by
  induction n generalizing d with
  | zero => exact (Nat.div_eq_of_lt (Nat.lt_succ_of_le h)).symm
  | succ n ih =>
    rw [List.replicate_succ, collect_cons, List.length_append, ih (counter_le_step h false)]
    by_cases heq : d.counter = period
    · have hsum : d.counter.toNat + (n + 1) = n + (period.toNat + 1) := by
        rw [heq]
        omega
      rw [hsum, Nat.add_div_right n (Nat.succ_pos _)]
      simp [raised, step, heq, Nat.add_comm]
    · have hnext : (d.step period false).counter.toNat = d.counter.toNat + 1 := by
        simp only [step, Bool.false_eq_true, if_false, heq, counter_add_one h heq]
      have hsum : d.counter.toNat + 1 + n = d.counter.toNat + (n + 1) := by omega
      rw [hnext, hsum]
      simp [raised, step, heq]

end Divider

/-- In every run from `s`, any `n` edges in a row without `clear` raise `tick` exactly once. -/
def TicksEvery (step : S → I → S) (clear : S → I → Bool) (tick : S → Bool) (s : S) (n : ℕ) :
    Prop :=
  ∀ is js, js.length = n → Always step (fun s i => clear s i = false) (run step s is) js →
    (collect step (fun s i => if tick (step s i) then [()] else []) (run step s is) js).length = 1

/-- **A divider ticks once in a period**, as a part of any machine. -/
theorem ticksEvery_of_divider {step : S → I → S} {clear : S → I → Bool} {π : S → Divider w}
    {period : BitVec w} (hπ : ∀ s i, π (step s i) = (π s).step period (clear s i)) {s : S}
    (hs : (π s).counter = 0) :
    TicksEvery step clear (fun s => (π s).tick) s (period.toNat + 1) := by
  intro is js hlength hclear
  have hle : (π (run step s is)).counter.toNat ≤ period.toNat := by
    rw [← run_component hπ]
    exact Divider.counter_le_run (by simp [hs]) _
  have hinputs : inputs step clear (run step s is) js = List.replicate js.length false := by
    clear hlength hle
    generalize run step s is = t at hclear
    induction js generalizing t with
    | nil => rfl
    | cons j js ih => rw [inputs_cons, hclear.1, ih _ hclear.2, List.length_cons,
        List.replicate_succ]
  have hticks := Divider.ticks_eq hle js.length
  rw [← hinputs, collect_component hπ, hlength, Nat.add_div_right _ (Nat.succ_pos _),
    Nat.div_eq_of_lt (Nat.lt_succ_of_le hle)] at hticks
  simpa only [Divider.raised, ← hπ] using hticks

end RmiiEthernet.Sync
