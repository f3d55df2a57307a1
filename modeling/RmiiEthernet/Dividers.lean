import RmiiEthernet.Mdio.Circuit
import RmiiEthernet.Sync.Divider
import RmiiEthernet.Uart.Rx
import RmiiEthernet.Uart.Tx
import Mathlib.Tactic.IntervalCases

/-!
# The periods of the clock dividers

The two sides of the UART and the management interface divide the clock by a ratio of two
frequencies. Each compares a counter with a constant that has as many bits as `log2_ceil` gives for
the ratio, or for the ratio less one. A power of two does not fit into these bits, nor does, for the
management interface, a power of two plus one; half the ratio must fit for the receiver.
-/

namespace RmiiEthernet

open Sync Utils

/-! ## Numbers in the bits of their logarithm -/

/-- A number in the bits of the number before. -/
theorem lt_two_pow_clog_pred_iff {v : ℕ} (hv : 2 ≤ v) :
    v < 2 ^ Nat.clog 2 (v - 1) ↔ ∀ k, v ≠ 2 ^ k ∧ v ≠ 2 ^ k + 1 := by
  constructor
  · intro h k
    constructor
    · rintro rfl
      have hle := Nat.clog_mono_right 2 (Nat.sub_le (2 ^ k) 1)
      rw [Nat.clog_pow 2 k Nat.one_lt_two] at hle
      exact absurd h (Nat.not_lt.mpr (Nat.pow_le_pow_right Nat.two_pos hle))
    · rintro rfl
      rw [Nat.add_sub_cancel, Nat.clog_pow 2 k Nat.one_lt_two] at h
      omega
  · intro h
    have hle := Nat.le_pow_clog Nat.one_lt_two (v - 1)
    have hk := h (Nat.clog 2 (v - 1))
    omega

theorem toNat_ofNat_eq_iff {w v : ℕ} : (BitVec.ofNat w v).toNat = v ↔ v < 2 ^ w := by
  rw [BitVec.toNat_ofNat, Nat.mod_eq_iff_lt (Nat.two_pow_pos w).ne']

/-- Half a number is a power of two if the number is one, or one more than one. -/
theorem half_ne_two_pow_iff {v : ℕ} (hv : 4 ≤ v) :
    (∀ k, v / 2 ≠ 2 ^ k) ↔ ∀ k, v ≠ 2 ^ k ∧ v ≠ 2 ^ k + 1 := by
  constructor
  · intro h k
    cases k with
    | zero => omega
    | succ k =>
      have hk := h k
      rw [Nat.pow_succ]
      omega
  · intro h k
    have hk := h (k + 1)
    rw [Nat.pow_succ] at hk
    omega

/-! ## The receiver -/

namespace AxiUartRx

/-- `C_BAUD_PERIOD_U` for `C_BAUD_PERIOD_INT` = `p`. -/
def baudPeriodU (p : ℕ) : BitVec (log2Ceil p) := BitVec.ofNat _ p

/-- `C_BAUD_HALF_PERIOD_U`. -/
def baudHalfPeriodU (p : ℕ) : BitVec (log2Ceil (p / 2)) := BitVec.ofNat _ (p / 2)

/-- The constants are what they are meant to be, and `baud_en` comes once in `p + 1` clocks in which
the counter is not cleared. -/
structure Divides (p : ℕ) : Prop where
  baudPeriod : (baudPeriodU p).toNat = p
  baudHalfPeriod : (baudHalfPeriodU p).toNat = p / 2
  baudEn (s : State (log2Ceil p) (log2Ceil (p / 2))) (hs : PowerUp s) :
    TicksEvery step (fun s i => i.reset || s.baudReset) State.baudEn s (p + 1)

variable {p : ℕ}

theorem periodReached_iff (hp : 2 ≤ p) {s : State (log2Ceil p) (log2Ceil (p / 2))} :
    periodReached s = decide (s.baudCounterU = baudPeriodU p) := by
  rw [periodReached, decide_eq_true (log2Ceil_pos hp), Bool.true_and]
  rfl

theorem ticksEvery_baudEn (hp : 2 ≤ p) {s : State (log2Ceil p) (log2Ceil (p / 2))}
    (hs : PowerUp s) :
    TicksEvery step (fun s i => i.reset || s.baudReset) State.baudEn s
      ((baudPeriodU p).toNat + 1) := by
  refine ticksEvery_of_divider (π := fun s : State _ _ => ⟨s.baudCounterU, s.baudEn⟩)
    (fun s i => ?_) hs.baudCounterU
  simp only [step, Divider.step, periodReached_iff hp, decide_eq_true_eq]

theorem divides_iff (hp : 4 ≤ p) : Divides p ↔ ∀ k, p ≠ 2 ^ k ∧ p ≠ 2 ^ k + 1 := by
  have hhalf : (baudHalfPeriodU p).toNat = p / 2 ↔ ∀ k, p ≠ 2 ^ k ∧ p ≠ 2 ^ k + 1 := by
    rw [baudHalfPeriodU, toNat_ofNat_eq_iff, lt_two_pow_log2Ceil_iff (by omega),
      half_ne_two_pow_iff hp]
  constructor
  · exact fun h => hhalf.mp h.baudHalfPeriod
  · intro h
    have hperiod : (baudPeriodU p).toNat = p := by
      rw [baudPeriodU, toNat_ofNat_eq_iff, lt_two_pow_log2Ceil_iff (by omega)]
      exact fun k => (h k).1
    refine ⟨hperiod, hhalf.mpr h, fun s hs => ?_⟩
    have hticks := ticksEvery_baudEn (by omega) hs
    rwa [hperiod] at hticks

end AxiUartRx

/-! ## The transmitter -/

namespace AxiUartTx

/-- The constant is what it is meant to be, and `baud_en` comes once in `p + 1` clocks. -/
structure Divides (p : ℕ) : Prop where
  baudPeriod : (baudPeriodU p).toNat = p
  baudEn (s : State (log2Ceil p)) (hs : PowerUp s) :
    TicksEvery step (fun _ i => i.reset) State.baudEn s (p + 1)

variable {p : ℕ}

theorem periodReached_iff (hp : 2 ≤ p) {s : State (log2Ceil p)} :
    periodReached s = decide (s.baudCounterU = baudPeriodU p) := by
  rw [periodReached, decide_eq_true (log2Ceil_pos hp), Bool.true_and]
  rfl

theorem ticksEvery_baudEn (hp : 2 ≤ p) {s : State (log2Ceil p)} (hs : PowerUp s) :
    TicksEvery step (fun _ i => i.reset) State.baudEn s ((baudPeriodU p).toNat + 1) := by
  refine ticksEvery_of_divider (π := fun s : State _ => ⟨s.baudCounterU, s.baudEn⟩) (fun s i => ?_)
    hs.baudCounterU
  simp only [step, Divider.step, periodReached_iff hp, decide_eq_true_eq]

theorem divides_iff (hp : 4 ≤ p) : Divides p ↔ ∀ k, p ≠ 2 ^ k := by
  have hperiod : (baudPeriodU p).toNat = p ↔ ∀ k, p ≠ 2 ^ k := by
    rw [baudPeriodU, toNat_ofNat_eq_iff, lt_two_pow_log2Ceil_iff (by omega)]
  constructor
  · exact fun h => hperiod.mp h.baudPeriod
  · intro h
    refine ⟨hperiod.mpr h, fun s hs => ?_⟩
    have hticks := ticksEvery_baudEn (by omega) hs
    rwa [hperiod.mpr h] at hticks

end AxiUartTx

/-! ## The management interface -/

namespace Mdio

/-- The constants are what they are meant to be, and `mdc_falling` comes once in `n + 1` clocks. -/
structure Divides (n : ℕ) : Prop where
  clkDivCount : (clkDivCountU n).toNat = n
  clkDivCountHalf : (clkDivCountHalfU n).toNat = n / 2
  mdcFalling (s : State (counterBits n)) (hs : PowerUp s) :
    TicksEvery step (fun _ i => i.reset) State.mdcFalling s (n + 1)

variable {n : ℕ}

theorem periodReached_iff (hn : 3 ≤ n) {s : State (counterBits n)} :
    periodReached s = decide (s.clkDivCounter = clkDivCountU n) := by
  have hbits : 0 < counterBits n := log2Ceil_pos (by omega)
  rw [periodReached, decide_eq_true hbits, Bool.true_and]
  rfl

theorem halfReached_iff (hn : 3 ≤ n) {s : State (counterBits n)} :
    halfReached s = decide (s.clkDivCounter = clkDivCountHalfU n) := by
  have hbits : 0 < counterBits n := log2Ceil_pos (by omega)
  rw [halfReached, decide_eq_true hbits, Bool.true_and]
  rfl

theorem ticksEvery_mdcFalling (hn : 3 ≤ n) {s : State (counterBits n)} (hs : PowerUp s) :
    TicksEvery step (fun _ i => i.reset) State.mdcFalling s ((clkDivCountU n).toNat + 1) := by
  refine ticksEvery_of_divider (π := fun s : State _ => ⟨s.clkDivCounter, s.mdcFalling⟩)
    (fun s i => ?_) hs.clkDivCounter
  simp only [step, Divider.step, periodReached_iff hn, Bool.or_eq_true, decide_eq_true_eq]
  congr 1
  by_cases hreset : i.reset = true <;> simp [hreset]

theorem toNat_clkDivCountU_iff (hn : 2 ≤ n) :
    (clkDivCountU n).toNat = n ↔ ∀ k, n ≠ 2 ^ k ∧ n ≠ 2 ^ k + 1 := by
  rw [clkDivCountU, counterBits, toNat_ofNat_eq_iff, log2Ceil_eq_clog,
    lt_two_pow_clog_pred_iff hn]

theorem toNat_clkDivCountHalfU (hn : 4 ≤ n) : (clkDivCountHalfU n).toNat = n / 2 := by
  rw [clkDivCountHalfU, counterBits, toNat_ofNat_eq_iff, log2Ceil_eq_clog]
  have hle := Nat.le_pow_clog Nat.one_lt_two (n - 1)
  omega

theorem divides_iff (hn : 4 ≤ n) : Divides n ↔ ∀ k, n ≠ 2 ^ k ∧ n ≠ 2 ^ k + 1 := by
  have hcount := toNat_clkDivCountU_iff (n := n) (by omega)
  constructor
  · exact fun h => hcount.mp h.clkDivCount
  · intro h
    refine ⟨hcount.mpr h, toNat_clkDivCountHalfU hn, fun s hs => ?_⟩
    have hticks := ticksEvery_mdcFalling (by omega) hs
    rwa [hcount.mpr h] at hticks

end Mdio

/-! ## All of them -/

/-- **The ratios that work.** The constants keep their values and the ticks come in time when
neither ratio is a power of two or one more than a power of two, and then only. -/
theorem divides_iff_ratios {clkRate baudRate clkFreq mdcFreq : ℕ} (hp : 4 ≤ clkRate / baudRate)
    (hn : 4 ≤ clkFreq / mdcFreq) :
    (AxiUartRx.Divides (clkRate / baudRate) ∧ AxiUartTx.Divides (clkRate / baudRate) ∧
        Mdio.Divides (clkFreq / mdcFreq)) ↔
      ∀ k, (clkRate / baudRate ≠ 2 ^ k ∧ clkRate / baudRate ≠ 2 ^ k + 1) ∧
        clkFreq / mdcFreq ≠ 2 ^ k ∧ clkFreq / mdcFreq ≠ 2 ^ k + 1 := by
  rw [AxiUartRx.divides_iff hp, AxiUartTx.divides_iff hp, Mdio.divides_iff hn]
  constructor
  · exact fun h k => ⟨h.1 k, h.2.2 k⟩
  · exact fun h => ⟨fun k => (h k).1, fun k => (h k).1.1, fun k => (h k).2⟩

/-- The ratios 868 and 250 work. -/
theorem divides_bench : AxiUartRx.Divides 868 ∧ AxiUartTx.Divides 868 ∧ Mdio.Divides 250 := by
  refine (divides_iff_ratios (show 4 ≤ 100000000 / 115200 by decide)
    (show 4 ≤ 50000000 / 200000 by decide)).mpr fun k => ?_
  by_cases hk : k < 10
  · interval_cases k <;> decide
  · have hpow := Nat.pow_le_pow_right Nat.two_pos (Nat.le_of_not_lt hk)
    norm_num at hpow ⊢
    omega

/-- With sixteen cycles a bit the constant of the receiver is zero. -/
theorem not_divides_sixteen :
    ¬ ∀ clkRate baudRate clkFreq mdcFreq : ℕ, 4 ≤ clkRate / baudRate → 4 ≤ clkFreq / mdcFreq →
      AxiUartRx.Divides (clkRate / baudRate) ∧ AxiUartTx.Divides (clkRate / baudRate) ∧
        Mdio.Divides (clkFreq / mdcFreq) := by
  intro h
  obtain ⟨hrx, -, -⟩ := h 16000000 1000000 50000000 200000 (by decide) (by decide)
  exact absurd hrx.baudPeriod (by decide)

end RmiiEthernet
