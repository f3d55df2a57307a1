import RmiiEthernet.Sync.Ring
import RmiiEthernet.Sync.Run
import RmiiEthernet.Utils

/-!
# The UART transmitter

`axi_uart_tx` keeps one byte and sends it bit by bit, one at every tick of a counter. The byte is
given back (`tx_done`) with its last bit, so that the next one can be taken while the stop bit is on
the line.

In the cycle after a byte has been taken no other one is (`ready_step`), and the transmitter is
ready again after a bounded number of cycles, if the counter has any bits (`rank_step`).
-/

namespace RmiiEthernet.AxiUartTx

open Sync Utils

/-! ## The circuit -/

/-- `t_state`. -/
inductive FsmState
  | idle
  | startBit
  | data
  | stopBit
  deriving DecidableEq

/-- The input ports in one cycle. -/
structure Inputs where
  reset : Bool
  sAxiTdataIn : BitVec 8
  sAxiTvalidIn : Bool

/-- The registers, for a baud counter of `w` bits and frames of eight. -/
structure State (w : ℕ) where
  txData : BitVec 8
  txDataValid : Bool
  txDone : Bool
  baudCounterU : BitVec w
  baudEn : Bool
  state : FsmState
  txBitCountU : BitVec 3
  txOut : Bool

/-- `C_BAUD_PERIOD_U` for `C_BAUD_PERIOD_INT` = `p`, cut to the bits of the counter. -/
def baudPeriodU (p : ℕ) : BitVec (log2Ceil p) := BitVec.ofNat _ p

/-- `C_FRAME_LENGTH_MINUS_1_U`, for eight bits. -/
def frameLengthMinus1U : BitVec 3 := 7

section Signals

variable {p : ℕ} (s : State (log2Ceil p)) (i : Inputs)

/-- The counter has come to the period. Vectors without bits are never equal. -/
def periodReached : Bool := decide (0 < log2Ceil p) && s.baudCounterU == baudPeriodU p

/-- `ready`: the byte in the register has been sent, or there is none. -/
def ready : Bool := s.txDone || !s.txDataValid

/-- The last bit is sent. -/
def lastBit : Bool := s.state == .data && (s.baudEn && s.txBitCountU == frameLengthMinus1U)

/-- The next state of the state machine when there is no reset. -/
def advance : FsmState :=
  match s.state with
  | .idle => if s.baudEn && s.txDataValid then .startBit else .idle
  | .startBit => if s.baudEn then .data else .startBit
  | .data => if lastBit s then .stopBit else .data
  | .stopBit => if s.baudEn then .idle else .stopBit

/-- One clock edge. -/
def step : State (log2Ceil p) where
  -- the baud enable
  baudCounterU := if i.reset then 0 else if periodReached s then 0 else s.baudCounterU + 1
  baudEn := !i.reset && periodReached s
  -- the input register
  txData := if ready s then i.sAxiTdataIn else s.txData
  txDataValid := !i.reset && if ready s then i.sAxiTvalidIn else s.txDataValid
  -- the state machine
  txDone := !i.reset && lastBit s
  state := if i.reset then .idle else advance s
  txBitCountU :=
    match s.state with
    | .idle => 0
    | .data => if s.baudEn then s.txBitCountU + 1 else s.txBitCountU
    | .startBit | .stopBit => s.txBitCountU
  txOut :=
    match s.state with
    | .idle | .stopBit => true
    | .startBit => false
    | .data => s.txData.getLsbD s.txBitCountU.toNat

end Signals

/-- The initial values of the registers that have one, and a baud enable that is not `'1'`. -/
structure PowerUp {w : ℕ} (s : State w) : Prop where
  txDataValid : s.txDataValid = false
  txDone : s.txDone = false
  baudCounterU : s.baudCounterU = 0
  baudEn : s.baudEn = false
  state : s.state = .idle

/-! ## When it is ready -/

section Ready

variable {p : ℕ} {s : State (log2Ceil p)} {i : Inputs}

/-- A frame is sent of a byte that is kept, and given back at its end. -/
structure Regular (s : State (log2Ceil p)) : Prop where
  busy : s.state = .startBit ∨ s.state = .data → s.txDataValid = true
  done : s.txDone = true → s.state = .stopBit

theorem regular_powerUp (h : PowerUp s) : Regular s := by
  constructor
  · simp [h.state]
  · simp [h.txDone]

theorem Regular.ready_eq (h : Regular s) (hstate : s.state = .startBit ∨ s.state = .data) :
    ready s = false := by
  have hdone : s.txDone = false := by
    by_contra hne
    have := h.done (by simpa using hne)
    simp [this] at hstate
  simp [ready, hdone, h.busy hstate]

theorem Regular.lastBit_eq (h : Regular s) (hready : ready s = true) : lastBit s = false := by
  cases hstate : s.state with
  | data => simp [h.ready_eq (.inr hstate)] at hready
  | idle | startBit | stopBit => simp [lastBit, hstate]

theorem Regular.step (h : Regular s) : Regular (step s i) := by
  constructor
  · intro hnext
    cases hreset : i.reset with
    | true => simp [AxiUartTx.step, hreset] at hnext
    | false =>
      -- the byte of a frame that begins or goes on is kept
      have hkept : s.txDataValid = true ∧ ready s = false := by
        cases hstate : s.state with
        | startBit => exact ⟨h.busy (.inl hstate), h.ready_eq (.inl hstate)⟩
        | data => exact ⟨h.busy (.inr hstate), h.ready_eq (.inr hstate)⟩
        | stopBit =>
          cases hen : s.baudEn <;> simp [AxiUartTx.step, hreset, advance, hstate, hen] at hnext
        | idle =>
          have hvalid : s.txDataValid = true := by
            by_contra hne
            simp [AxiUartTx.step, hreset, advance, hstate, hne] at hnext
          have hdone : s.txDone = false := by
            by_contra hne
            have := h.done (by simpa using hne)
            simp [this] at hstate
          exact ⟨hvalid, by simp [ready, hdone, hvalid]⟩
      simp [AxiUartTx.step, hreset, hkept]
  · intro hdone
    simp only [AxiUartTx.step, Bool.and_eq_true, Bool.not_eq_true'] at hdone ⊢
    obtain ⟨hreset, hlast⟩ := hdone
    have hstate : s.state = .data := by
      simp only [lastBit, Bool.and_eq_true, beq_iff_eq] at hlast
      exact hlast.1
    simp [hreset, advance, hstate, hlast]

/-- **Never ready twice**: in the cycle after a byte has been taken no other one is. -/
theorem Regular.ready_step (h : Regular s) (hreset : i.reset = false) (hready : ready s = true)
    (hvalid : i.sAxiTvalidIn = true) : ready (AxiUartTx.step s i) = false := by
  simp [ready, AxiUartTx.step, hreset, h.lastBit_eq hready, hvalid]

/-- How many ticks the byte still needs. -/
def ticksLeft (s : State (log2Ceil p)) : ℕ :=
  match s.state with
  | .idle => 10
  | .startBit => 9 - s.txBitCountU.toNat
  | .data => 8 - s.txBitCountU.toNat
  | .stopBit => 11

/-- How many cycles there are to the next tick. -/
def cyclesToTick (s : State (log2Ceil p)) : ℕ :=
  if s.baudEn then 0 else (baudPeriodU p - s.baudCounterU).toNat + 1

/-- How many cycles, at most, until the transmitter is ready. -/
def rank (s : State (log2Ceil p)) : ℕ :=
  if ready s then 0 else ticksLeft s * (2 ^ log2Ceil p + 1) + cyclesToTick s

theorem cyclesToTick_le (s : State (log2Ceil p)) : cyclesToTick s ≤ 2 ^ log2Ceil p := by
  unfold cyclesToTick
  split
  · exact Nat.zero_le _
  · exact (baudPeriodU p - s.baudCounterU).isLt

/-- A tick comes nearer. -/
theorem cyclesToTick_step (hp : 2 ≤ p) (hreset : i.reset = false) (hen : s.baudEn = false) :
    cyclesToTick (step s i) < cyclesToTick s := by
  have hw := log2Ceil_pos hp
  cases hreached : periodReached s with
  | true => simp [cyclesToTick, step, hreset, hreached, hen]
  | false =>
    have hne : s.baudCounterU ≠ baudPeriodU p := by
      simpa [periodReached, hw] using hreached
    obtain ⟨n, hn⟩ : ∃ n, (baudPeriodU p - s.baudCounterU).toNat = n + 1 := by
      refine Nat.exists_eq_succ_of_ne_zero fun hzero => hne ?_
      have hsub : baudPeriodU p - s.baudCounterU = 0 := BitVec.eq_of_toNat_eq hzero
      exact (sub_eq_zero.mp hsub).symm
    have hnext : (baudPeriodU p - (s.baudCounterU + 1)).toNat = n := by
      rw [← BitVec.sub_sub]
      exact toNat_sub_one_of_eq hn
    have hcounter : (step s i).baudCounterU = s.baudCounterU + 1 := by
      simp [step, hreset, hreached]
    have hen' : (step s i).baudEn = false := by simp [step, hreset, hreached]
    rw [cyclesToTick, cyclesToTick, hen, hen', hcounter, hnext, hn]
    exact Nat.lt_succ_self _

/-- A tick sends the next bit, or gives the byte back. -/
theorem ticksLeft_step (hreset : i.reset = false) (hready : ready s = false) :
    (s.baudEn = false → ticksLeft (step s i) = ticksLeft s) ∧
      (s.baudEn = true → ready (step s i) = true ∨ ticksLeft (step s i) + 1 = ticksLeft s) := by
  have hvalid : s.txDataValid = true := by
    by_contra hne
    simp [ready, hne] at hready
  constructor
  · intro hen
    cases hstate : s.state <;>
      simp [ticksLeft, step, hreset, advance, lastBit, hstate, hen]
  · intro hen
    cases hstate : s.state with
    | idle => exact .inr (by simp [ticksLeft, step, hreset, advance, hstate, hen, hvalid])
    | startBit =>
      have hlt := s.txBitCountU.isLt
      refine .inr ?_
      simp only [ticksLeft, step, hreset, advance, hstate, hen]
      simp
      omega
    | stopBit => exact .inr (by simp [ticksLeft, step, hreset, advance, hstate, hen])
    | data =>
      cases hlast : lastBit s with
      | true => exact .inl (by simp [ready, step, hreset, hlast])
      | false =>
        have hne : s.txBitCountU ≠ BitVec.allOnes 3 := by
          simpa [lastBit, hstate, hen, frameLengthMinus1U] using hlast
        have hnext : (step s i).txBitCountU.toNat = s.txBitCountU.toNat + 1 := by
          simp only [step, hstate, hen, if_true]
          exact toNat_add_one_of_ne hne
        have hlt := (step s i).txBitCountU.isLt
        have hstate' : (step s i).state = .data := by simp [step, hreset, advance, hstate, hlast]
        refine .inr ?_
        rw [ticksLeft, ticksLeft, hstate, hstate']
        simp only
        omega

/-- **The transmitter gets ready**: while it is not, it comes nearer. -/
theorem rank_step (hp : 2 ≤ p) (hreset : i.reset = false) (hready : ready s = false) :
    rank (step s i) < rank s := by
  obtain ⟨hwait, htick⟩ := ticksLeft_step hreset hready (i := i)
  have hle := cyclesToTick_le (step s i)
  have hpos : 0 < ticksLeft s := by
    have hlt := s.txBitCountU.isLt
    unfold ticksLeft
    split <;> omega
  have hrank : rank s = ticksLeft s * (2 ^ log2Ceil p + 1) + cyclesToTick s := by
    rw [rank, hready, if_neg (by simp)]
  have hrank' : rank (step s i) ≤
      ticksLeft (step s i) * (2 ^ log2Ceil p + 1) + cyclesToTick (step s i) := by
    unfold rank
    split
    · exact Nat.zero_le _
    · exact le_rfl
  cases hen : s.baudEn with
  | false =>
    have hless := cyclesToTick_step hp hreset hen (i := i)
    rw [hwait hen] at hrank'
    omega
  | true =>
    rcases htick hen with hnext | hnext
    · have hmul := Nat.mul_pos hpos (Nat.succ_pos (2 ^ log2Ceil p))
      rw [hrank, rank, hnext, if_pos rfl]
      exact Nat.add_pos_left hmul _
    · rw [← hnext, Nat.add_mul, Nat.one_mul] at hrank
      omega

theorem rank_le (s : State (log2Ceil p)) : rank s ≤ 12 * (2 ^ log2Ceil p + 1) := by
  have hle := cyclesToTick_le s
  have hticks : ticksLeft s ≤ 11 := by
    unfold ticksLeft
    split <;> omega
  unfold rank
  split
  · exact Nat.zero_le _
  · have := Nat.mul_le_mul_right (2 ^ log2Ceil p + 1) hticks
    omega

end Ready

end RmiiEthernet.AxiUartTx
