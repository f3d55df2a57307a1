import RmiiEthernet.Sync.Run
import RmiiEthernet.Utils

/-!
# The UART receiver

`axi_uart_rx` waits for a low line, lets half a bit pass and then takes eight bits, one at every
tick of a counter. Both counters have as many bits as their periods need, and vectors without bits
are never equal: a receiver for less than four cycles a bit gives no byte (`four_le_of_valid`).
-/

namespace RmiiEthernet.AxiUartRx

open Sync Utils

/-- `t_state`. -/
inductive FsmState
  | idle
  | data
  | stopBit
  deriving DecidableEq

/-- The input ports in one cycle. -/
structure Inputs where
  reset : Bool
  rxIn : Bool

/-- The registers, for counters of `w` and `v` bits and frames of eight. -/
structure State (w v : ℕ) where
  rxInR : Bool
  rxInRr : Bool
  rxInRrr : Bool
  baudCounterU : BitVec w
  baudEn : Bool
  baudReset : Bool
  state : FsmState
  startCounterU : BitVec v
  rxBitCountU : BitVec 3
  rxBuffer : BitVec 8
  sAxiTvalidOut : Bool

section Signals

variable {p : ℕ} (s : State (log2Ceil p) (log2Ceil (p / 2))) (i : Inputs)

/-- The baud counter has come to the period. -/
def periodReached : Bool := decide (0 < log2Ceil p) && s.baudCounterU == BitVec.ofNat _ p

/-- The start counter has come to half a period. -/
def halfReached : Bool :=
  decide (0 < log2Ceil (p / 2)) && s.startCounterU == BitVec.ofNat _ (p / 2)

/-- The last bit is taken. -/
def lastBit : Bool := s.state == .data && (s.baudEn && s.rxBitCountU == 7)

/-- The next state of the state machine when there is no reset. -/
def advance : FsmState :=
  match s.state with
  | .idle => if !s.rxInRrr && halfReached s then .data else .idle
  | .data => if lastBit s then .stopBit else .data
  | .stopBit => if s.baudEn then .idle else .stopBit

/-- One clock edge. -/
def step : State (log2Ceil p) (log2Ceil (p / 2)) where
  -- the synchroniser
  rxInR := i.rxIn
  rxInRr := s.rxInR
  rxInRrr := s.rxInRr
  -- the baud enable
  baudCounterU :=
    if i.reset || s.baudReset then 0 else if periodReached s then 0 else s.baudCounterU + 1
  baudEn := !(i.reset || s.baudReset) && periodReached s
  -- the state machine
  baudReset := s.state == .idle && !(!s.rxInRrr && halfReached s)
  state := if i.reset then .idle else advance s
  startCounterU :=
    if s.state = .idle then if s.rxInRrr then 0 else s.startCounterU + 1 else s.startCounterU
  rxBitCountU :=
    match s.state with
    | .idle => 0
    | .data => if s.baudEn then s.rxBitCountU + 1 else s.rxBitCountU
    | .stopBit => s.rxBitCountU
  sAxiTvalidOut := !i.reset && lastBit s
  -- the shift register
  rxBuffer :=
    if s.baudEn && s.state == .data then BitVec.ofBool s.rxInRrr ++ s.rxBuffer.extractLsb' 1 7
    else s.rxBuffer

end Signals

/-- The initial values of the registers that have one. A bit without an initial value is not
`'1'`. -/
structure PowerUp {w v : ℕ} (s : State w v) : Prop where
  rxInR : s.rxInR = false
  rxInRr : s.rxInRr = false
  rxInRrr : s.rxInRrr = false
  baudCounterU : s.baudCounterU = 0
  baudEn : s.baudEn = false
  baudReset : s.baudReset = false
  state : s.state = .idle
  startCounterU : s.startCounterU = 0
  rxBitCountU : s.rxBitCountU = 0
  rxBuffer : s.rxBuffer = 0
  sAxiTvalidOut : s.sAxiTvalidOut = false

section Ratio

variable {p : ℕ} {s : State (log2Ceil p) (log2Ceil (p / 2))} {i : Inputs}

/-- No byte has begun or ended. -/
def Silent (s : State (log2Ceil p) (log2Ceil (p / 2))) : Prop :=
  s.state = .idle ∧ s.sAxiTvalidOut = false

/-- Without bits in the start counter none will. -/
theorem Silent.step (hp : log2Ceil (p / 2) = 0) (h : Silent s) : Silent (step s i) := by
  obtain ⟨hstate, -⟩ := h
  constructor
  · simp [AxiUartRx.step, advance, hstate, halfReached, hp]
  · simp [AxiUartRx.step, lastBit, hstate]

/-- **A byte takes four cycles a bit**, at least. -/
theorem four_le_of_valid (h : PowerUp s) (is : List Inputs)
    (hvalid : (run step s is).sAxiTvalidOut = true) : 4 ≤ p := by
  by_contra hlt
  have hp : log2Ceil (p / 2) = 0 := by
    rw [log2Ceil_eq_clog]
    exact Nat.clog_of_right_le_one (by omega) 2
  have hsilent : Silent (run step s is) :=
    run_invariant (fun _ _ hs _ => hs.step hp) ⟨h.state, h.sAxiTvalidOut⟩
      (always_of_forall (P := fun _ => True) (by simp) s)
  exact Bool.false_ne_true (hsilent.2.symm.trans hvalid)

end Ratio

end RmiiEthernet.AxiUartRx
