import RmiiEthernet.Uart.Samples

/-!
# The UART in a loop

The output of the transmitter is wired to the input of the receiver. In every cycle the transmitter
has decided on the line for some cycles to come (`ahead`): the rest of the frame it sends, and the
idle bit. What the receiver makes of its synchroniser and these bits are the bytes under way
(`Carries`); a byte that waits for its frame comes after them. So the bytes received are the bytes
accepted, in order, and each comes out in the end (`loopback`).
-/

namespace RmiiEthernet

open Sync Utils

/-! ## The line of the transmitter -/

namespace AxiUartTx

variable {p : ℕ} {s : State (log2Ceil p)} {i : Inputs}

theorem periodReached_eq (hp : AxiUartRx.Fits p) :
    periodReached s = decide (s.baudCounterU.toNat = p) := by
  have h6 := hp.six_le
  rw [periodReached_iff (by omega), decide_eq_decide]
  constructor
  · exact fun h => (congrArg BitVec.toNat h).trans hp.baudPeriod
  · exact fun h => BitVec.eq_of_toNat_eq (h.trans hp.baudPeriod.symm)

/-- What holds in every reachable state: a tick comes with the counter at zero, and a frame begins
with the first bit. -/
structure Clocked (s : State (log2Ceil p)) : Prop extends Regular s where
  baudCounterU : s.baudCounterU.toNat ≤ p
  baudEn : s.baudEn = true → s.baudCounterU.toNat = 0
  txBitCountU : s.state = .startBit → s.txBitCountU = 0

/-- The cycles that are left of the bit. -/
def left (s : State (log2Ceil p)) : ℕ := if s.baudEn then 1 else p + 2 - s.baudCounterU.toNat

/-- What the state puts on the line. -/
def bit (s : State (log2Ceil p)) : Bool :=
  match s.state with
  | .idle | .stopBit => true
  | .startBit => false
  | .data => s.txData.getLsbD s.txBitCountU.toNat

/-- What comes after the bit. -/
def following (s : State (log2Ceil p)) : List Bool :=
  match s.state with
  | .idle => []
  | .startBit => AxiUartRx.bitsFrom p s.txData 8
  | .data => AxiUartRx.bitsFrom p s.txData (7 - s.txBitCountU.toNat)
  | .stopBit => List.replicate (p + 1) true

/-- The line for the cycles after this one, as far as it is decided. -/
def ahead (s : State (log2Ceil p)) : List Bool := List.replicate (left s) (bit s) ++ following s

/-- The byte whose frame is decided on in this cycle. -/
def started (s : State (log2Ceil p)) (_ : Inputs) : List (BitVec 8) :=
  if s.state = .idle ∧ s.baudEn = true ∧ s.txDataValid = true then [s.txData] else []

/-- What is decided on in this cycle. -/
def decided (s : State (log2Ceil p)) : List Bool :=
  if s.state = .idle ∧ s.baudEn = true then
    if s.txDataValid then AxiUartRx.frame p s.txData else List.replicate (p + 1) true
  else []

/-- The byte that waits for its frame. -/
def waiting (s : State (log2Ceil p)) : List (BitVec 8) :=
  if s.txDataValid = true ∧ s.txDone = false ∧ (s.state = .idle ∨ s.state = .stopBit) then
    [s.txData]
  else []

/-- The byte that is accepted. -/
def accepted (s : State (log2Ceil p)) (i : Inputs) : List (BitVec 8) :=
  if ready s && i.sAxiTvalidIn then [i.sAxiTdataIn] else []

/-- The baud counter, without a reset. -/
theorem baudCounterU_step (hp : AxiUartRx.Fits p) (h : Clocked s) (hreset : i.reset = false) :
    (step s i).baudCounterU.toNat =
        (if s.baudCounterU.toNat = p then 0 else s.baudCounterU.toNat + 1) ∧
      (step s i).baudEn = decide (s.baudCounterU.toNat = p) := by
  have hle := h.baudCounterU
  have hcounter : (step s i).baudCounterU =
      if s.baudCounterU.toNat = p then 0 else s.baudCounterU + 1 := by
    simp [step, hreset, periodReached_eq hp]
  refine ⟨?_, by simp [step, hreset, periodReached_eq hp]⟩
  rw [hcounter]
  split
  · rfl
  · next hne =>
    refine AxiUartRx.toNat_add_one_of_lt (m := baudPeriodU p) ?_
    rw [show (baudPeriodU p).toNat = p from hp.baudPeriod]
    omega

theorem Clocked.step (hp : AxiUartRx.Fits p) (h : Clocked s) (hreset : i.reset = false) :
    Clocked (step s i) := by
  have hle := h.baudCounterU
  obtain ⟨hcounter, hen⟩ := baudCounterU_step hp h hreset
  refine ⟨h.toRegular.step, ?_, fun htick => ?_, fun hstart => ?_⟩
  · rw [hcounter]
    split <;> omega
  · rw [hen, decide_eq_true_eq] at htick
    rw [hcounter, if_pos htick]
  · have hcases : s.state = .idle ∨ s.state = .startBit := by
      cases hstate : s.state with
      | idle => exact .inl rfl
      | startBit => exact .inr rfl
      | data =>
        cases hlast : lastBit s <;>
          simp [AxiUartTx.step, hreset, advance, hstate, hlast] at hstart
      | stopBit =>
        cases htick : s.baudEn <;>
          simp [AxiUartTx.step, hreset, advance, hstate, htick] at hstart
    rcases hcases with hstate | hstate
    · simp [AxiUartTx.step, hstate]
    · simpa [AxiUartTx.step, hstate] using h.txBitCountU hstate

theorem left_step (hp : AxiUartRx.Fits p) (h : Clocked s) (hreset : i.reset = false) :
    left s = if s.baudEn then 1 else left (step s i) + 1 := by
  have h6 := hp.six_le
  have hle := h.baudCounterU
  obtain ⟨hcounter, hen⟩ := baudCounterU_step hp h hreset
  split
  · next htick => rw [left, if_pos htick]
  · next htick =>
    rw [left, left, if_neg htick, hen, hcounter]
    by_cases hlast : s.baudCounterU.toNat = p
    · simp [hlast]
    · simp [hlast]
      omega

theorem left_tick (hp : AxiUartRx.Fits p) (h : Clocked s) (hreset : i.reset = false)
    (htick : s.baudEn = true) : left (step s i) = p + 1 := by
  have h6 := hp.six_le
  obtain ⟨hcounter, hen⟩ := baudCounterU_step hp h hreset
  rw [h.baudEn htick] at hcounter hen
  rw [left, hen, hcounter, if_neg (by simp; omega), if_neg (by omega)]
  omega

theorem txOut_step : (step s i).txOut = bit s := by
  cases hstate : s.state <;> simp [step, bit, hstate]

/-- Between two ticks the line stays. -/
theorem following_step (h : Clocked s) (hreset : i.reset = false) (htick : s.baudEn = false) :
    bit (step s i) = bit s ∧ following (step s i) = following s := by
  have hlast : lastBit s = false := by simp [lastBit, htick]
  cases hstate : s.state with
  | idle | stopBit => constructor <;> simp [bit, following, step, hreset, advance, hstate, htick]
  | startBit =>
    have hready := h.ready_eq (.inl hstate)
    constructor <;> simp [bit, following, step, hreset, advance, hstate, htick, hready]
  | data =>
    have hready := h.ready_eq (.inr hstate)
    constructor <;> simp [bit, following, step, hreset, advance, hstate, htick, hready, hlast]

/-- The next bit of the data, or the stop bit after the last. -/
theorem following_data (hready : ready s = false) (hreset : i.reset = false)
    (htick : s.baudEn = true) (hstate : s.state = .data) :
    following s = List.replicate (p + 1) (bit (step s i)) ++ following (step s i) := by
  have hdata : (step s i).txData = s.txData := by simp [step, hready]
  have hcount : (step s i).txBitCountU = s.txBitCountU + 1 := by simp [step, hstate, htick]
  have hle : s.txBitCountU.toNat ≤ 7 := Nat.le_of_lt_succ s.txBitCountU.isLt
  by_cases hlast : s.txBitCountU = frameLengthMinus1U
  · have hnext : (step s i).state = .stopBit := by
      simp [step, hreset, advance, lastBit, hstate, htick, hlast]
    rw [following, hstate, hlast, bit, following, hnext]
    exact AxiUartRx.replicate_eq_append (by omega) true
  · have hnext : (step s i).state = .data := by
      simp [step, hreset, advance, lastBit, hstate, htick, hlast]
    have hlt : s.txBitCountU.toNat < 7 := by
      refine lt_of_le_of_ne hle fun heq => hlast (BitVec.eq_of_toNat_eq heq)
    have hadd : (s.txBitCountU + 1).toNat = s.txBitCountU.toNat + 1 :=
      AxiUartRx.toNat_add_one_of_lt (m := 7) hlt
    have hbits : 7 - s.txBitCountU.toNat = (7 - (s.txBitCountU.toNat + 1)) + 1 := by omega
    have hindex : 7 - (7 - (s.txBitCountU.toNat + 1)) = s.txBitCountU.toNat + 1 := by omega
    rw [following, hstate, bit, following, hnext, hdata, hcount, hadd]
    simp only
    rw [hbits, AxiUartRx.bitsFrom, hindex]

/-- At a tick the next bit begins. -/
theorem following_tick (h : Clocked s) (hreset : i.reset = false) (htick : s.baudEn = true) :
    following s ++ decided s =
      List.replicate (p + 1) (bit (step s i)) ++ following (step s i) := by
  cases hstate : s.state with
  | idle =>
    cases hvalid : s.txDataValid with
    | false => simp [bit, following, decided, step, hreset, advance, hstate, htick, hvalid]
    | true =>
      have hdone : s.txDone = false := by
        by_contra hne
        have hstop := h.done (by simpa using hne)
        rw [hstate] at hstop
        cases hstop
      have hready : ready s = false := by simp [ready, hvalid, hdone]
      simp [bit, following, decided, step, hreset, advance, hstate, htick, hvalid, hready,
        AxiUartRx.frame]
  | startBit =>
    have hready := h.ready_eq (.inl hstate)
    have hcount := h.txBitCountU hstate
    simp [bit, following, decided, step, hreset, advance, hstate, htick, hready, hcount,
      AxiUartRx.bitsFrom]
  | data =>
    have hdecided : decided s = [] := by simp [decided, hstate]
    rw [hdecided, List.append_nil]
    exact following_data (h.ready_eq (.inr hstate)) hreset htick hstate
  | stopBit => simp [bit, following, decided, step, hreset, advance, hstate, htick]

/-- **The line is decided ahead**: a cycle shows the first bit of it, and may decide on more. -/
theorem ahead_step (hp : AxiUartRx.Fits p) (h : Clocked s) (hreset : i.reset = false) :
    ahead s ++ decided s = (step s i).txOut :: ahead (step s i) := by
  have hleft := left_step hp h hreset
  rw [txOut_step, ahead, ahead]
  cases htick : s.baudEn with
  | false =>
    obtain ⟨hbit, hfollowing⟩ := following_step h hreset htick
    have hdecided : decided s = [] := by simp [decided, htick]
    rw [htick, if_neg Bool.false_ne_true] at hleft
    rw [hdecided, hbit, hfollowing, hleft, List.replicate_succ, List.append_nil, List.cons_append]
  | true =>
    rw [htick, if_pos rfl] at hleft
    rw [left_tick hp h hreset htick, ← following_tick h hreset htick, hleft, List.append_assoc]
    rfl

/-- A byte that is not kept is taken at once, and one that is kept waits, or its frame starts. -/
theorem waiting_of_ready (h : Clocked s) (hreset : i.reset = false) (hready : ready s = true) :
    waiting s = [] ∧ started s i = [] ∧ waiting (step s i) = accepted s i := by
  have hlast := h.lastBit_eq hready
  have hdone := h.done
  cases hstate : s.state with
  | startBit => simp [h.ready_eq (.inl hstate)] at hready
  | data => simp [h.ready_eq (.inr hstate)] at hready
  | idle =>
    have hvalid : s.txDataValid = false := by
      simp_all [ready]
    have hnext : (step s i).state = .idle := by simp [step, hreset, advance, hstate, hvalid]
    refine ⟨by simp [waiting, hvalid], by simp [started, hvalid], ?_⟩
    simp [waiting, hnext]
    simp [accepted, step, hreset, hlast, hready]
  | stopBit =>
    have hnext : (step s i).state = .idle ∨ (step s i).state = .stopBit := by
      cases htick : s.baudEn <;> simp [step, hreset, advance, hstate, htick]
    refine ⟨?_, by simp [started, hstate], ?_⟩
    · simp only [ready, Bool.or_eq_true, Bool.not_eq_true'] at hready
      rcases hready with hdone | hvalid
      · simp [waiting, hdone]
      · simp [waiting, hvalid]
    · simp [waiting, hnext]
      simp [accepted, step, hreset, hlast, hready]

theorem waiting_of_not_ready (hreset : i.reset = false) (hready : ready s = false) :
    waiting s = started s i ++ waiting (step s i) := by
  simp only [ready, Bool.or_eq_false_iff, Bool.not_eq_false'] at hready
  obtain ⟨hdone, hvalid⟩ := hready
  have hready : ready s = false := by simp [ready, hdone, hvalid]
  cases hstate : s.state with
  | idle =>
    cases htick : s.baudEn <;>
      simp [waiting, started, step, hreset, advance, lastBit, hstate, htick, hdone, hvalid, hready]
  | startBit =>
    cases htick : s.baudEn <;>
      simp [waiting, started, step, hreset, advance, hstate, htick]
  | data =>
    cases hlast : lastBit s <;>
      simp [waiting, started, step, hreset, advance, hstate, hlast]
  | stopBit =>
    cases htick : s.baudEn <;>
      simp [waiting, started, step, hreset, advance, lastBit, hstate, htick, hdone, hvalid, hready]

/-- **A byte waits** from its acceptance to the start of its frame. -/
theorem waiting_step (h : Clocked s) (hreset : i.reset = false) :
    waiting s ++ accepted s i = started s i ++ waiting (step s i) := by
  cases hready : ready s with
  | true =>
    obtain ⟨hnone, hstarted, hnext⟩ := waiting_of_ready h hreset hready
    rw [hnone, hstarted, hnext]
  | false =>
    have hnone : accepted s i = [] := by simp [accepted, hready]
    rw [hnone, List.append_nil]
    exact waiting_of_not_ready hreset hready

/-- The cycles, at most, until a byte that waits has its frame started. -/
def lag (s : State (log2Ceil p)) : ℕ := left s + if s.state = .stopBit then p + 1 else 0

theorem left_le (s : State (log2Ceil p)) : left s ≤ p + 2 := by
  unfold left
  split <;> omega

theorem lag_le (s : State (log2Ceil p)) : lag s ≤ 2 * p + 3 := by
  have hleft := left_le s
  unfold lag
  split <;> omega

theorem left_pos (h : Clocked s) : 1 ≤ left s := by
  have hle := h.baudCounterU
  unfold left
  split <;> omega

/-- A byte that goes on waiting comes nearer to its start. -/
theorem lag_step (hp : AxiUartRx.Fits p) (h : Clocked s) (hreset : i.reset = false)
    (hready : ready s = false) (hwaiting : waiting (step s i) ≠ []) :
    lag (step s i) + 1 ≤ lag s := by
  have hleft := left_step hp h hreset
  have hkept := waiting_of_not_ready hreset hready
  cases hstate : s.state with
  | startBit | data =>
    have hnone : waiting s = [] := by simp [waiting, hstate]
    rw [hnone] at hkept
    exact absurd (List.append_eq_nil_iff.mp hkept.symm).2 hwaiting
  | idle =>
    cases htick : s.baudEn with
    | true =>
      have hvalid : s.txDataValid = true := by
        simp only [ready, Bool.or_eq_false_iff, Bool.not_eq_false'] at hready
        exact hready.2
      exact absurd (by simp [waiting, step, hreset, advance, hstate, htick, hvalid]) hwaiting
    | false =>
      have hnext : (step s i).state = .idle := by simp [step, hreset, advance, hstate, htick]
      rw [htick, if_neg Bool.false_ne_true] at hleft
      rw [lag, lag, hnext, hstate, hleft]
      simp
  | stopBit =>
    cases htick : s.baudEn with
    | true =>
      have hnext : (step s i).state = .idle := by simp [step, hreset, advance, hstate, htick]
      rw [htick, if_pos rfl] at hleft
      rw [lag, lag, hnext, hstate, hleft, left_tick hp h hreset htick, if_neg (by simp), if_pos rfl]
      omega
    | false =>
      have hnext : (step s i).state = .stopBit := by simp [step, hreset, advance, hstate, htick]
      rw [htick, if_neg Bool.false_ne_true] at hleft
      rw [lag, lag, hnext, hstate, hleft]
      omega

/-- A byte that waits is started in time. -/
theorem started_run (hp : AxiUartRx.Fits p) (h : Clocked s) {is : List Inputs}
    (his : ∀ i ∈ is, i.reset = false) (hlength : lag s ≤ is.length) :
    waiting s <+: collect step started s is := by
  induction is generalizing s with
  | nil =>
    have hpos := left_pos h
    rw [lag, List.length_nil] at hlength
    omega
  | cons i is ih =>
    have hreset := his i (List.mem_cons_self ..)
    rw [List.length_cons] at hlength
    rw [collect_cons]
    cases hready : ready s with
    | true =>
      rw [(waiting_of_ready h hreset hready).1]
      exact List.nil_prefix
    | false =>
      rw [waiting_of_not_ready hreset hready, List.prefix_append_right_inj]
      by_cases hwaiting : waiting (step s i) = []
      · rw [hwaiting]
        exact List.nil_prefix
      · have hlag := lag_step hp h hreset hready hwaiting
        exact ih (h.step hp hreset) (fun j hj => his j (List.mem_cons_of_mem _ hj)) (by omega)

end AxiUartTx

/-! ## The loop -/

/-- The two sides of the UART. -/
structure UartLoopback (p : ℕ) where
  tx : AxiUartTx.State (log2Ceil p)
  rx : AxiUartRx.State (log2Ceil p) (log2Ceil (p / 2))

namespace UartLoopback

variable {p : ℕ} (x : UartLoopback p) (i : AxiUartTx.Inputs)

/-- One clock edge: `tx_out` is `rx_in`, and both have the same reset. -/
def step : UartLoopback p where
  tx := AxiUartTx.step x.tx i
  rx := AxiUartRx.step x.rx ⟨i.reset, x.tx.txOut⟩

/-- The byte that the transmitter takes. -/
def accepted : List (BitVec 8) := AxiUartTx.accepted x.tx i

/-- The byte that the receiver gives. -/
def received : List (BitVec 8) := AxiUartRx.received x.rx i

/-- Both sides are out of reset, nothing is sent, and the line has been high for as long as the
synchroniser remembers. -/
structure Idle : Prop where
  txDataValid : x.tx.txDataValid = false
  txDone : x.tx.txDone = false
  baudCounterU : x.tx.baudCounterU.toNat ≤ p
  baudEn : x.tx.baudEn = true → x.tx.baudCounterU.toNat = 0
  txState : x.tx.state = .idle
  txOut : x.tx.txOut = true
  front : AxiUartRx.front x.rx = [true, true, true]
  rxState : x.rx.state = .idle
  sAxiTvalidOut : x.rx.sAxiTvalidOut = false

/-- The bits on their way to the receiver, as far as they are decided. -/
def line : List Bool := AxiUartRx.front x.rx ++ x.tx.txOut :: AxiUartTx.ahead x.tx

/-- The receiver makes the bytes `owed` of the bits on the line. -/
structure Carries (owed : List (BitVec 8)) : Prop where
  clocked : AxiUartTx.Clocked x.tx
  rest : AxiUartRx.Rest (run AxiUartRx.take (AxiUartRx.core x.rx) (line x))
  owed : collect AxiUartRx.take AxiUartRx.received (AxiUartRx.core x.rx) (line x) = owed

section Runs

variable {x} {i} {owed : List (BitVec 8)}

theorem line_eq : line x =
    x.rx.rxInRrr :: x.rx.rxInRr :: x.rx.rxInR :: x.tx.txOut :: AxiUartTx.ahead x.tx := rfl

/-- What is decided on is a frame for the byte that is started, or an idle bit. -/
theorem rest_decided (hp : AxiUartRx.Fits p) {s : AxiUartRx.State (log2Ceil p) (log2Ceil (p / 2))}
    (hs : AxiUartRx.Rest s) (y : AxiUartTx.State (log2Ceil p)) :
    AxiUartRx.Rest (run AxiUartRx.take s (AxiUartTx.decided y)) ∧
      collect AxiUartRx.take AxiUartRx.received s (AxiUartTx.decided y) =
        AxiUartTx.started y i := by
  unfold AxiUartTx.decided AxiUartTx.started
  by_cases htick : y.state = .idle ∧ y.baudEn = true
  · rw [if_pos htick]
    by_cases hvalid : y.txDataValid = true
    · rw [if_pos hvalid, if_pos ⟨htick.1, htick.2, hvalid⟩]
      exact hs.frame hp y.txData
    · rw [if_neg hvalid, if_neg fun h => hvalid h.2.2]
      exact hs.ones (p + 1)
  · rw [if_neg htick, if_neg fun h => htick ⟨h.1, h.2.1⟩]
    exact ⟨hs, rfl⟩

/-- The line moves on by one bit, and grows by what is decided on. -/
theorem line_step (hp : AxiUartRx.Fits p) (h : AxiUartTx.Clocked x.tx) (hreset : i.reset = false) :
    line x ++ AxiUartTx.decided x.tx = x.rx.rxInRrr :: line (x.step i) := by
  rw [line_eq, line_eq, List.cons_append, List.cons_append, List.cons_append, List.cons_append,
    AxiUartTx.ahead_step hp h hreset]
  rfl

theorem core_step (hreset : i.reset = false) :
    AxiUartRx.core (x.step i).rx = AxiUartRx.take (AxiUartRx.core x.rx) x.rx.rxInRrr :=
  AxiUartRx.core_step hreset

/-- **One cycle** adds the byte that is started to those under way, and takes off the one that is
received. -/
theorem carries_step (hp : AxiUartRx.Fits p) (h : Carries x owed) (hreset : i.reset = false) :
    ∃ owed', Carries (x.step i) owed' ∧
      owed ++ AxiUartTx.started x.tx i = received x i ++ owed' := by
  obtain ⟨hrest, hstarted⟩ := rest_decided hp h.rest x.tx (i := i)
  have hline := line_step hp h.clocked hreset
  refine ⟨_, ⟨h.clocked.step hp hreset, ?_, rfl⟩, ?_⟩
  · rw [← run_append, hline, run_cons] at hrest
    rwa [core_step hreset]
  · rw [← h.owed, ← hstarted, ← collect_append, hline, collect_cons, core_step hreset]
    rfl

theorem carries_run (hp : AxiUartRx.Fits p) (h : Carries x owed) {is : List AxiUartTx.Inputs}
    (his : ∀ i ∈ is, i.reset = false) :
    ∃ owed', Carries (run step x is) owed' ∧
      owed ++ collect step (fun x i => AxiUartTx.started x.tx i) x is =
        collect step received x is ++ owed' := by
  induction is generalizing x owed with
  | nil => exact ⟨owed, h, by simp⟩
  | cons i is ih =>
    obtain ⟨owed₁, h₁, hstep⟩ := carries_step hp h (his i (List.mem_cons_self ..))
    obtain ⟨owed₂, h₂, hrun⟩ := ih h₁ fun j hj => his j (List.mem_cons_of_mem _ hj)
    refine ⟨owed₂, h₂, ?_⟩
    rw [collect_cons, collect_cons, ← List.append_assoc, hstep, List.append_assoc, hrun,
      List.append_assoc]

theorem waiting_run (h : Carries x owed) (hp : AxiUartRx.Fits p) {is : List AxiUartTx.Inputs}
    (his : ∀ i ∈ is, i.reset = false) :
    AxiUartTx.waiting x.tx ++ collect step accepted x is =
      collect step (fun x i => AxiUartTx.started x.tx i) x is ++
        AxiUartTx.waiting (run step x is).tx := by
  induction is generalizing x owed with
  | nil => simp
  | cons i is ih =>
    have hreset := his i (List.mem_cons_self ..)
    obtain ⟨owed₁, h₁, -⟩ := carries_step hp h hreset
    have hstep := AxiUartTx.waiting_step h.clocked hreset
    have hrun := ih h₁ fun j hj => his j (List.mem_cons_of_mem _ hj)
    rw [collect_cons, collect_cons, ← List.append_assoc, accepted, hstep, List.append_assoc,
      List.append_assoc, run_cons, ← hrun]
    rfl

/-- The bytes that the first bits on the line make come out while these are taken. -/
theorem received_of_line (hp : AxiUartRx.Fits p) (h : AxiUartTx.Clocked x.tx)
    {us vs : List Bool} (hline : line x = us ++ vs) {is : List AxiUartTx.Inputs}
    (his : ∀ i ∈ is, i.reset = false) (hlength : us.length ≤ is.length) :
    collect AxiUartRx.take AxiUartRx.received (AxiUartRx.core x.rx) us <+:
      collect step received x is := by
  induction us generalizing x vs is with
  | nil => exact List.nil_prefix
  | cons u us ih =>
    cases is with
    | nil => simp at hlength
    | cons i is =>
      have hreset := his i (List.mem_cons_self ..)
      have hstep := line_step hp h hreset
      rw [hline, List.cons_append, List.cons_append, List.cons.injEq, List.append_assoc] at hstep
      rw [List.length_cons, List.length_cons] at hlength
      have hrest := ih (x := x.step i) (h.step hp hreset) hstep.2.symm
        (fun j hj => his j (List.mem_cons_of_mem _ hj)) (by omega)
      rw [core_step hreset, ← hstep.1] at hrest
      rw [collect_cons, collect_cons]
      exact (List.prefix_append_right_inj _).mpr hrest

theorem bitsFrom_length (d : BitVec 8) (r : ℕ) :
    (AxiUartRx.bitsFrom p d r).length = (r + 2) * (p + 1) := by
  induction r with
  | zero => simp [AxiUartRx.bitsFrom]
  | succ r ih =>
    rw [AxiUartRx.bitsFrom, List.length_append, List.length_replicate, ih]
    ring

theorem line_length_le : (line x).length ≤ 11 * p + 16 := by
  have hleft := AxiUartTx.left_le x.tx
  have hfollowing : (AxiUartTx.following x.tx).length ≤ 10 * (p + 1) := by
    unfold AxiUartTx.following
    split
    · simp
    · rw [bitsFrom_length]
    · rw [bitsFrom_length]
      exact Nat.mul_le_mul_right _ (by omega)
    · rw [List.length_replicate]
      omega
  rw [line_eq, AxiUartTx.ahead]
  simp only [List.length_cons, List.length_append, List.length_replicate]
  omega

/-- After `k` more cycles of a reset the line is high as far as the `k`-th flop behind it. -/
structure Settled (x : UartLoopback p) (k : ℕ) : Prop where
  txDataValid : x.tx.txDataValid = false
  txDone : x.tx.txDone = false
  baudCounterU : x.tx.baudCounterU = 0
  baudEn : x.tx.baudEn = false
  txState : x.tx.state = .idle
  txOut : 1 ≤ k → x.tx.txOut = true
  rxInR : 2 ≤ k → x.rx.rxInR = true
  rxInRr : 3 ≤ k → x.rx.rxInRr = true
  rxInRrr : 4 ≤ k → x.rx.rxInRrr = true
  rxState : x.rx.state = .idle
  sAxiTvalidOut : x.rx.sAxiTvalidOut = false

theorem settled_zero (hreset : i.reset = true) : Settled (x.step i) 0 := by
  constructor <;> simp [step, AxiUartTx.step, AxiUartRx.step, hreset]

theorem Settled.step {k : ℕ} (h : Settled x k) (hreset : i.reset = true) :
    Settled (x.step i) (k + 1) := by
  constructor <;>
    simp [UartLoopback.step, AxiUartTx.step, AxiUartRx.step, hreset, h.txState]
  · exact fun hk => h.txOut hk
  · exact fun hk => h.rxInR hk
  · exact fun hk => h.rxInRr hk

theorem settled_run {k : ℕ} (h : Settled x k) {is : List AxiUartTx.Inputs}
    (his : ∀ i ∈ is, i.reset = true) : Settled (run step x is) (k + is.length) := by
  induction is generalizing x k with
  | nil => exact h
  | cons i is ih =>
    rw [List.length_cons, Nat.add_comm is.length 1, ← Nat.add_assoc]
    exact ih (h.step (his i (List.mem_cons_self ..))) fun j hj => his j (List.mem_cons_of_mem _ hj)

/-- **Five cycles of reset** make the line idle, from any state. -/
theorem idle_of_reset {is : List AxiUartTx.Inputs} (his : ∀ i ∈ is, i.reset = true)
    (hlength : 5 ≤ is.length) : Idle (run step x is) := by
  obtain ⟨i, is, rfl⟩ := List.exists_cons_of_length_pos (show 0 < is.length by omega)
  have hsettled := settled_run (settled_zero (x := x) (his i (List.mem_cons_self ..)))
    fun j hj => his j (List.mem_cons_of_mem _ hj)
  rw [List.length_cons] at hlength
  rw [run_cons]
  refine ⟨hsettled.txDataValid, hsettled.txDone, ?_, ?_, hsettled.txState,
    hsettled.txOut (by omega), ?_, hsettled.rxState, hsettled.sAxiTvalidOut⟩
  · simp [hsettled.baudCounterU]
  · simp [hsettled.baudEn]
  · rw [AxiUartRx.front, hsettled.rxInRrr (by omega), hsettled.rxInRr (by omega),
      hsettled.rxInR (by omega)]

/-- At the start nothing is under way. -/
theorem Idle.carries (hx : Idle x) : Carries x [] ∧ AxiUartTx.waiting x.tx = [] := by
  have hline : line x = true :: List.replicate (AxiUartTx.left x.tx + 3) true := by
    have hfront : x.rx.rxInRrr = true ∧ x.rx.rxInRr = true ∧ x.rx.rxInR = true := by
      simpa [AxiUartRx.front] using hx.front
    have hbit : AxiUartTx.bit x.tx = true := by simp [AxiUartTx.bit, hx.txState]
    have hfollowing : AxiUartTx.following x.tx = [] := by simp [AxiUartTx.following, hx.txState]
    rw [line_eq, hfront.1, hfront.2.1, hfront.2.2, hx.txOut, AxiUartTx.ahead, hbit, hfollowing,
      List.append_nil]
    rfl
  have hidle : AxiUartRx.Rest (AxiUartRx.take (AxiUartRx.core x.rx) true) :=
    AxiUartRx.idle_take_true hx.rxState
  obtain ⟨hrest, hnone⟩ := hidle.ones (AxiUartTx.left x.tx + 3)
  refine ⟨⟨⟨⟨?_, ?_⟩, hx.baudCounterU, hx.baudEn, ?_⟩, ?_, ?_⟩, ?_⟩
  · simp [hx.txState]
  · simp [hx.txDone]
  · simp [hx.txState]
  · rw [hline]
    exact hrest
  · rw [hline, collect_cons, hnone]
    simp [AxiUartRx.received, AxiUartRx.core, hx.sAxiTvalidOut]
  · simp [AxiUartTx.waiting, hx.txDataValid]

/-- What is under way comes out, and what waits: it is started, and then taken off the line. -/
theorem Carries.drained (hp : AxiUartRx.Fits p) (h : Carries x owed) {js : List AxiUartTx.Inputs}
    (hjs : ∀ j ∈ js, j.reset = false) (hlength : 14 * (p + 2) ≤ js.length) :
    owed ++ AxiUartTx.waiting x.tx <+: collect step received x js := by
  have hlag := AxiUartTx.lag_le x.tx
  have hline := line_length_le (x := run step x (js.take (2 * p + 3)))
  have hfirst : ∀ j ∈ js.take (2 * p + 3), j.reset = false :=
    fun j hj => hjs j (List.mem_of_mem_take hj)
  have hstart : AxiUartTx.waiting x.tx <+:
      collect step (fun x i => AxiUartTx.started x.tx i) x (js.take (2 * p + 3)) := by
    have hproj : collect step (fun x i => AxiUartTx.started x.tx i) x (js.take (2 * p + 3)) =
        collect AxiUartTx.step AxiUartTx.started x.tx (js.take (2 * p + 3)) :=
      collect_proj (π := UartLoopback.tx) (fun _ _ => rfl) _ _
    rw [hproj]
    exact AxiUartTx.started_run hp h.clocked hfirst (by rw [List.length_take]; omega)
  obtain ⟨owed', h', hsum⟩ := carries_run hp h hfirst
  have hout := received_of_line hp h'.clocked (List.append_nil _).symm
    (fun j (hj : j ∈ js.drop (2 * p + 3)) => hjs j (List.mem_of_mem_drop hj))
    (by rw [List.length_drop]; omega)
  rw [h'.owed] at hout
  calc owed ++ AxiUartTx.waiting x.tx
      <+: owed ++ collect step (fun x i => AxiUartTx.started x.tx i) x (js.take (2 * p + 3)) :=
        (List.prefix_append_right_inj _).mpr hstart
    _ <+: collect step received x (js.take (2 * p + 3)) ++
          collect step received (run step x (js.take (2 * p + 3))) (js.drop (2 * p + 3)) := by
        rw [hsum]
        exact (List.prefix_append_right_inj _).mpr hout
    _ = collect step received x js := by rw [← collect_append, List.take_append_drop]

/-- **Each byte once, intact and in order.** From an idle line, whatever is offered and when, the
bytes that come out of the receiver, one for each cycle with `s_axi_tvalid_out`, are the first of
those that the transmitter has accepted; and a byte that has been accepted has come out
`14 * (p + 2)` cycles later. -/
theorem loopback (hp : AxiUartRx.Fits p) (hx : Idle x) {is : List AxiUartTx.Inputs}
    (his : ∀ i ∈ is, i.reset = false) :
    collect step received x is <+: collect step accepted x is ∧
      ∀ js, (∀ j ∈ js, j.reset = false) → 14 * (p + 2) ≤ js.length →
        collect step accepted x is <+: collect step received x (is ++ js) := by
  obtain ⟨hcarries, hwaiting⟩ := hx.carries
  obtain ⟨owed, h, hsum⟩ := carries_run hp hcarries his
  have hwait := waiting_run hcarries hp his
  rw [List.nil_append] at hsum
  rw [hwaiting, List.nil_append, hsum, List.append_assoc] at hwait
  rw [hwait]
  refine ⟨List.prefix_append _ _, fun js hjs hlength => ?_⟩
  rw [collect_append]
  exact (List.prefix_append_right_inj _).mpr (h.drained hp hjs hlength)

end Runs

/-- The initial values, with the line high. -/
def initial (p : ℕ) : UartLoopback p where
  tx := ⟨0, false, false, 0, false, .idle, 0, true⟩
  rx := ⟨true, true, true, 0, false, false, .idle, 0, 0, 0, false⟩

theorem idle_initial (p : ℕ) : Idle (initial p) := by
  constructor <;> simp [initial, AxiUartRx.front]

/-- One byte, with seven cycles a bit. -/
theorem loopback_one :
    collect step received (initial 6)
      (⟨false, 0x35, true⟩ :: List.replicate 112 ⟨false, 0, false⟩) = [0x35] := by
  have hquiet : ∀ i ∈ List.replicate 112 (⟨false, 0, false⟩ : AxiUartTx.Inputs),
      i.reset = false := fun i hi => by rw [List.eq_of_mem_replicate hi]
  have hoffer : ∀ i ∈ [(⟨false, 0x35, true⟩ : AxiUartTx.Inputs)], i.reset = false := by simp
  have hfits : AxiUartRx.Fits 6 := ⟨by decide, by decide, by decide⟩
  have hfirst := (loopback hfits (idle_initial 6) (List.forall_mem_append.mpr ⟨hoffer, hquiet⟩)).1
  have hlast := (loopback hfits (idle_initial 6) hoffer).2 _ hquiet (by simp)
  have hall : collect step accepted (initial 6)
      ([⟨false, 0x35, true⟩] ++ List.replicate 112 ⟨false, 0, false⟩) = [0x35] := by
    decide +kernel
  have hone : collect step accepted (initial 6) [⟨false, 0x35, true⟩] = [0x35] := by decide
  rw [hall] at hfirst
  rw [hone] at hlast
  exact hfirst.eq_of_length_le hlast.length_le

end UartLoopback

end RmiiEthernet
