import RmiiEthernet.Dividers

/-!
# What the UART receiver makes of a frame

The receiver sees the line three cycles late. Behind the synchroniser it takes one bit of the line a
cycle (`take`): half a bit after the line has fallen it starts to count, and samples the line at
every tick of the counter, in the middle of each bit. So a frame makes one byte, and the receiver is
at rest again before the idle bit is over (`Rest.frame`).
-/

namespace RmiiEthernet.AxiUartRx

open Sync Utils

/-- The constants of the two sides of the UART are what they are meant to be. -/
structure Fits (p : ℕ) : Prop where
  six_le : 6 ≤ p
  baudPeriod : (baudPeriodU p).toNat = p
  baudHalfPeriod : (baudHalfPeriodU p).toNat = p / 2

variable {p : ℕ} {s : State (log2Ceil p) (log2Ceil (p / 2))} {i : Inputs} {b : Bool}

theorem Fits.periodReached (hp : Fits p) :
    periodReached s = decide (s.baudCounterU.toNat = p) := by
  have h6 := hp.six_le
  rw [periodReached_iff (by omega), decide_eq_decide]
  constructor
  · intro h
    rw [h, hp.baudPeriod]
  · exact fun h => BitVec.eq_of_toNat_eq (h.trans hp.baudPeriod.symm)

theorem Fits.halfReached (hp : Fits p) :
    halfReached s = decide (s.startCounterU.toNat = p / 2) := by
  have h6 := hp.six_le
  rw [AxiUartRx.halfReached, decide_eq_true (log2Ceil_pos (by omega)), Bool.true_and,
    Bool.beq_eq_decide_eq, decide_eq_decide]
  constructor
  · exact fun h => (congrArg BitVec.toNat h).trans hp.baudHalfPeriod
  · exact fun h => BitVec.eq_of_toNat_eq (h.trans hp.baudHalfPeriod.symm)

/-! ## Behind the synchroniser -/

/-- The bits in the synchroniser, the oldest first. -/
def front {w v : ℕ} (s : State w v) : List Bool := [s.rxInRrr, s.rxInRr, s.rxInR]

/-- The registers behind the synchroniser. -/
def core {w v : ℕ} (s : State w v) : State w v :=
  { s with rxInR := true, rxInRr := true, rxInRrr := true }

/-- A cycle without a reset in which `b` comes out of the synchroniser. -/
def take (s : State (log2Ceil p) (log2Ceil (p / 2))) (b : Bool) :
    State (log2Ceil p) (log2Ceil (p / 2)) :=
  core (step { s with rxInRrr := b } ⟨false, true⟩)

/-- The byte at the output. -/
def received {w v : ℕ} {I : Type*} (s : State w v) (_ : I) : List (BitVec 8) :=
  if s.sAxiTvalidOut then [s.rxBuffer] else []

theorem core_step (hreset : i.reset = false) : core (step s i) = take (core s) s.rxInRrr := by
  obtain ⟨reset, rxIn⟩ := i
  obtain rfl : reset = false := hreset
  rfl

theorem front_step : front (step s i) = [s.rxInRr, s.rxInR, i.rxIn] := rfl

/-! ## Rest -/

/-- The receiver waits for the line to fall. -/
structure Rest (s : State (log2Ceil p) (log2Ceil (p / 2))) : Prop where
  state : s.state = .idle
  startCounterU : s.startCounterU = 0
  sAxiTvalidOut : s.sAxiTvalidOut = false

theorem idle_take_true (hstate : s.state = .idle) : Rest (take s true) := by
  constructor <;> simp [take, core, step, advance, lastBit, hstate]

theorem Rest.ones (h : Rest s) (m : ℕ) :
    Rest (run take s (List.replicate m true)) ∧
      collect take received s (List.replicate m true) = [] := by
  induction m generalizing s with
  | zero => exact ⟨h, rfl⟩
  | succ m ih =>
    obtain ⟨hrest, hnone⟩ := ih (idle_take_true h.state)
    exact ⟨hrest, by simp [List.replicate_succ, hnone, received, h.sAxiTvalidOut]⟩

/-! ## The start bit -/

/-- The line has been low for `j` cycles. -/
structure Starting (s : State (log2Ceil p) (log2Ceil (p / 2))) (j : ℕ) : Prop where
  state : s.state = .idle
  startCounterU : s.startCounterU.toNat = j
  sAxiTvalidOut : s.sAxiTvalidOut = false
  baudReset : 0 < j → s.baudReset = true

/-- The counter runs, and the tick is `c` cycles after the last one. -/
structure Counting (s : State (log2Ceil p) (log2Ceil (p / 2))) (c : ℕ) : Prop where
  state : s.state ≠ .idle
  baudReset : s.baudReset = false
  baudEn : s.baudEn = false
  baudCounterU : s.baudCounterU.toNat = c

/-- Below a number that the bits can hold a counter counts. -/
theorem toNat_add_one_of_lt {w : ℕ} {c m : BitVec w} (h : c.toNat < m.toNat) :
    (c + 1).toNat = c.toNat + 1 := by
  have hm := m.isLt
  refine toNat_add_one_of_ne fun hones => ?_
  rw [hones, BitVec.toNat_allOnes] at h
  omega

theorem Starting.step (hp : Fits p) {j : ℕ} (h : Starting s j) (hj : j < p / 2) :
    Starting (take s false) (j + 1) := by
  have hlt : s.startCounterU.toNat < (baudHalfPeriodU p).toNat := by
    rw [hp.baudHalfPeriod, h.startCounterU]
    exact hj
  have hstart : (s.startCounterU + 1).toNat = j + 1 := by
    rw [toNat_add_one_of_lt hlt, h.startCounterU]
  constructor
  · simp [take, core, AxiUartRx.step, advance, h.state, hp.halfReached, h.startCounterU, hj.ne]
  · simpa [take, core, AxiUartRx.step, h.state] using hstart
  · simp [take, core, AxiUartRx.step, lastBit, h.state]
  · simp [take, core, AxiUartRx.step, h.state, hp.halfReached, h.startCounterU, hj.ne]

/-- After half a bit the counter starts. -/
theorem Starting.enter (hp : Fits p) (h : Starting s (p / 2)) :
    Counting (take s false) 0 ∧ (take s false).state = .data ∧ (take s false).rxBitCountU = 0 ∧
      (take s false).sAxiTvalidOut = false := by
  have h6 := hp.six_le
  have hreset := h.baudReset (by omega)
  refine ⟨⟨?_, ?_, ?_, ?_⟩, ?_, ?_, ?_⟩ <;>
    simp [take, core, AxiUartRx.step, advance, lastBit, h.state, hp.halfReached, h.startCounterU,
      hreset]

theorem Rest.starting (h : Rest s) : Starting s 0 :=
  ⟨h.state, by rw [h.startCounterU]; rfl, h.sAxiTvalidOut, fun h => absurd h (Nat.lt_irrefl 0)⟩

/-- The first half of the start bit. -/
theorem Starting.run (hp : Fits p) {j m : ℕ} (h : Starting s j) (hm : j + m = p / 2) :
    Starting (run take s (List.replicate m false)) (p / 2) ∧
      collect take received s (List.replicate m false) = [] := by
  induction m generalizing s j with
  | zero =>
    obtain rfl : j = p / 2 := by omega
    exact ⟨h, rfl⟩
  | succ m ih =>
    obtain ⟨hstart, hnone⟩ := ih (h.step hp (by omega)) (by omega)
    exact ⟨hstart, by simp [List.replicate_succ, hnone, received, h.sAxiTvalidOut]⟩

/-! ## The ticks -/

/-- Between two ticks nothing is sampled. -/
structure Same (s s' : State (log2Ceil p) (log2Ceil (p / 2))) : Prop where
  state : s'.state = s.state
  rxBitCountU : s'.rxBitCountU = s.rxBitCountU
  rxBuffer : s'.rxBuffer = s.rxBuffer
  sAxiTvalidOut : s'.sAxiTvalidOut = false

theorem Counting.same {c : ℕ} (h : Counting s c) : Same s (take s b) := by
  cases hstate : s.state with
  | idle => exact absurd hstate h.state
  | data | stopBit =>
    constructor <;> simp [take, core, AxiUartRx.step, advance, lastBit, hstate, h.baudEn]

theorem Counting.step (hp : Fits p) {c : ℕ} (h : Counting s c) (hc : c < p) :
    Counting (take s b) (c + 1) := by
  have hlt : s.baudCounterU.toNat < (baudPeriodU p).toNat := by
    rw [hp.baudPeriod, h.baudCounterU]
    exact hc
  have hcount : (s.baudCounterU + 1).toNat = c + 1 := by
    rw [toNat_add_one_of_lt hlt, h.baudCounterU]
  have hstate := h.state
  refine ⟨h.same.state ▸ hstate, ?_, ?_, ?_⟩
  · simp [take, core, AxiUartRx.step, hstate]
  · simp [take, core, AxiUartRx.step, hp.periodReached, h.baudCounterU, hc.ne]
  · simpa [take, core, AxiUartRx.step, hp.periodReached, h.baudCounterU, hc.ne, h.baudReset]
      using hcount

/-- A tick: the next bit is sampled. -/
structure Ticking (s : State (log2Ceil p) (log2Ceil (p / 2))) : Prop where
  state : s.state ≠ .idle
  baudReset : s.baudReset = false
  baudEn : s.baudEn = true
  baudCounterU : s.baudCounterU.toNat = 0

theorem Counting.tick (hp : Fits p) (h : Counting s p) : Ticking (take s b) := by
  have hstate := h.state
  refine ⟨h.same.state ▸ hstate, ?_, ?_, ?_⟩
  · simp [take, core, AxiUartRx.step, hstate]
  · simp [take, core, AxiUartRx.step, hp.periodReached, h.baudCounterU, h.baudReset]
  · simp [take, core, AxiUartRx.step, hp.periodReached, h.baudCounterU, h.baudReset]

/-- From one tick to the next. -/
theorem Counting.run (hp : Fits p) {c : ℕ} (h : Counting s c) {bs : List Bool}
    (hbs : c + bs.length = p + 1) (hc : c ≤ p) :
    Ticking (run take s bs) ∧ Same s (run take s bs) ∧
      collect take received s bs = if s.sAxiTvalidOut then [s.rxBuffer] else [] := by
  induction bs generalizing s c with
  | nil => simp at hbs; omega
  | cons b bs ih =>
    rw [List.length_cons] at hbs
    have hsame := h.same (b := b)
    rcases Nat.lt_or_eq_of_le hc with hlt | rfl
    · obtain ⟨htick, hsame', hnone⟩ := ih (h.step hp hlt) (by omega) (by omega)
      refine ⟨htick, ⟨hsame'.state.trans hsame.state, hsame'.rxBitCountU.trans hsame.rxBitCountU,
        hsame'.rxBuffer.trans hsame.rxBuffer, hsame'.sAxiTvalidOut⟩, ?_⟩
      rw [collect_cons, hnone, hsame.sAxiTvalidOut]
      simp [received]
    · obtain rfl : bs = [] := List.eq_nil_of_length_eq_zero (by omega)
      exact ⟨h.tick hp, hsame, by simp [received]⟩

/-! ## The samples -/

theorem Ticking.counting (hp : Fits p) (h : Ticking s) (hstate : (take s b).state ≠ .idle) :
    Counting (take s b) 1 := by
  have h6 := hp.six_le
  have hlt : s.baudCounterU.toNat < (baudPeriodU p).toNat := by
    rw [hp.baudPeriod, h.baudCounterU]
    omega
  have hcount : (s.baudCounterU + 1).toNat = 1 := by
    rw [toNat_add_one_of_lt hlt, h.baudCounterU]
  have hne : 0 ≠ p := by omega
  refine ⟨hstate, ?_, ?_, ?_⟩
  · simp [take, core, AxiUartRx.step, h.state]
  · simp [take, core, AxiUartRx.step, hp.periodReached, h.baudCounterU, hne]
  · simpa [take, core, AxiUartRx.step, hp.periodReached, h.baudCounterU, hne, h.baudReset]
      using hcount

/-- `k` bits of the byte `d` have been sampled, and the next one is about to be. -/
structure Sampled (s : State (log2Ceil p) (log2Ceil (p / 2))) (d : BitVec 8) (k : ℕ) : Prop where
  ticking : Ticking s
  state : s.state = .data
  rxBitCountU : s.rxBitCountU.toNat = k
  rxBuffer : ∀ j, j < k → s.rxBuffer.getLsbD (8 - k + j) = d.getLsbD j
  sAxiTvalidOut : s.sAxiTvalidOut = false

/-- The shift register after one more bit. -/
theorem getLsbD_shift {d buf : BitVec 8} {k : ℕ} (hk : k < 8)
    (h : ∀ j, j < k → buf.getLsbD (8 - k + j) = d.getLsbD j) :
    ∀ j, j < k + 1 →
      (BitVec.ofBool (d.getLsbD k) ++ buf.extractLsb' 1 7).getLsbD (8 - (k + 1) + j) =
        d.getLsbD j := by
  intro j hj
  rw [BitVec.getLsbD_append]
  by_cases hlast : j = k
  · subst hlast
    rw [if_neg (by omega), show 8 - (j + 1) + j - 7 = 0 by omega]
    simp
  · rw [if_pos (by omega), BitVec.getLsbD_extractLsb',
      show 1 + (8 - (k + 1) + j) = 8 - k + j by omega, h j (by omega)]
    simp
    omega

/-- A sample: the bit goes into the shift register, and the last one completes the byte. -/
theorem Sampled.take (hp : Fits p) {d : BitVec 8} {k : ℕ} (h : Sampled s d k) (hk : k < 8) :
    Counting (take s (d.getLsbD k)) 1 ∧
      (AxiUartRx.take s (d.getLsbD k)).state = (if k = 7 then .stopBit else .data) ∧
      (AxiUartRx.take s (d.getLsbD k)).sAxiTvalidOut = decide (k = 7) ∧
      (AxiUartRx.take s (d.getLsbD k)).rxBitCountU = s.rxBitCountU + 1 ∧
      ∀ j, j < k + 1 →
        (AxiUartRx.take s (d.getLsbD k)).rxBuffer.getLsbD (8 - (k + 1) + j) = d.getLsbD j := by
  have hlast : s.rxBitCountU = 7#3 ↔ k = 7 := by
    rw [← h.rxBitCountU]
    exact ⟨fun heq => by rw [heq]; rfl, fun heq => BitVec.eq_of_toNat_eq heq⟩
  have hstate : (AxiUartRx.take s (d.getLsbD k)).state = (if k = 7 then .stopBit else .data) := by
    by_cases h7 : k = 7 <;>
      simp [AxiUartRx.take, core, AxiUartRx.step, advance, lastBit, h.state, h.ticking.baudEn,
        hlast, h7]
  refine ⟨h.ticking.counting hp ?_, hstate, ?_, ?_, ?_⟩
  · rw [hstate]
    split <;> simp
  · by_cases h7 : k = 7 <;>
      simp [AxiUartRx.take, core, AxiUartRx.step, lastBit, h.state, h.ticking.baudEn, hlast, h7]
  · simp [AxiUartRx.take, core, AxiUartRx.step, h.state, h.ticking.baudEn]
  · have hshift := getLsbD_shift hk h.rxBuffer
    simpa [AxiUartRx.take, core, AxiUartRx.step, h.state, h.ticking.baudEn] using hshift

/-- **A bit is sampled** at a tick, and the cycles up to the next one do not matter. -/
theorem Sampled.next (hp : Fits p) {d : BitVec 8} {k : ℕ} (h : Sampled s d k) (hk : k < 7)
    {bs : List Bool} (hbs : bs.length = p) :
    Sampled (run AxiUartRx.take s (d.getLsbD k :: bs)) d (k + 1) ∧
      collect AxiUartRx.take received s (d.getLsbD k :: bs) = [] := by
  have h6 := hp.six_le
  obtain ⟨hcounting, hstate, hvalid, hcount, hbuffer⟩ := h.take hp (by omega)
  rw [if_neg hk.ne] at hstate
  rw [decide_eq_false hk.ne] at hvalid
  obtain ⟨htick, hsame, hnone⟩ := hcounting.run hp (show 1 + bs.length = p + 1 by omega) (by omega)
  refine ⟨⟨htick, hsame.state.trans hstate, ?_, ?_, hsame.sAxiTvalidOut⟩, ?_⟩
  · rw [run_cons, hsame.rxBitCountU, hcount,
      toNat_add_one_of_lt (m := 7) (by rw [h.rxBitCountU]; exact hk), h.rxBitCountU]
  · rw [run_cons, hsame.rxBuffer]
    exact hbuffer
  · rw [collect_cons, hnone, hvalid]
    simp [received, h.sAxiTvalidOut]

/-- The last bit gives the byte. -/
theorem Sampled.last (hp : Fits p) {d : BitVec 8} (h : Sampled s d 7) {bs : List Bool}
    (hbs : bs.length = p) :
    Ticking (run AxiUartRx.take s (d.getLsbD 7 :: bs)) ∧
      (run AxiUartRx.take s (d.getLsbD 7 :: bs)).state = .stopBit ∧
      (run AxiUartRx.take s (d.getLsbD 7 :: bs)).sAxiTvalidOut = false ∧
      collect AxiUartRx.take received s (d.getLsbD 7 :: bs) = [d] := by
  have h6 := hp.six_le
  obtain ⟨hcounting, hstate, hvalid, -, hbuffer⟩ := h.take hp (by omega)
  obtain ⟨htick, hsame, hbyte⟩ := hcounting.run hp (show 1 + bs.length = p + 1 by omega) (by omega)
  have hd : (AxiUartRx.take s (d.getLsbD 7)).rxBuffer = d := by
    refine BitVec.eq_of_getLsbD_eq fun j hj => ?_
    have hbit := hbuffer j (by omega)
    rwa [show 8 - (7 + 1) + j = j by omega] at hbit
  refine ⟨htick, hsame.state.trans hstate, hsame.sAxiTvalidOut, ?_⟩
  rw [collect_cons, hbyte, hvalid, hd]
  simp [received, h.sAxiTvalidOut]

/-! ## Frames -/

/-- The line while the last `r` bits of a byte are sent, and then for the stop bit and one idle bit,
each bit for `p + 1` cycles. -/
def bitsFrom (p : ℕ) (d : BitVec 8) : ℕ → List Bool
  | 0 => List.replicate (2 * (p + 1)) true
  | r + 1 => List.replicate (p + 1) (d.getLsbD (7 - r)) ++ bitsFrom p d r

/-- The line while a byte is sent. -/
def frame (p : ℕ) (d : BitVec 8) : List Bool :=
  List.replicate (p + 1) false ++ bitsFrom p d 8

/-- A bit of the line in two parts. -/
theorem replicate_eq_append {a b m : ℕ} (h : a + b = m) (x : Bool) :
    List.replicate m x = List.replicate a x ++ List.replicate b x := by
  rw [← h, List.replicate_add]

/-- After the stop bit the receiver comes to rest. -/
theorem Ticking.stop (h : Ticking s) (hstate : s.state = .stopBit)
    (hvalid : s.sAxiTvalidOut = false) (m : ℕ) :
    Rest (run take s (List.replicate (m + 2) true)) ∧
      collect take received s (List.replicate (m + 2) true) = [] := by
  have hidle : (take s true).state = .idle := by
    simp [take, core, AxiUartRx.step, advance, hstate, h.baudEn]
  have hnext : (take s true).sAxiTvalidOut = false := by
    simp [take, core, AxiUartRx.step, lastBit, hstate]
  obtain ⟨hrest, hnone⟩ := (idle_take_true hidle).ones m
  rw [List.replicate_succ, List.replicate_succ, run_cons, run_cons, collect_cons, collect_cons,
    hnone]
  exact ⟨hrest, by simp [received, hvalid, hnext]⟩

/-- The cycles from the sample of a bit, in its middle, to the sample of the next one. -/
theorem exists_between (hp : Fits p) (x y : Bool) : ∃ bs : List Bool, bs.length = p ∧
    ∀ l, List.replicate (p - p / 2) x ++ (List.replicate (p + 1) y ++ l) =
      (x :: bs) ++ (List.replicate (p - p / 2) y ++ l) := by
  have h6 := hp.six_le
  obtain ⟨m, hm⟩ : ∃ m, p - p / 2 = m + 1 := ⟨p - p / 2 - 1, by omega⟩
  refine ⟨List.replicate m x ++ List.replicate (p / 2 + 1) y, ?_, fun l => ?_⟩
  · rw [List.length_append, List.length_replicate, List.length_replicate]
    omega
  · rw [replicate_eq_append (a := p / 2 + 1) (b := p - p / 2) (m := p + 1) (by omega), hm,
      List.replicate_succ]
    simp only [List.append_assoc, List.cons_append]

/-- From the sample of a bit to the end of the frame. -/
theorem Sampled.rest (hp : Fits p) {d : BitVec 8} {r : ℕ} (hr : r ≤ 7) (h : Sampled s d (7 - r)) :
    Rest (run AxiUartRx.take s
        (List.replicate (p - p / 2) (d.getLsbD (7 - r)) ++ bitsFrom p d r)) ∧
      collect AxiUartRx.take received s
        (List.replicate (p - p / 2) (d.getLsbD (7 - r)) ++ bitsFrom p d r) = [d] := by
  have h6 := hp.six_le
  induction r generalizing s with
  | zero =>
    obtain ⟨bs, hlength, hbits⟩ := exists_between hp (d.getLsbD (7 - 0)) true
    obtain ⟨m, hm⟩ : ∃ m, p - p / 2 + (p + 1) = m + 2 := ⟨p - p / 2 + (p + 1) - 2, by omega⟩
    obtain ⟨htick, hstate, hvalid, hbyte⟩ := h.last hp hlength
    obtain ⟨hrest, hnone⟩ := htick.stop hstate hvalid m
    rw [bitsFrom, replicate_eq_append (a := p + 1) (b := p + 1) (m := 2 * (p + 1)) (by omega),
      hbits, ← replicate_eq_append hm, run_append, collect_append, hbyte, hnone]
    exact ⟨hrest, rfl⟩
  | succ r ih =>
    obtain ⟨bs, hlength, hbits⟩ := exists_between hp (d.getLsbD (7 - (r + 1))) (d.getLsbD (7 - r))
    obtain ⟨hnext, hnone⟩ := h.next hp (by omega) hlength
    rw [show 7 - (r + 1) + 1 = 7 - r by omega] at hnext
    obtain ⟨hrest, hbyte⟩ := ih (by omega) hnext
    rw [bitsFrom, hbits, run_append, collect_append, hnone, List.nil_append]
    exact ⟨hrest, hbyte⟩

/-- **A frame gives its byte**, and leaves the receiver at rest. -/
theorem Rest.frame (hp : Fits p) (h : Rest s) (d : BitVec 8) :
    Rest (run take s (frame p d)) ∧ collect take received s (frame p d) = [d] := by
  have h6 := hp.six_le
  have hlist : AxiUartRx.frame p d = List.replicate (p / 2) false ++ ([false] ++
      ((List.replicate (p - p / 2) false ++ List.replicate (p / 2 + 1) (d.getLsbD (7 - 7))) ++
        (List.replicate (p - p / 2) (d.getLsbD (7 - 7)) ++ bitsFrom p d 7))) := by
    rw [AxiUartRx.frame, bitsFrom,
      replicate_eq_append (a := p / 2) (b := p - p / 2 + 1) (by omega) false,
      replicate_eq_append (a := p / 2 + 1) (b := p - p / 2) (by omega) (d.getLsbD (7 - 7)),
      List.replicate_succ]
    simp only [List.append_assoc, List.cons_append, List.nil_append]
  obtain ⟨hstart, hnone⟩ := h.starting.run hp (m := p / 2) (Nat.zero_add _)
  obtain ⟨hcounting, hstate, hcount, hvalid⟩ := hstart.enter hp
  have hlength : 0 + (List.replicate (p - p / 2) false ++
      List.replicate (p / 2 + 1) (d.getLsbD (7 - 7))).length = p + 1 := by
    rw [List.length_append, List.length_replicate, List.length_replicate]
    omega
  obtain ⟨htick, hsame, hnone'⟩ := hcounting.run hp hlength (Nat.zero_le _)
  obtain ⟨hrest, hbyte⟩ := Sampled.rest hp (d := d) (r := 7) le_rfl
    ⟨htick, hsame.state.trans hstate, by rw [hsame.rxBitCountU, hcount]; rfl,
      fun j hj => absurd hj (Nat.not_lt_zero j), hsame.sAxiTvalidOut⟩
  have hfall : collect take received (Sync.run take s (List.replicate (p / 2) false)) [false] =
      [] := by
    simp [received, hstart.sAxiTvalidOut]
  rw [hlist, run_append, run_append, run_append, collect_append, collect_append, collect_append,
    hnone, hfall, run_cons, run_nil, hnone', hvalid, hbyte]
  exact ⟨hrest, rfl⟩

end RmiiEthernet.AxiUartRx
