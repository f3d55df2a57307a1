import RmiiEthernet.Mdio.Phases

/-!
# The slots of a frame

From the phase `n / 2 + 2` on, for the `n + 1` cycles to the next rising edge, the state machine
stands still: a slot. What it wants on the line is there from the phase `1` on, and the bit counter
is loaded, if it is, with what the slot says. So a slot shows one bit at its end, and hands on what
is left of the frame (`owed`).
-/

namespace RmiiEthernet.Mdio

open Sync Utils

/-! ## Frames -/

/-- What an operation is about. -/
structure Operation where
  isWrite : Bool
  phyAddress : BitVec 5
  regAddress : BitVec 5
  writeData : BitVec 16

/-- The operation that the inputs ask for. -/
def Inputs.operation (i : Inputs) : Operation :=
  ⟨i.writeEnableIn, i.phyAddressIn, i.regAddressIn, i.writeDataIn⟩

/-- The `k` low bits, the most significant of them first. -/
def bitsBelow {m : ℕ} (v : BitVec m) : ℕ → List Bool
  | 0 => []
  | k + 1 => v.getLsbD k :: bitsBelow v k

namespace Operation

variable (o : Operation)

/-- The turnaround and the data; `none` is a line that is released. -/
def afterAddresses : List (Option Bool) :=
  if o.isWrite then some true :: some false :: (bitsBelow o.writeData 16).map some
  else List.replicate 18 none

/-- What is on the line at the rising edges, from the first `0` on. -/
def frame : List (Option Bool) :=
  some false :: some true :: some (!o.isWrite) :: some o.isWrite ::
    ((bitsBelow o.phyAddress 5).map some ++
      ((bitsBelow o.regAddress 5).map some ++ o.afterAddresses))

/-- What is left of the frame in a state of the machine, with the counter at `bit`. -/
def rest (bit : ℕ) : FsmState → List (Option Bool)
  | .idle | .preamble | .start1 => o.frame
  | .start2 => o.frame.drop 1
  | .op1 => o.frame.drop 2
  | .op2 => o.frame.drop 3
  | .phyAddress =>
    (bitsBelow o.phyAddress (bit + 1)).map some ++
      ((bitsBelow o.regAddress 5).map some ++ o.afterAddresses)
  | .regAddress => (bitsBelow o.regAddress (bit + 1)).map some ++ o.afterAddresses
  | .turnAround1 => o.afterAddresses
  | .turnAround2 => o.afterAddresses.drop 1
  | .writeData => (bitsBelow o.writeData (bit + 1)).map some
  | .readData => List.replicate (bit + 1) none
  | .done => []

end Operation

section Line

variable {w : ℕ} (s : State w)

/-- The operation in the latches. -/
def operation : Operation := ⟨s.opIsWriteR, s.phyAddressR, s.regAddressR, s.writeDataR⟩

/-- What the circuit puts on the line. -/
def driven : Option Bool := if s.mdioTristateOut then none else some s.mdioOut

/-- What the state machine wants on the line. -/
def drive : Option Bool := if mdioTristateComb s then none else some (mdioOutputComb s)

/-- The next value of the bit counter at a tick. -/
def nextBit : BitVec 5 := if s.loadBitCounter then s.loadBitCounterData else s.bitCounter - 1

theorem line_eq : line s = (driven s).getD true := by
  unfold line driven
  split <;> simp_all

end Line

variable {n : ℕ} {s : State (counterBits n)} {i : Inputs}

/-- The slots at `1` that are left before the frame. The idle slot loads the counter with `31`,
unless it ends before it has. -/
def ones (s : State (counterBits n)) : ℕ :=
  match s.fsmState with
  | .idle => if phase s = n / 2 + 1 then (nextBit s).toNat + 2 else 33
  | .preamble => s.bitCounter.toNat + 1
  | _ => 0

/-- What is left of the frame. -/
def owed {w : ℕ} (s : State w) : List (Option Bool) :=
  (operation s).rest s.bitCounter.toNat s.fsmState

/-- The data bits that have not been read. -/
def unread (s : State (counterBits n)) : ℕ :=
  match s.fsmState with
  | .readData => s.bitCounter.toNat + 1
  | .done => 0
  | _ => 16

/-! ## An operation in progress -/

/-- An operation is in progress. The state `done` ends it, two cycles after the last rising edge. -/
structure Sending (s : State (counterBits n)) : Prop extends Timed s where
  mdcFalling : s.mdcFalling = decide (phase s = 0)
  opInProgress : s.opInProgress = decide (s.fsmState = .done → phase s = n / 2 + 2)
  opFinishedR : s.opFinishedR = decide (s.fsmState = .done ∧ phase s ≠ n / 2 + 2)
  opDone : s.opDone = decide (s.fsmState = .done ∧ phase s = n / 2 + 3)
  load : s.fsmState ≠ .idle → phase s ≠ n / 2 + 2 →
    s.loadBitCounter = loadBitCounterComb s ∧ s.loadBitCounterData = loadBitCounterDataComb s
  driven_eq : s.fsmState ≠ .idle → 1 ≤ phase s → phase s ≤ n / 2 + 1 → driven s = drive s
  line_idle : s.fsmState = .idle → line s = true

theorem Sending.ready_eq (h : Sending s) : ready s = false := by
  by_cases hidle : s.fsmState = .idle
  · simp [ready, h.opInProgress, hidle]
  · simp [ready, hidle]

theorem Sending.not_accepts (h : Sending s) : accepts s i = false := by
  simp [accepts, h.ready_eq]

/-- The latches keep the operation when no other is taken. -/
theorem operation_step (hreset : i.reset = false) (haccepts : accepts s i = false) :
    operation (step s i) = operation s := by
  simp [operation, step, hreset, haccepts]

theorem driven_step (hreset : i.reset = false) :
    driven (step s i) = if s.mdcFalling then drive s else driven s := by
  simp only [driven, drive, step, hreset]
  split <;> simp

theorem bitCounter_step (hreset : i.reset = false) :
    (step s i).bitCounter = if s.mdcRising then nextBit s else s.bitCounter := by
  simp [step, hreset, nextBit]

theorem opFinishedR_step : (step s i).opFinishedR = decide (s.fsmState = .done) := rfl

theorem opDone_step :
    (step s i).opDone = (decide (s.fsmState = .done) && !s.opFinishedR) := rfl

theorem opInProgress_step (h : Sending s) (hreset : i.reset = false) :
    (step s i).opInProgress = decide (s.fsmState ≠ .done) := by
  by_cases hdone : s.fsmState = .done
  · simp [step, hreset, opFinishedComb, hdone]
  · simp [step, hreset, opFinishedComb, h.opInProgress, hdone]

/-! ## Within a slot -/

/-- Two states in the same slot of the same operation. -/
structure SameSlot (s s' : State (counterBits n)) : Prop where
  fsmState : s'.fsmState = s.fsmState
  bitCounter : s'.bitCounter = s.bitCounter
  operation : operation s' = operation s
  readDataOut : s'.readDataOut = s.readDataOut

theorem SameSlot.drive_eq {s' : State (counterBits n)} (h : SameSlot s s') :
    drive s' = drive s := by
  obtain ⟨hwrite, hphy, hreg, hdata⟩ := Operation.mk.injEq .. ▸ h.operation
  have htristate : mdioTristateComb s' = mdioTristateComb s := by
    simp only [mdioTristateComb, h.fsmState, hwrite]
  have houtput : mdioOutputComb s' = mdioOutputComb s := by
    simp only [mdioOutputComb, h.fsmState, h.bitCounter, hwrite, hphy, hreg, hdata]
  rw [drive, htristate, houtput, drive]

theorem SameSlot.load_eq {s' : State (counterBits n)} (h : SameSlot s s')
    (hidle : s.fsmState ≠ .idle) :
    loadBitCounterComb s' = loadBitCounterComb s ∧
      loadBitCounterDataComb s' = loadBitCounterDataComb s := by
  simp only [loadBitCounterComb, loadBitCounterDataComb, lastBit, h.fsmState, h.bitCounter]
  cases hstate : s.fsmState with
  | idle => exact absurd hstate hidle
  | _ => exact ⟨rfl, rfl⟩

theorem SameSlot.owed_eq {s' : State (counterBits n)} (h : SameSlot s s') : owed s' = owed s := by
  simp only [owed, h.fsmState, h.bitCounter, h.operation]

theorem SameSlot.unread_eq {s' : State (counterBits n)} (h : SameSlot s s') :
    unread s' = unread s := by
  simp only [unread, h.fsmState, h.bitCounter]

theorem Sending.sameSlot (h : Sending s) (hreset : i.reset = false) (hne : phase s ≠ n / 2 + 1) :
    SameSlot s (step s i) := by
  have hrising : s.mdcRising = false := by simp [h.mdcRising, hne]
  refine ⟨?_, ?_, operation_step hreset h.not_accepts, ?_⟩
  · rw [fsmState_step hreset, hrising, if_neg Bool.false_ne_true]
  · rw [bitCounter_step hreset, hrising, if_neg Bool.false_ne_true]
  · simp [step, hreset, hrising]

/-- **Within a slot** the operation stays in progress. -/
theorem Sending.step (hn : Fits n) (h : Sending s) (hreset : i.reset = false)
    (hne : phase s ≠ n / 2 + 1) : Sending (step s i) := by
  have h6 := hn.six_le
  have hle := h.phase_le
  have hsame := h.sameSlot hreset hne
  have hphase := phase_step hn hle hreset
  have hphase' : phase (Mdio.step s i) ≠ n / 2 + 2 := by
    rw [hphase]
    split <;> omega
  refine ⟨h.toTimed.step hn, h.toTimed.mdcFalling_step hn hreset, ?_, ?_, ?_, fun hidle _ => ?_,
    fun hidle hpos hhalf => ?_, fun hidle => ?_⟩
  · rw [opInProgress_step h hreset, hsame.fsmState]
    simp [hphase']
  · rw [opFinishedR_step, hsame.fsmState]
    simp [hphase']
  · have hnext : phase (Mdio.step s i) = n / 2 + 3 ↔ phase s = n / 2 + 2 := by
      rw [hphase]
      split <;> omega
    rw [opDone_step, hsame.fsmState, h.opFinishedR]
    simp only [hnext]
    by_cases hstate : s.fsmState = .done <;> simp [hstate]
  · rw [hsame.fsmState] at hidle
    obtain ⟨hload, hdata⟩ := hsame.load_eq hidle
    rw [hload, hdata]
    simp [Mdio.step, hreset]
  · rw [hsame.fsmState] at hidle
    rw [driven_step hreset, hsame.drive_eq, h.mdcFalling]
    by_cases hzero : phase s = 0
    · simp [hzero]
    · have hlt : phase s ≠ n := fun heq => by simp [hphase, heq] at hpos
      rw [hphase, if_neg hlt] at hhalf
      simp only [hzero, decide_false, Bool.false_eq_true, if_false]
      exact h.driven_eq hidle (by omega) (by omega)
  · rw [hsame.fsmState] at hidle
    exact line_step_eq_true hreset (fun _ => h.line_idle hidle) (.inl hidle)

/-! ## The end of a slot -/

/-- A counter that is not zero counts down. -/
theorem toNat_sub_one_add_one {w : ℕ} {b : BitVec w} (hb : b ≠ 0) :
    (b - 1).toNat + 1 = b.toNat := by
  obtain ⟨k, hk⟩ : ∃ k, b.toNat = k + 1 :=
    Nat.exists_eq_succ_of_ne_zero fun hzero => hb (BitVec.eq_of_toNat_eq hzero)
  rw [toNat_sub_one_of_eq hk, hk]

theorem phase_tick (hn : Fits n) (hreset : i.reset = false) (hphase : phase s = n / 2 + 1) :
    phase (step s i) = n / 2 + 2 := by
  have h6 := hn.six_le
  rw [phase_step hn (by omega) hreset, hphase, if_neg (by omega)]

theorem Sending.fsmState_tick (h : Sending s) (hreset : i.reset = false)
    (hphase : phase s = n / 2 + 1) : (Mdio.step s i).fsmState = nextState s := by
  rw [fsmState_step hreset, h.mdcRising, hphase]
  simp

theorem Sending.bitCounter_tick (h : Sending s) (hreset : i.reset = false)
    (hphase : phase s = n / 2 + 1) : (Mdio.step s i).bitCounter = nextBit s := by
  rw [bitCounter_step hreset, h.mdcRising, hphase]
  simp

/-- In a slot the counter is loaded when the slot says so. -/
theorem Sending.nextBit_eq (h : Sending s) (hphase : phase s = n / 2 + 1)
    (hidle : s.fsmState ≠ .idle) :
    nextBit s = if loadBitCounterComb s then loadBitCounterDataComb s else s.bitCounter - 1 := by
  obtain ⟨hload, hdata⟩ := h.load hidle (by omega)
  rw [nextBit, hload, hdata]

theorem Sending.nextState_ne_idle (h : Sending s) (hdone : s.fsmState ≠ .done) :
    nextState s ≠ .idle := by
  intro hnext
  rcases idle_or_done_of_nextState hnext with hidle | hdone'
  · simp [nextState, hidle, h.opInProgress] at hnext
  · exact hdone hdone'

/-- **At the end of a slot** the next one begins. -/
theorem Sending.tick (hn : Fits n) (h : Sending s) (hreset : i.reset = false)
    (hphase : phase s = n / 2 + 1) (hdone : s.fsmState ≠ .done) : Sending (Mdio.step s i) := by
  have hnext := phase_tick hn hreset hphase
  have hidle : (Mdio.step s i).fsmState ≠ .idle := by
    rw [h.fsmState_tick hreset hphase]
    exact h.nextState_ne_idle hdone
  refine ⟨h.toTimed.step hn, h.toTimed.mdcFalling_step hn hreset, ?_, ?_, ?_,
    fun _ hne => absurd hnext hne, fun _ _ hle => ?_, fun h => absurd h hidle⟩
  · rw [opInProgress_step h hreset]
    simp [hdone, hnext]
  · rw [opFinishedR_step]
    simp [hdone, hnext]
  · rw [opDone_step]
    simp [hdone, hnext]
  · omega

/-- A slot at `1` before the frame. -/
theorem Sending.ones_tick (h : Sending s) (hreset : i.reset = false)
    (hphase : phase s = n / 2 + 1) (hstate : s.fsmState = .idle ∨ s.fsmState = .preamble) :
    ones s = ones (Mdio.step s i) + 1 ∧ owed (Mdio.step s i) = owed s := by
  have hnext := h.fsmState_tick hreset hphase
  have hbit := h.bitCounter_tick hreset hphase
  have hop := operation_step hreset h.not_accepts (i := i)
  rcases hstate with hidle | hpre
  · have hprog : s.opInProgress = true := by simp [h.opInProgress, hidle]
    simp only [nextState, hidle, hprog, if_true] at hnext
    simp [ones, owed, Operation.rest, hnext, hidle, hphase, hbit, hop]
  · rw [h.nextBit_eq hphase (by simp [hpre])] at hbit
    simp only [loadBitCounterComb, hpre, Bool.false_eq_true, if_false] at hbit
    by_cases hlast : s.bitCounter = 0
    · simp only [nextState, hpre, lastBit, hlast] at hnext
      simp [ones, owed, Operation.rest, hnext, hpre, hlast, hop]
    · have hpos := toNat_sub_one_add_one hlast
      simp only [nextState, hpre, lastBit, beq_eq_false_iff_ne.mpr hlast, Bool.false_eq_true,
        if_false] at hnext
      simp only [ones, owed, Operation.rest, hnext, hpre, hbit, hop, hpos, and_self]

/-- The first bit of what is left is the one of the slot, and what is left then is what the next
state of the machine says. -/
theorem rest_eq_cons {w : ℕ} {s : State w} (hidle : s.fsmState ≠ .idle)
    (hpre : s.fsmState ≠ .preamble) (hdone : s.fsmState ≠ .done) :
    owed s = drive s :: (operation s).rest
      (if loadBitCounterComb s then loadBitCounterDataComb s else s.bitCounter - 1).toNat
      (nextState s) := by
  cases hstate : s.fsmState with
  | idle => exact absurd hstate hidle
  | preamble => exact absurd hstate hpre
  | done => exact absurd hstate hdone
  | start1 | start2 | op1 | op2 =>
    simp [owed, nextState, loadBitCounterComb, loadBitCounterDataComb, drive, mdioTristateComb,
      mdioOutputComb, hstate, operation, Operation.rest, Operation.frame]
  | turnAround1 | turnAround2 =>
    cases hw : s.opIsWriteR <;>
      simp [owed, nextState, loadBitCounterComb, loadBitCounterDataComb, drive, mdioTristateComb,
        mdioOutputComb, hstate, hw, operation, Operation.rest, Operation.afterAddresses,
        List.replicate_succ]
  | phyAddress | regAddress | writeData | readData =>
    by_cases hlast : s.bitCounter = 0
    · simp [owed, nextState, loadBitCounterComb, loadBitCounterDataComb, drive, mdioTristateComb,
        mdioOutputComb, hstate, lastBit, hlast, operation, Operation.rest, bitsBelow]
    · have hlastBit : lastBit s = false := by simpa [lastBit] using hlast
      have hnext : nextState s = s.fsmState := by simp [nextState, hstate, hlastBit]
      have hload : loadBitCounterComb s = false := by simp [loadBitCounterComb, hstate, hlastBit]
      rw [hnext, hload, if_neg Bool.false_ne_true, owed]
      simp only [hstate, Operation.rest, toNat_sub_one_add_one hlast]
      simp [drive, mdioTristateComb, mdioOutputComb, hstate, operation, bitsBelow,
        List.replicate_succ]

/-- **A slot of the frame** shows its bit. -/
theorem Sending.owed_tick (h : Sending s) (hreset : i.reset = false)
    (hphase : phase s = n / 2 + 1) (hidle : s.fsmState ≠ .idle) (hpre : s.fsmState ≠ .preamble)
    (hdone : s.fsmState ≠ .done) : owed s = drive s :: owed (Mdio.step s i) := by
  rw [rest_eq_cons hidle hpre hdone, ← h.nextBit_eq hphase hidle, owed,
    operation_step hreset h.not_accepts, h.fsmState_tick hreset hphase,
    h.bitCounter_tick hreset hphase]

theorem ones_eq_zero (hidle : s.fsmState ≠ .idle) (hpre : s.fsmState ≠ .preamble) :
    ones s = 0 := by
  unfold ones
  split
  · exact absurd ‹_› hidle
  · exact absurd ‹_› hpre
  · rfl

theorem nextState_ne_preamble (hidle : s.fsmState ≠ .idle) (hpre : s.fsmState ≠ .preamble) :
    nextState s ≠ .preamble := by
  unfold nextState
  split
  · exact absurd ‹_› hidle
  · exact absurd ‹_› hpre
  all_goals try split
  all_goals simp

/-- The idle slot loads the counter before it ends. -/
theorem Sending.ones_step (h : Sending s) (hreset : i.reset = false)
    (hne : phase s ≠ n / 2 + 1) : ones (Mdio.step s i) = ones s := by
  have hsame := h.sameSlot hreset hne
  unfold ones
  rw [hsame.fsmState, hsame.bitCounter]
  split
  · next hidle =>
    have hnext : nextBit (Mdio.step s i) = BitVec.allOnes 5 := by
      simp [nextBit, Mdio.step, hreset, loadBitCounterComb, loadBitCounterDataComb, hidle,
        h.opInProgress]
    rw [hnext, if_neg hne]
    split <;> rfl
  · rfl
  · rfl

/-! ## How long it takes -/

/-- The cycles to the next tick. -/
def toTick (s : State (counterBits n)) : ℕ :=
  if phase s ≤ n / 2 + 1 then n / 2 + 1 - phase s else n + n / 2 + 2 - phase s

/-- The cycles that are left of an operation: each slot takes `n + 1`, and `done` is one. -/
def left (s : State (counterBits n)) : ℕ :=
  toTick s + 1 + (n + 1) * (ones s + (owed s).length)

theorem Sending.left_step (hn : Fits n) (h : Sending s) (hreset : i.reset = false)
    (hne : phase s ≠ n / 2 + 1) : left s = left (Mdio.step s i) + 1 := by
  have h6 := hn.six_le
  have hle := h.phase_le
  have hphase := phase_step hn hle hreset
  have htick : toTick s = toTick (Mdio.step s i) + 1 := by
    unfold toTick
    rw [hphase]
    by_cases hlast : phase s = n
    · rw [if_pos hlast, if_pos (Nat.zero_le _)]
      split <;> omega
    · rw [if_neg hlast]
      split <;> split <;> omega
  rw [left, left, h.ones_step hreset hne, (h.sameSlot hreset hne).owed_eq, htick]
  omega

theorem Sending.left_tick (hn : Fits n) (h : Sending s) (hreset : i.reset = false)
    (hphase : phase s = n / 2 + 1) (hdone : s.fsmState ≠ .done) :
    left s = left (Mdio.step s i) + 1 := by
  have h6 := hn.six_le
  have hslots : ones s + (owed s).length =
      ones (Mdio.step s i) + (owed (Mdio.step s i)).length + 1 := by
    by_cases hstate : s.fsmState = .idle ∨ s.fsmState = .preamble
    · obtain ⟨hones, howed⟩ := h.ones_tick hreset hphase hstate
      rw [hones, howed]
      omega
    · obtain ⟨hidle, hpre⟩ := not_or.mp hstate
      have hnext := h.fsmState_tick hreset hphase
      rw [ones_eq_zero hidle hpre, h.owed_tick hreset hphase hidle hpre hdone, List.length_cons,
        ones_eq_zero (hnext ▸ h.nextState_ne_idle hdone) (hnext ▸ nextState_ne_preamble hidle hpre)]
      omega
  have htick : toTick s = 0 := by simp [toTick, hphase]
  have htick' : toTick (Mdio.step s i) = n := by
    rw [toTick, phase_tick hn hreset hphase, if_neg (by omega)]
    omega
  rw [left, left, hslots, htick, htick', Nat.mul_succ]
  omega

/-! ## The data that is read -/

theorem bitsBelow_length {m : ℕ} (v : BitVec m) (k : ℕ) : (bitsBelow v k).length = k := by
  induction k with
  | zero => rfl
  | succ k ih => rw [bitsBelow, List.length_cons, ih]

/-- One more bit of a word that is filled from the top. -/
theorem bitsBelow_update {m b k : ℕ} {v v' : BitVec m} {x : Bool} {xs : List Bool}
    (hbit : v'.getLsbD b = x) (hother : ∀ j, j ≠ b → v'.getLsbD j = v.getLsbD j)
    (h : bitsBelow v k = xs ++ bitsBelow v (b + 1)) :
    bitsBelow v' k = xs ++ [x] ++ bitsBelow v' b := by
  have hlength := congrArg List.length h
  rw [List.length_append, bitsBelow_length, bitsBelow_length] at hlength
  induction xs generalizing k with
  | nil =>
    obtain rfl : k = b + 1 := by simpa using hlength
    rw [bitsBelow, hbit]
    rfl
  | cons y ys ih =>
    obtain ⟨k, rfl⟩ : ∃ j, k = j + 1 :=
      ⟨ys.length + (b + 1), by rw [hlength, List.length_cons]; omega⟩
    rw [bitsBelow, List.cons_append, List.cons.injEq] at h
    rw [List.length_cons] at hlength
    rw [bitsBelow, ih h.2 (by omega), hother k (by omega), h.1]
    rfl

theorem readDataOut_tick (h : Timed s) (hreset : i.reset = false)
    (hphase : phase s = n / 2 + 1) :
    (step s i).readDataOut =
      s.readDataOut &&& ~~~readDataEn s ||| if i.mdioIn then readDataEn s else 0 := by
  have hrising : s.mdcRising = true := by simp [h.mdcRising, hphase]
  simp [step, hreset, hrising]

/-- The edge of a read slot takes one bit. -/
theorem Sending.read_tick (h : Sending s) (hreset : i.reset = false)
    (hphase : phase s = n / 2 + 1) (hstate : s.fsmState = .readData) {xs : List Bool}
    (hread : bitsBelow s.readDataOut 16 = xs ++ bitsBelow s.readDataOut (unread s)) :
    bitsBelow (Mdio.step s i).readDataOut 16 =
      xs ++ [i.mdioIn] ++
        bitsBelow (Mdio.step s i).readDataOut (unread (Mdio.step s i)) := by
  have hunread : unread s = s.bitCounter.toNat + 1 := by simp [unread, hstate]
  have hnext : unread (Mdio.step s i) = s.bitCounter.toNat := by
    have hf := h.fsmState_tick hreset hphase
    have hbit := h.bitCounter_tick hreset hphase
    rw [h.nextBit_eq hphase (by simp [hstate])] at hbit
    simp only [loadBitCounterComb, hstate, Bool.false_eq_true, if_false] at hbit
    by_cases hlast : s.bitCounter = 0
    · simp only [nextState, hstate, lastBit, hlast] at hf
      simp [unread, hf, hlast]
    · simp only [nextState, hstate, lastBit, beq_eq_false_iff_ne.mpr hlast, Bool.false_eq_true,
        if_false] at hf
      simp only [unread, hf, hbit, toNat_sub_one_add_one hlast]
  rw [hunread] at hread
  have hlt : s.bitCounter.toNat < 16 := by
    have hlength := congrArg List.length hread
    rw [List.length_append, bitsBelow_length, bitsBelow_length] at hlength
    omega
  have hen : readDataEn s = BitVec.twoPow 16 s.bitCounter.toNat := by simp [readDataEn, hstate]
  rw [hnext, readDataOut_tick h.toTimed hreset hphase, hen]
  refine bitsBelow_update ?_ (fun j hj => ?_) hread
  · cases i.mdioIn <;> simp [hlt]
  · cases i.mdioIn <;> simpa [Ne.symm hj] using fun h => BitVec.lt_of_getLsbD h

/-- The other slots leave the word alone. -/
theorem Sending.unread_tick (h : Sending s) (hreset : i.reset = false)
    (hphase : phase s = n / 2 + 1) (hread : s.fsmState ≠ .readData)
    (hwrite : s.fsmState ≠ .writeData) (hdone : s.fsmState ≠ .done) :
    unread (Mdio.step s i) = unread s ∧ (Mdio.step s i).readDataOut = s.readDataOut := by
  constructor
  · have hf := h.fsmState_tick hreset hphase
    have hbit := h.bitCounter_tick hreset hphase
    cases hstate : s.fsmState with
    | readData => exact absurd hstate hread
    | writeData => exact absurd hstate hwrite
    | done => exact absurd hstate hdone
    | turnAround2 =>
      rw [h.nextBit_eq hphase (by simp [hstate])] at hbit
      simp only [loadBitCounterComb, loadBitCounterDataComb, hstate, if_true] at hbit
      cases hw : s.opIsWriteR <;> simp [unread, hf, hbit, nextState, hstate, hw]
    | preamble | phyAddress | regAddress =>
      cases hlast : lastBit s <;> simp [unread, hf, nextState, hstate, hlast]
    | idle =>
      have hprog : s.opInProgress = true := by simp [h.opInProgress, hstate]
      simp [unread, hf, nextState, hstate, hprog]
    | start1 | start2 | op1 | op2 | turnAround1 => simp [unread, hf, nextState, hstate]
  · have hen : readDataEn s = 0 := by simp [readDataEn, hread]
    have hones : ~~~(0 : BitVec 16) = BitVec.allOnes 16 := rfl
    rw [readDataOut_tick h.toTimed hreset hphase, hen, hones, BitVec.and_allOnes]
    simp

end RmiiEthernet.Mdio
