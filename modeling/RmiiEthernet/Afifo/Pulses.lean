import RmiiEthernet.Afifo.Reset
import RmiiEthernet.Fifo

/-!
# The asynchronous FIFO and resets at any time

A reset may come while an earlier one is still on its way. If the handshake finds the answer to the
earlier one, it ends at once, and the request may be gone before the read side has noticed it. The
read side then stays where it is, while the writer starts from the address zero.

`Noticed` rules this out. What the queue holds (`held`) is then always told by the addresses: while
a reset is pending, the words from the first row on, afterwards those from the read address on,
behind the words in the three stages.

Two numbers bound what is left to do: `handshakeLeft` the edges until a pending reset is over, and
`transit` the edges of the read clock that bring the words of the memory to the output, each of
which lowers it as long as the output is empty (`Follows.transit_rdStep`).
-/

namespace RmiiEthernet.Afifo

open Sync

variable {D : ℕ} {α : Type*}

/-- No edge of the write clock ends the handshake before the read side has noticed the request,
unless the read side is cleared anyway. -/
def Noticed (s : State D α) : Edge α → Prop
  | .wr _ _ _ => s.resetState = .waitForResetDone → s.readResetDoneSync.syncOut = true →
      s.resetToReadSync.ff0 = true ∨ s.resetToReadSync.ff1 = true ∨ s.ReadCleared
  | .rd _ => True

instance (s : State D α) : ∀ e, Decidable (Noticed s e)
  | .wr _ _ _ => inferInstanceAs (Decidable (s.resetState = .waitForResetDone →
      s.readResetDoneSync.syncOut = true →
      s.resetToReadSync.ff0 = true ∨ s.resetToReadSync.ff1 = true ∨ s.ReadCleared))
  | .rd _ => inferInstanceAs (Decidable True)

/-- The words in `n` rows of the memory, from the address `a` on. -/
def rows (s : State D α) (a : BitVec D) (n : ℕ) : List α :=
  (List.range n).map fun k => s.memory (a + BitVec.ofNat D k)

/-- The words on their way to the reader, the oldest first. -/
def held (s : State D α) : List α :=
  if s.resetPending then rows s 0 s.unread
  else stages s ++ rows s s.readLogic.readAddrOut s.unread

variable {s : State D α} {W : List α} {w w₁ w₂ r : ℕ}

theorem Filling.held (h : Filling s W) (hp : s.resetPending = true) : held s = W := by
  rw [Afifo.held, if_pos hp, h.unread hp]
  exact Fifo.map_range_of_window h.window

theorem Follows.held (h : Follows s W w w₁ w₂ r) (hq : Quiet s) : held s = stages s ++ W := by
  have hp : s.resetPending = false := by
    simp [State.resetPending, hq.resetToRead, hq.resetToReadSync]
  have haddr : s.readLogic.readAddrOut = BitVec.ofNat D r := by
    rw [ReadLogic.readAddrOut, h.readLogic_addr, BitVec.setWidth_ofNat_of_le (by omega)]
  have hlen : s.unread = W.length := by
    rw [h.unread hq, ← h.length, Nat.add_sub_cancel_left]
  rw [Afifo.held, hp, if_neg (by simp), haddr, hlen]
  exact congrArg _ (Fifo.map_range_of_window h.window)

/-- A noticed request stays pending, or the read side is cleared. -/
theorem Noticed.wrStep {reset writeEn : Bool} {d : α} (h : Noticed s (.wr reset writeEn d))
    (hs : Handshake s) (hp : s.resetPending = true ∨ reset = true) :
    (s.wrStep reset writeEn d).resetPending = true ∨
      (s.wrStep reset writeEn d).ReadCleared := by
  have hkeep : s.resetToReadSync.ff0 = true ∨ s.resetToReadSync.ff1 = true →
      (s.wrStep reset writeEn d).resetPending = true := by
    intro hff
    simp only [State.resetPending, State.wrStep, Bool.or_eq_true, or_assoc]
    exact .inr hff
  rcases hs with ⟨hwait, -, -⟩ | ⟨hidle, hread, -⟩
  · cases hdone : s.readResetDoneSync.syncOut with
    | false =>
      refine .inl ?_
      simp [State.resetPending, State.wrStep, State.resetStep, hwait, hdone]
    | true =>
      rcases h hwait hdone with hff0 | hff1 | hclear
      · exact .inl (hkeep (.inl hff0))
      · exact .inl (hkeep (.inr hff1))
      · exact .inr hclear
  · rcases hp with hp | rfl
    · simp only [State.resetPending, hread, Bool.false_or, Bool.or_eq_true] at hp
      exact .inl (hkeep hp)
    · refine .inl ?_
      simp [State.resetPending, State.wrStep, State.resetStep, hidle]

/-- The reset clears the write side. -/
theorem filling_wrStep (s : State D α) (writeEn : Bool) (d : α) :
    Filling (s.wrStep true writeEn d) [] := by
  refine ⟨?_, ?_, trivial, Nat.zero_le _⟩
  · simp [State.wrStep, WriteLogic.step]
  · simp [State.wrStep, WriteLogic.step, gray]

/-! ## The way of the handshake -/

namespace State

variable (s : State D α)

/-- The handshake waits for an edge of the write clock. -/
def awaitsWriter : Bool :=
  s.resetState == .waitForResetDone && (s.readResetDoneSync.ff1 || s.readResetDoneSync.ff0 ||
    s.resetToReadSync.ff0 && s.resetToReadSync.ff1)

/-- What is left of a pending reset: the request reaches the read side and its answer comes back,
then the request is taken back. -/
def handshakeLeft : ℕ :=
  match s.resetState with
  | .waitForResetDone =>
    if s.readResetDoneSync.ff1 then 3
    else if s.readResetDoneSync.ff0 then 4
    else if s.resetToReadSync.ff0 then if s.resetToReadSync.ff1 then 5 else 6
    else 7
  | .idle => if s.resetToReadSync.ff0 then 2 else 1

theorem handshakeLeft_le : s.handshakeLeft ≤ 7 := by
  unfold handshakeLeft
  split <;> grind

theorem handshakeLeft_pos : 0 < s.handshakeLeft := by
  unfold handshakeLeft
  split <;> grind

end State

theorem Quiet.awaitsWriter (h : Quiet s) : s.awaitsWriter = false := by
  rw [State.awaitsWriter, h.resetState]
  rfl

/-- An edge of the write clock brings the handshake on if it waits for one. -/
theorem Handshake.left_wrStep (h : Handshake s) (writeEn : Bool) (d : α) :
    (s.wrStep false writeEn d).handshakeLeft < s.handshakeLeft ∨
      (s.wrStep false writeEn d).handshakeLeft = s.handshakeLeft ∧ s.awaitsWriter = false ∧
        (s.wrStep false writeEn d).awaitsWriter = false := by
  rcases h with ⟨hstate, -, -⟩ | ⟨hstate, -, -⟩ <;>
    cases h1 : s.readResetDoneSync.ff1 <;> cases h2 : s.readResetDoneSync.ff0 <;>
    cases h3 : s.resetToReadSync.ff0 <;> cases h4 : s.resetToReadSync.ff1 <;>
    simp [State.handshakeLeft, State.awaitsWriter, State.wrStep, State.resetStep, hstate,
      BitSynchroniser.syncOut, BitSynchroniser.step, State.readReset, h1, h2, h3, h4]

/-- An edge of the read clock does so otherwise. -/
theorem Handshake.left_rdStep [Zero α] (h : Handshake s) (hp : s.resetPending = true)
    (gFwft readEn : Bool) (hp' : (s.rdStep gFwft readEn).resetPending = true) :
    (s.rdStep gFwft readEn).handshakeLeft < s.handshakeLeft ∨
      (s.rdStep gFwft readEn).handshakeLeft = s.handshakeLeft ∧ s.awaitsWriter = true ∧
        (s.rdStep gFwft readEn).awaitsWriter = true := by
  rcases h with ⟨hstate, hread, -⟩ | ⟨hstate, hread, -⟩ <;>
    cases h1 : s.readResetDoneSync.ff1 <;> cases h2 : s.readResetDoneSync.ff0 <;>
    cases h3 : s.resetToReadSync.ff0 <;> cases h4 : s.resetToReadSync.ff1 <;>
    simp_all [State.handshakeLeft, State.awaitsWriter, State.rdStep, BitSynchroniser.step,
      State.resetPending]

/-! ## The way to the output -/

/-- The edges of the read clock after which the empty flag admits a word of the memory. -/
def admission (emptyR : Bool) (w₁ w₂ r : ℕ) : ℕ :=
  if emptyR = false then 0 else if r < w₂ then 1 else if r < w₁ then 2 else 3

/-- What is left to do until the first `t` words have come to the output. -/
def transit (s : State D α) (t w₁ w₂ r : ℕ) : ℕ :=
  5 * (t - r) + (if r < t then admission s.readLogic.emptyR w₁ w₂ r else 0) +
    if r < t + (stages s).length ∧ s.fwft.outputValid = false ∧ stages s ≠ [] then 1 else 0

theorem admission_le (emptyR : Bool) (w₁ w₂ r : ℕ) : admission emptyR w₁ w₂ r ≤ 3 := by
  unfold admission
  split <;> [skip; split <;> [skip; split]] <;> omega

theorem length_fetched_le (gFwft : Bool) (s : State D α) (readEn : Bool) :
    (fetched gFwft s readEn).length ≤ 1 := by
  unfold fetched
  split <;> simp

/-- A word that is admitted is fetched, unless the three stages hold one each. -/
theorem length_fetched (hreset : s.readReset = false) (hempty : s.readLogic.emptyR = false)
    (hvalid : s.fwft.outputValid = false) (readEn : Bool) :
    (fetched true s readEn).length = 1 := by
  have hen : s.readEnInternal true readEn = true := by
    simp [State.readEnInternal, FifoFwft.fifoReadEnSig, State.fifoEmpty, hreset, hempty, hvalid]
  rw [fetched, if_pos hen, List.length_singleton]

/-- Only a word that has just been fetched can stand in the stages with the output empty. -/
theorem length_stages_rdStep [Zero α] (hreset : s.readReset = false) (readEn : Bool)
    (hvalid : (s.rdStep true readEn).fwft.outputValid = false)
    (hne : stages (s.rdStep true readEn) ≠ []) :
    (fetched true s readEn).length = 1 ∧ (stages (s.rdStep true readEn)).length = 1 := by
  have hen : s.readEnInternal true readEn =
      (!s.fifoEmpty && !(s.fwft.fifoValid && s.fwft.bufferValid && s.fwft.outputValid)) := by
    simp [State.readEnInternal, FifoFwft.fifoReadEnSig, hreset]
  revert hvalid hne
  cases h1 : s.fwft.fifoValid <;> cases h2 : s.fwft.bufferValid <;>
    cases h3 : s.fwft.outputValid <;> cases readEn <;> cases h4 : s.fifoEmpty <;>
    simp [stages, fetched, State.rdStep, FifoFwft.step, FifoFwft.updateBuffer,
      FifoFwft.updateOutput, FifoFwft.fifoReadEnSig, hen, hreset, h1, h2, h3, h4]

/-- An edge at which nothing is fetched moves the write pointer on. -/
theorem Follows.admission_rdStep [Zero α] (h : Follows s W w w₁ w₂ r) (hreset : s.readReset = false)
    (readEn : Bool) (hnone : (fetched true s readEn).length = 0) (hlt : r < w) :
    admission (s.rdStep true readEn).readLogic.emptyR w w₁ r ≤
        admission s.readLogic.emptyR w₁ w₂ r ∧
      (s.readLogic.emptyR = true → admission (s.rdStep true readEn).readLogic.emptyR w w₁ r <
        admission s.readLogic.emptyR w₁ w₂ r) := by
  have hempty := h.emptyR_rdStep_iff hreset true readEn
  rw [hnone, Nat.add_zero] at hempty
  have hord := h.order
  cases he : s.readLogic.emptyR with
  | false =>
    have hgt := h.notEmpty he
    have he' : (s.rdStep true readEn).readLogic.emptyR = false := by
      rw [← Bool.not_eq_true, hempty]
      omega
    simp [admission, he']
  | true =>
    cases he' : (s.rdStep true readEn).readLogic.emptyR with
    | false =>
      have hpos : 0 < admission true w₁ w₂ r := by
        unfold admission
        split <;> [contradiction; split <;> [skip; split]] <;> omega
      exact ⟨Nat.zero_le _, fun _ => hpos⟩
    | true =>
      -- the read side has come up to `w₂`, and sees `w₁` next
      have hw₂ : r = w₂ := hempty.mp he'
      have hless : admission true w w₁ r < admission true w₁ w₂ r := by
        by_cases hw₁ : r < w₁ <;> simp [admission, hw₁, hlt, ← hw₂]
      exact ⟨hless.le, fun _ => hless⟩

/-- An edge of the read clock brings the first `t` words nearer to the output, if one of them is
on its way there and the output is empty, or if one of them has not been admitted. -/
theorem Follows.transit_rdStep [Zero α] (h : Follows s W w w₁ w₂ r) (hreset : s.readReset = false)
    {t : ℕ} (ht : t ≤ w) (readEn : Bool) :
    transit (s.rdStep true readEn) t w w₁ (r + (fetched true s readEn).length) ≤
        transit s t w₁ w₂ r ∧
      ((s.fwft.outputValid = false ∧ r < t + (stages s).length) ∨
          (s.readLogic.emptyR = true ∧ r < t) →
        transit (s.rdStep true readEn) t w w₁ (r + (fetched true s readEn).length) <
          transit s t w₁ w₂ r) := by
  have hstages := length_stages_rdStep hreset readEn
  obtain hone | hnone :
      (fetched true s readEn).length = 1 ∨ (fetched true s readEn).length = 0 := by
    have := length_fetched_le true s readEn
    omega
  · -- a fetch pays for the admission of the next word
    have hbound := admission_le (s.rdStep true readEn).readLogic.emptyR w w₁ (r + 1)
    have hnotEmpty : s.readLogic.emptyR = false := by
      by_contra hne
      rw [fetched, if_neg fun hen => hne (readEnInternal_notEmpty hen)] at hone
      cases hone
    rw [hone]
    have hlast : (if r + 1 < t + (stages (s.rdStep true readEn)).length ∧
        (s.rdStep true readEn).fwft.outputValid = false ∧ stages (s.rdStep true readEn) ≠ []
        then 1 else 0) ≤ if r < t then 1 else 0 := by
      split
      · next hin =>
        have := (hstages hin.2.1 hin.2.2).2
        rw [if_pos (by omega)]
      · omega
    unfold transit
    generalize (if r + 1 < t + (stages (s.rdStep true readEn)).length ∧
      (s.rdStep true readEn).fwft.outputValid = false ∧ stages (s.rdStep true readEn) ≠ []
      then 1 else 0) = last at hlast
    by_cases hlt : r < t
    · rw [if_pos hlt] at hlast
      split <;> constructor <;> intros <;> omega
    · rw [if_neg hlt] at hlast
      refine ⟨by rw [if_neg (by omega)]; omega, fun hor => ?_⟩
      obtain ⟨hvalid, hin⟩ := hor.resolve_right fun h => hlt h.2
      have hne : stages s ≠ [] := fun hnil => by rw [hnil] at hin; exact hlt hin
      rw [if_neg (by omega), if_neg hlt, if_pos ⟨hin, hvalid, hne⟩]
      omega
  · have hout : ¬ (r < t + (stages (s.rdStep true readEn)).length ∧
        (s.rdStep true readEn).fwft.outputValid = false ∧ stages (s.rdStep true readEn) ≠ []) := by
      rintro ⟨-, hvalid, hne⟩
      have := (hstages hvalid hne).1
      omega
    have hadmission := h.admission_rdStep hreset readEn hnone
    rw [hnone, Nat.add_zero]
    unfold transit
    rw [if_neg hout]
    by_cases hlt : r < t
    · obtain ⟨hle, hless⟩ := hadmission (by omega)
      rw [if_pos hlt, if_pos hlt]
      refine ⟨by omega, ?_⟩
      rintro (⟨hvalid, hin⟩ | ⟨hempty, -⟩)
      · cases hempty : s.readLogic.emptyR with
        | true =>
          have := hless hempty
          rw [hempty] at this
          omega
        | false =>
          have := length_fetched hreset hempty hvalid readEn
          omega
      · have := hless hempty
        omega
    · rw [if_neg hlt, if_neg hlt]
      refine ⟨by omega, fun hor => ?_⟩
      obtain ⟨hvalid, hin⟩ := hor.resolve_right fun h => hlt h.2
      have hne : stages s ≠ [] := fun hnil => by rw [hnil] at hin; exact hlt hin
      rw [if_pos ⟨hin, hvalid, hne⟩]
      omega

end RmiiEthernet.Afifo
