import RmiiEthernet.Afifo.Order

/-!
# The asynchronous FIFO across a reset

`reset` clears the write side at once and travels to the read side and back through two
synchronisers, with `reset_busy` high all the time. A word that is offered meanwhile is not put into
the memory, but the write address counts it. And when `reset_busy` falls, the read side may still
have edges of its reset before it, so that the writer works with a read pointer from before the
reset and may count more room than there is.

A run in which neither happens (`Heeds`) is one of a queue: behind the reset the words delivered are
the first of the words written since the pulse (`delivered_prefix_written`).
-/

namespace RmiiEthernet.Afifo

open Sync

variable {D : ℕ} {α : Type*}

/-! ## What a writer has to heed -/

/-- The word that an edge puts into the memory. -/
def written (s : State D α) : Edge α → List α
  | .wr _ writeEn writeData => if s.writeEnWrClk writeEn then [writeData] else []
  | .rd _ => []

namespace State

variable (s : State D α)

/-- The reset is on its way to the read side, or there. -/
def resetPending : Bool := s.resetToRead || s.resetToReadSync.ff0 || s.resetToReadSync.ff1

/-- The number of words between the addresses; a read side that is being reset starts with the
address zero. -/
def unread : ℕ :=
  if s.resetPending then s.writeLogic.writeAddrR.toNat
  else (s.writeLogic.writeAddrR - s.readLogic.readAddrR).toNat

end State

/-- No word is taken from the writer while `reset_busy` is high, or when the memory is full of words
that have not been read. -/
def Heeds (s : State D α) : Edge α → Prop
  | .wr _ writeEn _ =>
    (writeEn && !s.full) = true → s.resetBusySig = false ∧ s.unread < 2 ^ D
  | .rd _ => True

instance (s : State D α) : ∀ e, Decidable (Heeds s e)
  | .wr _ writeEn _ => inferInstanceAs
      (Decidable ((writeEn && !s.full) = true → s.resetBusySig = false ∧ s.unread < 2 ^ D))
  | .rd _ => inferInstanceAs (Decidable True)

variable {s : State D α} {W : List α} {e : Edge α} {w w₁ w₂ r : ℕ}

theorem written_wr {reset writeEn : Bool} {d : α} (h : Heeds s (.wr reset writeEn d)) :
    written s (.wr reset writeEn d) = stored s writeEn d := by
  cases hen : (writeEn && !s.full)
  · simp only [written, stored, State.writeEnWrClk, hen, Bool.and_false]
  · simp only [written, stored, State.writeEnWrClk, hen, (h hen).1, Bool.not_false, Bool.and_true]

theorem Heeds.room {reset writeEn : Bool} {d : α} (h : Heeds s (.wr reset writeEn d))
    (hne : stored s writeEn d ≠ []) : s.resetBusySig = false ∧ s.unread < 2 ^ D := by
  apply h
  by_contra hen
  simp [stored, hen] at hne

/-! ## Until the read side has left its reset -/

/-- The state machine of the handshake and its two outputs. -/
def Handshake (s : State D α) : Prop :=
  (s.resetState = .waitForResetDone ∧ s.resetToRead = true ∧ s.resetBusySig = true) ∨
    (s.resetState = .idle ∧ s.resetToRead = false ∧ s.resetBusySig = false)

theorem Handshake.wrStep (h : Handshake s) (reset writeEn : Bool) (d : α) :
    Handshake (s.wrStep reset writeEn d) := by
  unfold Handshake State.wrStep State.resetStep
  rcases h with ⟨h, -, -⟩ | ⟨h, -, -⟩ <;> rw [h]
  · cases s.readResetDoneSync.syncOut <;> simp
  · cases reset <;> simp

theorem Handshake.step [Zero α] {gFwft : Bool} (h : Handshake s) : Handshake (step gFwft s e) := by
  cases e with
  | rd readEn => exact h
  | wr reset writeEn d => exact h.wrStep reset writeEn d

/-- The words written since the pulse, from the first row of the memory on. -/
structure Filling (s : State D α) (W : List α) : Prop where
  writeLogic_addr : s.writeLogic.writeAddrR = BitVec.ofNat (D + 1) W.length
  writeLogic_pointer : s.writeLogic.writePointerR = gray (BitVec.ofNat (D + 1) W.length)
  window : Window s.memory 0 W
  fits : W.length ≤ 2 ^ D

theorem Filling.unread (h : Filling s W) (hp : s.resetPending = true) : s.unread = W.length := by
  have hfits := h.fits
  have hpow : 2 ^ (D + 1) = 2 ^ D * 2 := Nat.pow_succ 2 D
  have hpos := Nat.two_pow_pos D
  rw [State.unread, if_pos hp, h.writeLogic_addr, BitVec.toNat_ofNat, Nat.mod_eq_of_lt (by omega)]

theorem Filling.step [Zero α] {gFwft : Bool} (h : Filling s W) (hp : s.resetPending = true)
    (he : NoReset s e) (hh : Heeds s e) : Filling (step gFwft s e) (W ++ written s e) := by
  cases e with
  | rd readEn =>
    have hnone : written s (.rd readEn) = [] := rfl
    rw [hnone, List.append_nil]
    exact ⟨h.writeLogic_addr, h.writeLogic_pointer, h.window, h.fits⟩
  | wr reset writeEn d =>
    obtain rfl : reset = false := he
    have hroom : stored s writeEn d ≠ [] → s.resetBusySig = false ∧ W.length < 0 + 2 ^ D := by
      intro hne
      have hroom := hh.room hne
      rw [h.unread hp] at hroom
      simpa using hroom
    have hnext := writeAddrNext_eq h.writeLogic_addr writeEn d
    rw [written_wr hh]
    refine ⟨?_, ?_, ?_, ?_⟩
    · rw [List.length_append]
      simpa [Afifo.step, State.wrStep, WriteLogic.step] using hnext
    · rw [List.length_append]
      simp [Afifo.step, State.wrStep, WriteLogic.step, WriteLogic.writePointerNext, hnext]
    · exact window_wrStep h.writeLogic_addr h.window (Nat.zero_add _) writeEn d hroom
    · rcases stored_eq_nil_or s writeEn d with hnil | hone
      · simpa [hnil] using h.fits
      · have hlt := (hroom (by simp [hone])).2
        rw [hone, List.length_append, List.length_singleton]
        omega

/-- The reset of the read side. Once it is over, it is over for good. -/
structure Refills (s : State D α) (W : List α) : Prop where
  handshake : Handshake s
  rising : s.resetToRead = true → s.resetToReadSync.ff1 = true → s.resetToReadSync.ff0 = true
  filling : s.resetPending = true → Filling s W

/-- Without a reset the request to the read side can only end. -/
theorem Handshake.resetToRead {writeEn : Bool} {d : α} (h : Handshake s)
    (hread : (s.wrStep false writeEn d).resetToRead = true) : s.resetToRead = true := by
  rcases h with ⟨-, h, -⟩ | ⟨h, -, -⟩
  · exact h
  · simp [State.wrStep, State.resetStep, h] at hread

theorem Handshake.resetPending [Zero α] {gFwft : Bool} (h : Handshake s) (he : NoReset s e)
    (hp : (Afifo.step gFwft s e).resetPending = true) : s.resetPending = true := by
  simp only [State.resetPending, Bool.or_eq_true] at hp ⊢
  cases e with
  | rd readEn =>
    rcases hp with (hp | hp) | hp
    · exact .inl (.inl hp)
    · exact .inl (.inl hp)
    · exact .inl (.inr hp)
  | wr reset writeEn d =>
    obtain rfl : reset = false := he
    exact hp.imp_left (Or.imp_left h.resetToRead)

theorem Refills.step [Zero α] {gFwft : Bool} (h : Refills s W) (he : NoReset s e)
    (hh : Heeds s e) : Refills (step gFwft s e) (W ++ written s e) where
  handshake := h.handshake.step
  rising := by
    cases e with
    | rd readEn => exact fun hread _ => hread
    | wr reset writeEn d =>
      obtain rfl : reset = false := he
      exact fun hread hff => h.rising (h.handshake.resetToRead hread) hff
  filling hp := by
    have hp' := h.handshake.resetPending he hp
    exact (h.filling hp').step hp' he hh

theorem refills_run [Zero α] {gFwft : Bool} {es : List (Edge α)} (h : Refills s W)
    (hr : Always (step gFwft) NoReset s es) (hh : Always (step gFwft) Heeds s es) :
    Refills (run (step gFwft) s es) (W ++ collect (step gFwft) written s es) := by
  induction es generalizing s W with
  | nil => simpa using h
  | cons e es ih =>
    rw [collect_cons, ← List.append_assoc]
    exact ih (h.step hr.1 hh.1) hr.2 hh.2

/-- The pulse. -/
theorem refills_pulse (h : Quiet s) (writeEn : Bool) (d : α) :
    Refills (s.wrStep true writeEn d) [] := by
  have hsync : (s.wrStep true writeEn d).resetToReadSync = ⟨false, false⟩ := h.resetToReadSync
  refine ⟨.inl ?_, fun _ hff => by simp [hsync] at hff, fun _ => ⟨?_, ?_, trivial, Nat.zero_le _⟩⟩
  · simp [State.wrStep, State.resetStep, h.resetState]
  · simp [State.wrStep, WriteLogic.step]
  · simp [State.wrStep, WriteLogic.step, gray]

/-- The read side stands as its reset leaves it. -/
def State.ReadCleared (s : State D α) : Prop :=
  s.readLogic.emptyR = true ∧ s.readLogic.readAddrR = 0 ∧ s.readLogic.readPointerR = 0 ∧
    s.writePtrSync.dinR = 0 ∧ s.writePtrSync.dinR2 = 0

instance (s : State D α) : Decidable s.ReadCleared := inferInstanceAs (Decidable (_ ∧ _))

theorem readCleared_rdStep [Zero α] (hreset : s.readReset = true) (gFwft readEn : Bool) :
    (s.rdStep gFwft readEn).ReadCleared := by
  simp [State.ReadCleared, State.rdStep, ReadLogic.step, GreyPointerSync.step, hreset]

/-- A read side that starts with the address zero follows the writer. -/
theorem Filling.follows (h : Filling s W) (hc : s.ReadCleared) : Follows s W W.length 0 0 0 := by
  obtain ⟨hempty, haddr, hptr, hdin, hdin2⟩ := hc
  have hfits := h.fits
  refine ⟨h.writeLogic_addr, h.writeLogic_pointer, haddr, ?_, ?_, by omega, by simp [hempty],
    h.window, Nat.zero_add _⟩
  · simp [hptr, gray]
  · have hsync : s.writePtrSync = ⟨s.writePtrSync.dinR, s.writePtrSync.dinR2⟩ := rfl
    rw [hsync, hdin, hdin2]
    simp [gray]

theorem Handshake.quiet (h : Handshake s) (hp : s.resetPending = false) : Quiet s := by
  simp only [State.resetPending, Bool.or_eq_false_iff] at hp
  obtain ⟨⟨hread, hff0⟩, hff1⟩ := hp
  have hsync : s.resetToReadSync = ⟨s.resetToReadSync.ff0, s.resetToReadSync.ff1⟩ := rfl
  rcases h with ⟨-, h, -⟩ | ⟨h₁, h₂, h₃⟩
  · simp [h] at hread
  · exact ⟨h₁, h₂, h₃, by rw [hsync, hff0, hff1]⟩

/-- **The read side leaves its reset**: from here on it follows the writer. -/
theorem Filling.leave [Zero α] {gFwft readEn : Bool} (h : Filling s W) (hs : Handshake s)
    (hin : s.resetPending = true) (hout : (s.rdStep gFwft readEn).resetPending = false) :
    Quiet (s.rdStep gFwft readEn) ∧ Follows (s.rdStep gFwft readEn) W W.length 0 0 0 ∧
      (gFwft = true → stages (s.rdStep gFwft readEn) = []) := by
  have hs' : Handshake (s.rdStep gFwft readEn) := hs
  have hff1 : s.readReset = true := by
    simp only [State.resetPending, State.rdStep, BitSynchroniser.step, Bool.or_eq_true,
      Bool.or_eq_false_iff] at hin hout
    rcases hin with (hin | hin) | hin
    · simp [hin] at hout
    · simp [hin] at hout
    · exact hin
  have h' : Filling (s.rdStep gFwft readEn) W :=
    ⟨h.writeLogic_addr, h.writeLogic_pointer, h.window, h.fits⟩
  refine ⟨hs'.quiet hout, h'.follows (readCleared_rdStep hff1 gFwft readEn), ?_⟩
  rintro rfl
  simp [stages, State.rdStep, FifoFwft.step, hff1]

theorem Refills.leave [Zero α] {gFwft readEn : Bool} (h : Refills s W)
    (hin : s.readReset = true) (hout : (s.rdStep gFwft readEn).readReset = false) :
    Quiet (s.rdStep gFwft readEn) ∧ Follows (s.rdStep gFwft readEn) W W.length 0 0 0 ∧
      (gFwft = true → stages (s.rdStep gFwft readEn) = []) := by
  have hff1 : s.resetToReadSync.ff1 = true := hin
  have hff0 : s.resetToReadSync.ff0 = false := hout
  have hread : s.resetToRead = false := by
    cases hread : s.resetToRead with
    | false => rfl
    | true => simp [h.rising hread hff1] at hff0
  have hp : s.resetPending = true := by simp [State.resetPending, hff1]
  refine (h.filling hp).leave h.handshake hp ?_
  simp [State.resetPending, State.rdStep, BitSynchroniser.step, hread, hff0]

/-! ## Behind the reset -/

theorem Follows.unread (h : Follows s W w w₁ w₂ r) (hq : Quiet s) : s.unread = w - r := by
  have hord := h.order
  have hpow : 2 ^ (D + 1) = 2 ^ D * 2 := Nat.pow_succ 2 D
  have hpos := Nat.two_pow_pos D
  have hp : s.resetPending = false := by
    simp [State.resetPending, hq.resetToRead, hq.resetToReadSync]
  have haddr : s.writeLogic.writeAddrR - s.readLogic.readAddrR = BitVec.ofNat (D + 1) (w - r) := by
    have e : BitVec.ofNat (D + 1) w = BitVec.ofNat (D + 1) (w - r) + BitVec.ofNat (D + 1) r := by
      rw [← BitVec.ofNat_add, Nat.sub_add_cancel (by omega)]
    rw [h.writeLogic_addr, h.readLogic_addr, e, BitVec.add_sub_cancel]
  rw [State.unread, hp, if_neg (by simp), haddr, BitVec.toNat_ofNat, Nat.mod_eq_of_lt (by omega)]

/-- `p` are the words written and not yet delivered. -/
def Refilled (gFwft : Bool) (s : State D α) (_ : Unit) (p : List α) : Prop :=
  ∃ W w w₁ w₂ r, Quiet s ∧ Follows s W w w₁ w₂ r ∧ p = (if gFwft then stages s else []) ++ W

theorem refilled_step [Zero α] (gFwft : Bool) (s : State D α) (g : Unit) (p : List α) (e : Edge α)
    (h : Refilled gFwft s g p) (he : NoReset s e ∧ Heeds s e) :
    ∃ p', Refilled gFwft (step gFwft s e) (run (fun g _ => g) g (written s e)) p' ∧
      p ++ collect (fun g _ => g) (fun _ a => [a]) g (written s e) = delivered gFwft s e ++ p' := by
  obtain ⟨W, w, w₁, w₂, r, hq, hf, rfl⟩ := h
  obtain ⟨hr, hh⟩ := he
  rw [collect_singleton]
  cases e with
  | wr reset writeEn d =>
    obtain rfl : reset = false := hr
    have hroom : stored s writeEn d ≠ [] → s.resetBusySig = false ∧ w < r + 2 ^ D := by
      intro hne
      obtain ⟨h₁, h₂⟩ := hh.room hne
      rw [hf.unread hq] at h₂
      exact ⟨h₁, by omega⟩
    refine ⟨_, ⟨_, _, _, _, _, hq.wrStep writeEn d, hf.wrStep writeEn d hroom, rfl⟩, ?_⟩
    have hst : stages (step gFwft s (.wr false writeEn d)) = stages s := rfl
    rw [written_wr hh, hst, List.append_assoc]
    rfl
  | rd readEn =>
    obtain ⟨W', hW, hf'⟩ := hf.rdStep hq.readReset gFwft readEn
    refine ⟨_, ⟨_, _, _, _, _, hq.rdStep gFwft readEn, hf', rfl⟩, ?_⟩
    have hnone : written s (.rd readEn) = [] := rfl
    rw [hnone, List.append_nil, hW]
    exact onWay_rdStep hq.readReset gFwft readEn W'

/-! ## Every interleaving -/

/-- The state behind a run without a reset and a reset of one cycle. -/
def pulsed [Zero α] (gFwft : Bool) (s : State D α) (es : List (Edge α)) (writeEn : Bool) (d : α) :
    State D α :=
  step gFwft (run (step gFwft) s es) (.wr true writeEn d)

/-- **The asynchronous FIFO is a queue behind a reset** when the writer takes heed: the words
delivered after the read side has left its reset are the first of the words that were written into
the memory after the pulse. -/
theorem delivered_prefix_written [Zero α] (gFwft : Bool) {s : State D α} (h : PowerUp s)
    {es es₁ es₂ : List (Edge α)} {writeEn readEn : Bool} {d : α}
    (hbefore : Always (step gFwft) NoReset s es)
    (hafter : Always (step gFwft) NoReset (pulsed gFwft s es writeEn d)
      (es₁ ++ .rd readEn :: es₂))
    (hin : (run (step gFwft) (pulsed gFwft s es writeEn d) es₁).readReset = true)
    (hout : (run (step gFwft) (pulsed gFwft s es writeEn d)
      (es₁ ++ [.rd readEn])).readReset = false)
    (hheeds : Always (step gFwft) Heeds (pulsed gFwft s es writeEn d)
      (es₁ ++ .rd readEn :: es₂)) :
    collect (step gFwft) (delivered gFwft)
        (run (step gFwft) (pulsed gFwft s es writeEn d) (es₁ ++ [.rd readEn])) es₂ <+:
      collect (step gFwft) written (pulsed gFwft s es writeEn d) (es₁ ++ .rd readEn :: es₂) := by
  have hquiet : Quiet (run (step gFwft) s es) := by
    refine run_invariant (fun s e hs he => ?_) h.quiet hbefore
    cases e with
    | rd readEn => exact hs.rdStep gFwft readEn
    | wr reset writeEn d =>
      obtain rfl : reset = false := he
      exact hs.wrStep writeEn d
  rw [always_append] at hafter hheeds
  have hrefills := refills_run (refills_pulse hquiet writeEn d) hafter.1 hheeds.1
  rw [run_append] at hout
  obtain ⟨hq, hf, hst⟩ := hrefills.leave hin hout
  rw [run_append]
  have howed : Refilled gFwft (step gFwft (run (step gFwft) (pulsed gFwft s es writeEn d) es₁)
      (.rd readEn)) () (collect (step gFwft) written (pulsed gFwft s es writeEn d) es₁) := by
    refine ⟨_, _, _, _, _, hq, hf, ?_⟩
    cases gFwft with
    | false => rfl
    | true =>
      have hnil : stages (step true (run (step true) (pulsed true s es writeEn d) es₁)
          (.rd readEn)) = [] := hst rfl
      rw [hnil]
      rfl
  obtain ⟨p, -, e⟩ := exists_pending (refilled_step gFwft) howed (hafter.2.2.and hheeds.2.2)
  rw [collect_singleton] at e
  rw [collect_append, collect_cons]
  exact ⟨p, e.symm⟩

/-- The edges that bring the reset to the read side and back, with `write_en` and `write_data` at
the first of the three edges of the write clock. -/
def handshake (writeEn : Bool) (d : BitVec 8) : List (Edge (BitVec 8)) :=
  [.rd true, .rd true, .wr false writeEn d, .wr false false 0, .wr false false 0]

/-- Two words are written when `reset_busy` has fallen and the read side is still in its reset. -/
theorem delivered_prefix_written_two :
    collect (step true) (delivered true)
      (run (step true) (pulsed true (initial 11) [] false 0)
        (handshake false 0 ++ [.wr false true 5, .wr false true 6, .rd true] ++ [.rd true]))
      (List.replicate 8 (.rd true)) = [5, 6] ∧
    collect (step true) (delivered true)
      (run (step true) (pulsed true (initial 11) [] false 0)
        (handshake false 0 ++ [.wr false true 5, .wr false true 6, .rd true] ++ [.rd true]))
      (List.replicate 8 (.rd true)) <+:
    collect (step true) written (pulsed true (initial 11) [] false 0)
      (handshake false 0 ++ [.wr false true 5, .wr false true 6, .rd true] ++
        .rd true :: List.replicate 8 (.rd true)) :=
  ⟨by decide +kernel,
    delivered_prefix_written true (initial_powerUp 11) trivial (by decide +kernel)
      (by decide +kernel) (by decide +kernel) (by decide +kernel)⟩

/-- A word offered while `reset_busy` is high is not written, but a word is delivered in its
place. -/
theorem not_delivered_prefix_written : PowerUp (initial 11) ∧
    Always (step true) NoReset (pulsed true (initial 11) [] false 0)
      (handshake true 7 ++ [.rd true] ++ .rd true :: List.replicate 6 (.rd true)) ∧
    (run (step true) (pulsed true (initial 11) [] false 0)
      (handshake true 7 ++ [.rd true])).readReset = true ∧
    (run (step true) (pulsed true (initial 11) [] false 0)
      (handshake true 7 ++ [.rd true] ++ [.rd true])).readReset = false ∧
    collect (step true) (delivered true)
      (run (step true) (pulsed true (initial 11) [] false 0)
        (handshake true 7 ++ [.rd true] ++ [.rd true])) (List.replicate 6 (.rd true)) = [0] ∧
    ¬ collect (step true) (delivered true)
      (run (step true) (pulsed true (initial 11) [] false 0)
        (handshake true 7 ++ [.rd true] ++ [.rd true])) (List.replicate 6 (.rd true)) <+:
    collect (step true) written (pulsed true (initial 11) [] false 0)
      (handshake true 7 ++ [.rd true] ++ .rd true :: List.replicate 6 (.rd true)) := by
  refine ⟨initial_powerUp 11, ?_, ?_, ?_, ?_, ?_⟩ <;> decide +kernel

/-- The writer counts on the read pointer from before the reset: five words are written into four
rows before the read side starts again. -/
example : collect (step true) (delivered true)
      (run (step true)
        (pulsed true (initial 2) (.wr false true 9 :: List.replicate 4 (.rd true)) false 0)
        (handshake false 0 ++ [1, 2, 3, 4, 5].map (.wr false true) ++ [.rd true, .rd true]))
      (List.replicate 10 (.rd true)) = [5, 2, 3, 4, 5] := by
  decide +kernel

end RmiiEthernet.Afifo
