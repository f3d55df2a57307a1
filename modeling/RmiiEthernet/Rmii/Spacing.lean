import RmiiEthernet.Rmii.Receiver

/-!
# The pace of the RMII receiver

Whatever comes over the line, `rmii_mac_rx` makes a byte of four di-bits, and after a realignment of
three: so there are two cycles at least between two bytes at its output, and five behind the last
byte of a packet, since a delimiter has to come before the next one. `distance` bounds the cycles to
the next byte from below; a cycle takes at most one off it (`distance_step`).
-/

namespace RmiiEthernet.RmiiMacRx

open Sync

variable {s : State} {i : Inputs}

/-- The edges until `rx_byte_valid` can rise. -/
def due (s : State) : ℕ :=
  if s.byteCounterReset then if s.byteCounter = 3 then 1 else 4 else 4 - s.byteCounter.toNat

/-- The edges before one at which a byte can stand at the output. -/
def distance (s : State) : ℕ :=
  if s.mAxisTvalid then 0
  else if s.rxByteValidR then 1
  else match s.fsmState with
    | .data => if s.rxByteValid then 2 else due s + 2
    | .waitForSfd => (if s.rxByteValid then 0 else due s) + 5

/-- **The bytes on their way are apart.** -/
structure Spread (s : State) : Prop where
  rxByteValid : s.rxByteValid = true → 3 ≤ due s
  rxByteValidR : s.rxByteValidR = true → s.rxByteValid = false ∧ 2 ≤ due s
  mAxisTvalid : s.mAxisTvalid = true → s.rxByteValidR = false ∧ s.rxByteValid = false
  rxByteLastR : s.rxByteValidR = true → s.rxByteLastR = true → s.fsmState = .waitForSfd
  mAxisTlast : s.mAxisTvalid = true → s.mAxisTlast = true → s.fsmState = .waitForSfd

theorem PowerUp.spread (h : PowerUp s) : Spread s where
  rxByteValid hv := by simp [h.rxByteValid] at hv
  rxByteValidR hv := by simp [h.rxByteValidR] at hv
  mAxisTvalid _ := ⟨h.rxByteValidR, h.rxByteValid⟩
  rxByteLastR _ _ := h.fsmState
  mAxisTlast _ _ := h.fsmState

theorem one_le_due (s : State) : 1 ≤ due s := by
  have := s.byteCounter.isLt
  unfold due
  split
  · split <;> omega
  · omega

/-- The counter comes nearer by one edge. -/
theorem due_step (s : State) (i : Inputs) : due s ≤ due (step s i) + 1 := by
  have hnext : ∀ c : BitVec 2, c ≠ 3 → (c + 1).toNat = c.toNat + 1 := by decide
  have hlt := (step s i).byteCounter.isLt
  have hone := one_le_due (step s i)
  by_cases hc : s.byteCounter = 3
  · have : due s = 1 := by
      unfold due
      rw [hc]
      split <;> rfl
    omega
  · cases hr : s.byteCounterReset with
    | true =>
      have hcount : (step s i).byteCounter = 1 := by simp [step, hr]
      unfold due
      rw [hcount, hr, if_pos rfl, if_neg hc]
      split <;> simp
    | false =>
      have hcount : (step s i).byteCounter = s.byteCounter + 1 := by simp [step, hr]
      have hn := hnext _ hc
      unfold due
      rw [hcount, hr]
      simp only [Bool.false_eq_true, if_false]
      split
      · split
        · next h3 =>
          rw [h3] at hn
          have : s.byteCounter.toNat = 2 := by simpa using hn.symm
          omega
        · omega
      · omega

/-- A byte is complete only when it is due, and the next one is three edges away. -/
theorem due_of_rxByteValid (hv : (step s i).rxByteValid = true) :
    due s = 1 ∧ 3 ≤ due (step s i) := by
  have hc : s.byteCounter = 3 := by
    simp only [step, byteCounterMax, Bool.and_eq_true, beq_iff_eq] at hv
    exact hv.2.1
  refine ⟨?_, ?_⟩
  · unfold due
    rw [hc]
    split <;> rfl
  · have hcount : (step s i).byteCounter = if s.byteCounterReset then 1 else 0 := by
      simp only [step, hc]
      rfl
    unfold due
    rw [hcount]
    cases s.byteCounterReset <;> cases (step s i).byteCounterReset <;> decide

/-- Where a byte stands in the first register, the state machine has dealt with it at the next
edge. -/
theorem rxByteValid_of_passed (hv : (step s i).rxByteValidR = true) :
    s.rxByteValid = true ∧ s.fsmState = .data ∧
      (step s i).fsmState = advance s ∧ (step s i).rxByteLastR = s.rxByteLast := by
  cases hr : i.reset with
  | true => simp [step, hr] at hv
  | false =>
    cases hf : s.fsmState with
    | waitForSfd => simp [step, hr, hf] at hv
    | data =>
      have hdata : (FsmState.data == .waitForSfd) = false := rfl
      have hs : s.rxByteValid = true := by
        by_contra hs
        simp [step, hs] at hv
      exact ⟨hs, rfl, by simp [step, hr], by simp [step, hr, hf, hdata]⟩

/-- The output register follows. -/
theorem rxByteValidR_of_shown (hv : (step s i).mAxisTvalid = true) :
    s.rxByteValidR = true ∧ i.reset = false ∧ (step s i).mAxisTlast = s.rxByteLastR := by
  cases hr : i.reset with
  | true => simp [step, hr] at hv
  | false => exact ⟨by simpa [step, hr] using hv, rfl, by simp [step, hr]⟩

/-- A byte is not complete before it is due. -/
theorem rxByteValid_step (h : 2 ≤ due s) (i : Inputs) : (step s i).rxByteValid = false := by
  by_contra hv
  have := (due_of_rxByteValid (by simpa using hv)).1
  omega

/-- **One cycle**, with any inputs. -/
theorem Spread.step (h : Spread s) (i : Inputs) : Spread (step s i) where
  rxByteValid hv := (due_of_rxByteValid hv).2
  rxByteValidR hv := by
    have hdue := h.rxByteValid (rxByteValid_of_passed hv).1
    have := due_step s i
    exact ⟨rxByteValid_step (by omega) i, by omega⟩
  mAxisTvalid hv := by
    obtain ⟨hnone, hdue⟩ := h.rxByteValidR (rxByteValidR_of_shown hv).1
    exact ⟨by simp [RmiiMacRx.step, hnone], rxByteValid_step hdue i⟩
  rxByteLastR hv hl := by
    obtain ⟨hs, hf, hnext, hlast⟩ := rxByteValid_of_passed hv
    rw [hlast] at hl
    simp [hnext, advance, hf, hs, hl]
  mAxisTlast hv hl := by
    obtain ⟨hs, hr, hlast⟩ := rxByteValidR_of_shown hv
    rw [hlast] at hl
    have hwait := h.rxByteLastR hs hl
    have hnone := (h.rxByteValidR hs).1
    simp [RmiiMacRx.step, hr, advance, hwait, hnone]

theorem one_le_distance (h : s.mAxisTvalid = false) : 1 ≤ distance s := by
  have := one_le_due s
  unfold distance
  rw [h]
  cases s.fsmState <;> cases s.rxByteValidR <;> cases s.rxByteValid <;> simp

theorem two_le_distance (h : s.mAxisTvalid = false) (h' : s.rxByteValidR = false) :
    2 ≤ distance s := by
  have := one_le_due s
  unfold distance
  rw [h, h']
  cases s.fsmState <;> cases s.rxByteValid <;> simp

/-- What stands between the state machine and the output is gone. -/
theorem distance_of_empty (h : s.mAxisTvalid = false) (h' : s.rxByteValidR = false) :
    distance s = match s.fsmState with
      | .data => if s.rxByteValid then 2 else due s + 2
      | .waitForSfd => (if s.rxByteValid then 0 else due s) + 5 := by
  simp [distance, h, h']

/-- **A cycle takes at most one off the distance.** -/
theorem Spread.distance_step (h : Spread s) (i : Inputs) :
    distance s ≤ distance (RmiiMacRx.step s i) + 1 := by
  have hdue := due_step s i
  cases hshown : s.mAxisTvalid with
  | true => simp [distance, hshown]
  | false =>
    cases hpassed : s.rxByteValidR with
    | true => simp [distance, hshown, hpassed]
    | false =>
      have hshown' : (RmiiMacRx.step s i).mAxisTvalid = false := by
        simp [RmiiMacRx.step, hpassed]
      rw [distance_of_empty hshown hpassed]
      cases hf : s.fsmState with
      | data =>
        cases hv : s.rxByteValid with
        | true =>
          have := one_le_distance hshown'
          simp only [if_true]
          omega
        | false =>
          have hpassed' : (RmiiMacRx.step s i).rxByteValidR = false := by
            simp [RmiiMacRx.step, hv]
          rw [distance_of_empty hshown' hpassed']
          cases hv' : (RmiiMacRx.step s i).rxByteValid with
          | true =>
            have := (due_of_rxByteValid hv').1
            cases (RmiiMacRx.step s i).fsmState <;> simp <;> omega
          | false => cases (RmiiMacRx.step s i).fsmState <;> simp <;> omega
      | waitForSfd =>
        have hpassed' : (RmiiMacRx.step s i).rxByteValidR = false := by
          simp [RmiiMacRx.step, hf]
        rw [distance_of_empty hshown' hpassed']
        cases hv : s.rxByteValid with
        | true =>
          have hthree := h.rxByteValid hv
          have hv' := rxByteValid_step (show 2 ≤ due s by omega) i
          cases (RmiiMacRx.step s i).fsmState <;> simp [hv']; omega
        | false =>
          have hwait : (RmiiMacRx.step s i).fsmState = .waitForSfd := by
            simp [RmiiMacRx.step, advance, hf, hv]
          cases hv' : (RmiiMacRx.step s i).rxByteValid with
          | true =>
            have := (due_of_rxByteValid hv').1
            simp [hwait]
            omega
          | false =>
            simp [hwait]
            omega

/-- **Behind a byte there are two cycles**, and five behind the last byte of a packet. -/
theorem Spread.distance_of_shown (h : Spread s) (hv : s.mAxisTvalid = true) (i : Inputs) :
    2 ≤ distance (RmiiMacRx.step s i) ∧
      (s.mAxisTlast = true → 5 ≤ distance (RmiiMacRx.step s i)) := by
  obtain ⟨hpassed, hvalid⟩ := h.mAxisTvalid hv
  have hshown' : (RmiiMacRx.step s i).mAxisTvalid = false := by simp [RmiiMacRx.step, hpassed]
  have hpassed' : (RmiiMacRx.step s i).rxByteValidR = false := by simp [RmiiMacRx.step, hvalid]
  refine ⟨two_le_distance hshown' hpassed', fun hlast => ?_⟩
  have hwait : (RmiiMacRx.step s i).fsmState = .waitForSfd := by
    simp [RmiiMacRx.step, advance, h.mAxisTlast hv hlast, hvalid]
  rw [distance_of_empty hshown' hpassed', hwait]
  exact Nat.le_add_left _ _

end RmiiEthernet.RmiiMacRx
