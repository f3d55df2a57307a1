import RmiiEthernet.Prbs.Generator
import RmiiEthernet.Sync.Run

/-!
# The verifier of pseudo-random bits

`prbs_verifier` takes the first bits it gets for the register of its own generator and compares what
comes after them. Without an error for a while it is locked; in lock too many errors unlock it. The
register is taken from the stream once only.

What the counters do is a machine of its own (`Score`), driven by the number of errors in each word:
without errors it ends in lock and the errors stay (`Score.settles`), with errors again and again
their number rises again and again (`Score.rises`).
-/

namespace RmiiEthernet

open Sync

namespace PrbsVerifier

/-- `status_t`. -/
structure Status where
  numBits : BitVec 64
  numBitErrors : BitVec 64
  locked : Bool
  lockCount : BitVec 64
  deriving DecidableEq

/-- `state_t`. -/
inductive VerifierState
  | init
  | locking
  | locked
  deriving DecidableEq

end PrbsVerifier

open PrbsVerifier

/-- The members of a `prbs_verifier`. -/
structure PrbsVerifier where
  state : VerifierState
  initReg : BitVec 32
  lockThreshold : BitVec 64
  unlockThreshold : BitVec 64
  sucessCounter : BitVec 64
  prbs : Prbs
  status : Status
  deriving DecidableEq

namespace PrbsVerifier

open Prbs

/-- The constructor. -/
def make (wrapv : Bool) (taps : List ℕ) (invert : Bool) : Except Fault PrbsVerifier := do
  let prbs ← Prbs.make wrapv taps 0 invert
  .ok
    { state := .init
      initReg := 0
      lockThreshold := 2048
      unlockThreshold := 128
      sucessCounter := 0
      prbs := prbs
      status := ⟨0, 0, false, 0⟩ }

/-- `__builtin_popcount`. -/
def popcount (x : BitVec 32) : ℕ := (List.range 32).countP fun i => x.getLsbD i

/-- `push_bits`. -/
def pushBits (wrapv : Bool) (v : PrbsVerifier) (reg : BitVec 32) (numBits : ℕ) :
    Except Fault PrbsVerifier := do
  let regMask ← mask wrapv numBits
  let reg := reg &&& regMask
  match v.state with
  | .init =>
    let shifted ← shiftLeft v.initReg numBits
    let initReg := shifted ||| reg
    let status := { v.status with numBits := v.status.numBits + BitVec.ofNat 64 numBits }
    if v.prbs.highTap ≤ status.numBits.toNat then
      .ok { v with
        initReg := initReg, status := status, prbs := v.prbs.setReg initReg, state := .locking }
    else .ok { v with initReg := initReg, status := status }
  | .locking =>
    let (word, prbs) ← getWord wrapv v.prbs numBits
    let numErrors := popcount (reg ^^^ word)
    let numBitErrors := v.status.numBitErrors + BitVec.ofNat 64 numErrors
    let sucessCounter :=
      if numErrors ≠ 0 then 0 else v.sucessCounter + BitVec.ofNat 64 numBits
    let locks : Bool := v.lockThreshold ≤ sucessCounter
    .ok { v with
      prbs := prbs
      sucessCounter := sucessCounter
      state := if locks then .locked else .locking
      status :=
        { numBits := v.status.numBits + BitVec.ofNat 64 numBits
          numBitErrors := numBitErrors
          locked := v.status.locked || locks
          lockCount := if locks then v.status.lockCount + 1 else v.status.lockCount } }
  | .locked =>
    let (word, prbs) ← getWord wrapv v.prbs numBits
    let numErrors := popcount (reg ^^^ word)
    let numBitErrors := v.status.numBitErrors + BitVec.ofNat 64 numErrors
    if v.unlockThreshold ≤ numBitErrors then
      .ok { v with
        prbs := prbs
        state := .locking
        status := { v.status with numBits := 0, numBitErrors := 0, locked := false } }
    else
      .ok { v with
        prbs := prbs
        status := { v.status with
          numBits := v.status.numBits + BitVec.ofNat 64 numBits
          numBitErrors := numBitErrors } }

/-- Bytes pushed one after the other. -/
def pushBytes (wrapv : Bool) (v : PrbsVerifier) (bs : List (BitVec 32)) :
    Except Fault PrbsVerifier :=
  bs.foldlM (fun v b => pushBits wrapv v b 8) v

/-! ## The counters -/

/-- What the counters are about: whether the verifier is locked, the bits without an error and the
errors. -/
structure Score where
  locked : Bool
  sucessCounter : BitVec 64
  numBitErrors : BitVec 64

namespace Score

/-- A byte with `e` errors. -/
def step (s : Score) (e : ℕ) : Score :=
  if s.locked then
    if 128 ≤ s.numBitErrors + BitVec.ofNat 64 e then ⟨false, s.sucessCounter, 0⟩
    else ⟨true, s.sucessCounter, s.numBitErrors + BitVec.ofNat 64 e⟩
  else if e = 0 then ⟨2048 ≤ s.sucessCounter + 8, s.sucessCounter + 8, s.numBitErrors⟩
  else ⟨false, 0, s.numBitErrors + BitVec.ofNat 64 e⟩

section Step

variable {s : Score} {e : ℕ}

theorem step_unlock (h : s.locked = true) (hle : 128 ≤ s.numBitErrors + BitVec.ofNat 64 e) :
    s.step e = ⟨false, s.sucessCounter, 0⟩ := by
  rw [step, if_pos h, if_pos hle]

theorem step_locked (h : s.locked = true) (hle : ¬ 128 ≤ s.numBitErrors + BitVec.ofNat 64 e) :
    s.step e = ⟨true, s.sucessCounter, s.numBitErrors + BitVec.ofNat 64 e⟩ := by
  rw [step, if_pos h, if_neg hle]

theorem step_zero (h : s.locked = false) :
    s.step 0 = ⟨2048 ≤ s.sucessCounter + 8, s.sucessCounter + 8, s.numBitErrors⟩ := by
  rw [step, if_neg (by simp [h]), if_pos rfl]

theorem step_error (h : s.locked = false) (he : 0 < e) :
    s.step e = ⟨false, 0, s.numBitErrors + BitVec.ofNat 64 e⟩ := by
  rw [step, if_neg (by simp [h]), if_neg he.ne']

end Step

/-- In lock, and not about to leave it. -/
def Settled (s : Score) : Prop := s.locked = true ∧ s.numBitErrors < 128

theorem Settled.step_eq {s : Score} (h : s.Settled) : s.step 0 = s := by
  obtain ⟨hlocked, herrors⟩ := h
  obtain ⟨locked, sucessCounter, numBitErrors⟩ := s
  obtain rfl : locked = true := hlocked
  rw [step_locked rfl (by bv_omega)]
  simp

/-- Nothing but bytes without an error. -/
def zeros (s : Score) (n : ℕ) : Score := run step s (List.replicate n 0)

theorem zeros_succ (s : Score) (n : ℕ) : s.zeros (n + 1) = (s.step 0).zeros n := rfl

theorem zeros_add (s : Score) (m n : ℕ) : s.zeros (m + n) = (s.zeros m).zeros n := by
  rw [zeros, List.replicate_add, run_append]
  rfl

theorem zeros_numBitErrors {s : Score} (h : s.numBitErrors = 0) (n : ℕ) :
    (s.zeros n).numBitErrors = 0 := by
  induction n generalizing s with
  | zero => exact h
  | succ n ih =>
    rw [zeros_succ]
    refine ih ?_
    cases hlocked : s.locked with
    | true =>
      rw [step_locked hlocked (by rw [h]; decide), h]
      rfl
    | false => rw [step_zero hlocked, h]

theorem Settled.zeros_eq {s : Score} (h : s.Settled) (n : ℕ) : s.zeros n = s := by
  induction n with
  | zero => rfl
  | succ n ih => rw [zeros_succ, h.step_eq, ih]

/-- Out of lock the counter comes to the threshold, if it does not wrap around before. -/
theorem exists_locked_of_lt {s : Score} (h : s.locked = false)
    (hlt : s.sucessCounter.toNat + 8 < 2 ^ 64) :
    ∃ n, (s.zeros n).locked = true ∧ (s.zeros n).numBitErrors = s.numBitErrors := by
  by_cases hlock : 2048 ≤ s.sucessCounter + 8
  · refine ⟨1, ?_, ?_⟩
    · rw [zeros_succ, step_zero h]
      exact decide_eq_true hlock
    · rw [zeros_succ, step_zero h]
      rfl
  · have hcounter : (s.sucessCounter + 8).toNat = s.sucessCounter.toNat + 8 := by bv_omega
    have hless : s.sucessCounter.toNat + 8 < 2048 := by bv_omega
    have hnext : (s.step 0).sucessCounter.toNat = s.sucessCounter.toNat + 8 := by
      rw [step_zero h, hcounter]
    obtain ⟨n, hlocked, herrors⟩ := exists_locked_of_lt (s := s.step 0)
      (by rw [step_zero h]; exact decide_eq_false hlock) (by omega)
    exact ⟨n + 1, hlocked, by rw [zeros_succ, herrors, step_zero h]⟩
  termination_by 2048 - s.sucessCounter.toNat

theorem exists_locked {s : Score} (h : s.locked = false) :
    ∃ n, (s.zeros n).locked = true ∧ (s.zeros n).numBitErrors = s.numBitErrors := by
  by_cases hlt : s.sucessCounter.toNat + 8 < 2 ^ 64
  · exact exists_locked_of_lt h hlt
  · -- the counter wraps around
    obtain ⟨n, hlocked, herrors⟩ := exists_locked_of_lt (s := s.step 0)
      (by rw [step_zero h]; exact decide_eq_false (by bv_omega))
      (by rw [step_zero h]; bv_omega)
    exact ⟨n + 1, hlocked, by rw [zeros_succ, herrors, step_zero h]⟩

/-- **Without errors** the verifier ends in lock, from any counters. -/
theorem settles (s : Score) : ∃ n, (s.zeros n).Settled := by
  have hclear : ∀ s : Score, s.numBitErrors = 0 → ∃ n, (s.zeros n).Settled := by
    intro s hs
    cases hlocked : s.locked with
    | true =>
      have hzero : (s.zeros 0).numBitErrors = 0 := hs
      exact ⟨0, hlocked, by rw [hzero]; decide⟩
    | false =>
      obtain ⟨n, hn, herrors⟩ := exists_locked hlocked
      exact ⟨n, hn, by rw [herrors, hs]; decide⟩
  have hlocked : ∀ s : Score, s.locked = true → ∃ n, (s.zeros n).Settled := by
    intro s hs
    by_cases herrors : s.numBitErrors < 128
    · exact ⟨0, hs, herrors⟩
    · -- the errors from before the lock unlock it, and are cleared
      obtain ⟨n, hn⟩ := hclear (s.step 0) (by rw [step_unlock hs (by bv_omega)])
      exact ⟨n + 1, hn⟩
  cases hs : s.locked with
  | true => exact hlocked s hs
  | false =>
    obtain ⟨m, hm, -⟩ := exists_locked hs
    obtain ⟨n, hn⟩ := hlocked _ hm
    exact ⟨m + n, by rwa [zeros_add]⟩

/-- Few errors become more. -/
theorem lt_step {s : Score} {e : ℕ} (he : 0 < e) (he' : e ≤ 32) (hs : s.numBitErrors ≤ 32) :
    s.numBitErrors < (s.step e).numBitErrors := by
  cases hlocked : s.locked with
  | true =>
    rw [step_locked hlocked (by bv_omega)]
    bv_omega
  | false =>
    rw [step_error hlocked he]
    bv_omega

/-- Where the errors do not become more, they are cleared or wrap around. -/
theorem step_le_of_not_lt {s : Score} {e : ℕ} (he : 0 < e) (he' : e ≤ 32)
    (h : ¬ s.numBitErrors < (s.step e).numBitErrors) : (s.step e).numBitErrors ≤ 32 := by
  cases hlocked : s.locked with
  | true =>
    by_cases hle : 128 ≤ s.numBitErrors + BitVec.ofNat 64 e
    · rw [step_unlock hlocked hle]
      bv_omega
    · rw [step_locked hlocked hle] at h ⊢
      bv_omega
  | false =>
    rw [step_error hlocked he] at h ⊢
    bv_omega

/-- **With errors again and again** their number rises again and again. -/
theorem rises {score : ℕ → Score} {errors : ℕ → ℕ}
    (hscore : ∀ n, score (n + 1) = (score n).step (errors n)) (hle : ∀ n, errors n ≤ 32)
    (herrors : ∀ n, ∃ m, n ≤ m ∧ 0 < errors m) (n : ℕ) :
    ∃ m, n ≤ m ∧ (score m).numBitErrors < (score (m + 1)).numBitErrors := by
  by_contra hnever
  push Not at hnever
  have hmono : ∀ j k, n ≤ j → j ≤ k → (score k).numBitErrors ≤ (score j).numBitErrors := by
    intro j k hj hk
    induction k, hk using Nat.le_induction with
    | base => exact BitVec.le_refl _
    | succ k hk ih =>
      have hle := hnever k (by omega)
      bv_omega
  obtain ⟨j, hj, hpos⟩ := herrors n
  obtain ⟨k, hk, hpos'⟩ := herrors (j + 1)
  have hfew : (score (j + 1)).numBitErrors ≤ 32 := by
    have hle' := hnever j hj
    rw [hscore] at hle' ⊢
    exact step_le_of_not_lt hpos (hle j) hle'
  have hfew' : (score k).numBitErrors ≤ 32 :=
    BitVec.le_trans (hmono (j + 1) k (by omega) hk) hfew
  have hlt := lt_step hpos' (hle k) hfew'
  rw [← hscore] at hlt
  exact hnever k (by omega) hlt

end Score

end PrbsVerifier

end RmiiEthernet
