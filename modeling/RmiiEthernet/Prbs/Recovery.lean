import RmiiEthernet.Prbs.Verifier
import Mathlib.Tactic.IntervalCases

/-!
# Whether the verifier recovers

With the taps 23 and 18 the register has gone through 23 bits after three bytes, and is what they
say (`next_three`). So two registers that give the same three bytes are the same, and two different
ones give a different byte in any three (`exists_word_ne`). The verifier takes its register from the
first three bytes it gets and never again; whether it agrees with a stream that comes later is
decided there and then (`InPhase`).
-/

namespace RmiiEthernet

open Sync

namespace Prbs

/-! ## Bytes with the taps 23 and 18 -/

/-- A generator with the taps 23 and 18. -/
def bench (reg : BitVec 32) : Prbs := ⟨[23, 18], true, reg, lowMask 23, 23, 18⟩

/-- The next byte. -/
def word (reg : BitVec 32) : BitVec 32 := ~~~(reg >>> 15 ^^^ reg >>> 10) &&& lowMask 8

/-- The register after the next byte. -/
def next (reg : BitVec 32) : BitVec 32 := (reg <<< 8 ||| word reg) &&& lowMask 23

theorem make_bench (wrapv : Bool) (seed : BitVec 32) :
    make wrapv [23, 18] seed true = .ok (bench seed) := by
  change (do let regMask ← mask wrapv 23; Except.ok (Prbs.mk [23, 18] true seed regMask 23 18)) = _
  rw [mask_eq (.inl (by decide))]
  rfl

theorem getWord_bench (wrapv : Bool) (reg : BitVec 32) :
    getWord wrapv (bench reg) 8 = .ok (word reg, bench (next reg)) := by
  have hbits : ¬ (bench reg).lowTap < 8 := by simp [bench]
  rw [getWord, if_neg hbits, mask_eq (.inl (by decide))]
  rfl

theorem getLsbD_word (reg : BitVec 32) (i : ℕ) :
    (word reg).getLsbD i = (decide (i < 8) && !(reg.getLsbD (15 + i) ^^ reg.getLsbD (10 + i))) := by
  rw [word, BitVec.getLsbD_and, getLsbD_lowMask (by decide), Bool.and_comm]
  by_cases hi : i < 8
  · have hlt : i < 32 := by omega
    simp [hi, hlt]
  · simp [hi]

theorem getLsbD_word_of_le (reg : BitVec 32) {i : ℕ} (hi : 8 ≤ i) :
    (word reg).getLsbD i = false := by
  rw [getLsbD_word, decide_eq_false (by omega), Bool.false_and]

theorem valid_bench (reg : BitVec 32) : Valid false (bench reg) where
  taps_ne := by simp [bench]
  lowTap_pos := by simp [bench]
  lowTap_le := by simp [bench]
  le_highTap := by simp [bench]
  highTap_le := by simp [bench]
  regMask := rfl

theorem getLsbD_next (reg : BitVec 32) (i : ℕ) :
    (next reg).getLsbD i =
      (decide (i < 23) && if i < 8 then (word reg).getLsbD i else reg.getLsbD (i - 8)) :=
  (valid_bench reg).getLsbD_shifted (fun _ => getLsbD_word_of_le reg) i

/-- A register has no more than 23 bits. -/
def Short (reg : BitVec 32) : Prop := ∀ i, 23 ≤ i → reg.getLsbD i = false

theorem short_next (reg : BitVec 32) : Short (next reg) := by
  intro i hi
  rw [getLsbD_next, decide_eq_false (by omega), Bool.false_and]

theorem short_and_lowBits (reg : BitVec 32) : Short (reg &&& lowMask 23) := by
  intro i hi
  rw [BitVec.getLsbD_and, getLsbD_lowMask (by decide), decide_eq_false (by omega), Bool.and_false]

/-- **No bit is lost**: the register before a byte can be read off the register after it. -/
theorem next_injective {reg reg' : BitVec 32} (hs : Short reg) (hs' : Short reg')
    (h : next reg = next reg') : reg = reg' := by
  have hbit : ∀ i, (next reg).getLsbD i = (next reg').getLsbD i := fun i => by rw [h]
  have hlow : ∀ i < 15, reg.getLsbD i = reg'.getLsbD i := by
    intro i hi
    have hi' := hbit (i + 8)
    rwa [getLsbD_next, getLsbD_next, decide_eq_true (by omega), Bool.true_and, Bool.true_and,
      if_neg (by omega), if_neg (by omega), Nat.add_sub_cancel] at hi'
  -- a bit that has gone is the new bit with the other tap taken out
  have hhigh : ∀ i < 8, reg.getLsbD (10 + i) = reg'.getLsbD (10 + i) →
      reg.getLsbD (15 + i) = reg'.getLsbD (15 + i) := by
    intro i hi heq
    have hi' := hbit i
    rw [getLsbD_next, getLsbD_next, decide_eq_true (by omega), Bool.true_and, Bool.true_and,
      if_pos hi, if_pos hi, getLsbD_word, getLsbD_word, decide_eq_true hi, Bool.true_and,
      Bool.true_and, heq] at hi'
    simpa using hi'
  have hmid : ∀ i < 5, reg.getLsbD (15 + i) = reg'.getLsbD (15 + i) :=
    fun i hi => hhigh i (by omega) (hlow _ (by omega))
  apply BitVec.eq_of_getLsbD_eq
  intro i _
  by_cases hi : i < 15
  · exact hlow i hi
  · by_cases hi' : i < 20
    · have hmid' := hmid (i - 15) (by omega)
      rwa [Nat.add_sub_cancel' (by omega)] at hmid'
    · by_cases hi'' : i < 23
      · have hhigh' := hhigh (i - 15) (by omega) (by
          have hmid' := hmid (i - 20) (by omega)
          rwa [show 15 + (i - 20) = 10 + (i - 15) by omega] at hmid')
        rwa [Nat.add_sub_cancel' (by omega)] at hhigh'
      · rw [hs i (by omega), hs' i (by omega)]

/-- The register of three bytes. -/
def ofBytes (b₀ b₁ b₂ : BitVec 32) : BitVec 32 :=
  ((((0 <<< 8 ||| b₀) <<< 8) ||| b₁) <<< 8 ||| b₂) &&& lowMask 23

/-- **Three bytes** say what the register is. -/
theorem next_three (reg : BitVec 32) :
    next (next (next reg)) = ofBytes (word reg) (word (next reg)) (word (next (next reg))) := by
  apply BitVec.eq_of_getLsbD_eq
  intro i hi
  rw [getLsbD_next, ofBytes, BitVec.getLsbD_and, getLsbD_lowMask (by decide), Bool.and_comm,
    BitVec.getLsbD_or, BitVec.getLsbD_shiftLeft, BitVec.getLsbD_or, BitVec.getLsbD_shiftLeft]
  by_cases h₂₃ : i < 23
  · by_cases h₈ : i < 8
    · simp [h₂₃, h₈]
    · rw [getLsbD_next, getLsbD_word_of_le _ (by omega : 8 ≤ i), if_neg h₈]
      by_cases h₁₆ : i - 8 < 8
      · simp [h₂₃, h₈, h₁₆, hi, show i - 8 < 23 by omega]
      · rw [getLsbD_next, getLsbD_word_of_le _ (by omega : 8 ≤ i - 8), if_neg h₁₆,
          if_pos (by omega)]
        simp [h₂₃, h₈, h₁₆, hi, show i - 8 < 23 by omega, show i - 8 - 8 < 23 by omega,
          show i - 8 < 32 by omega]
  · simp [h₂₃]

/-- Two different registers give a different byte in any three. -/
theorem exists_word_ne {reg reg' : BitVec 32} (hs : Short reg) (hs' : Short reg')
    (hne : reg ≠ reg') : ∃ j < 3, word (next^[j] reg) ≠ word (next^[j] reg') := by
  by_contra hall
  push Not at hall
  refine hne (next_injective hs hs' (next_injective (short_next _) (short_next _)
    (next_injective (short_next _) (short_next _) ?_)))
  rw [next_three, next_three]
  congr 1
  · exact hall 0 (by decide)
  · exact hall 1 (by decide)
  · exact hall 2 (by decide)

/-- Two different registers stay different. -/
theorem iterate_next_injective {reg reg' : BitVec 32} (hs : Short reg) (hs' : Short reg') {n : ℕ}
    (h : next^[n] reg = next^[n] reg') : reg = reg' := by
  induction n generalizing reg reg' with
  | zero => exact h
  | succ n ih => exact next_injective hs hs' (ih (short_next _) (short_next _) h)

theorem short_iterate_next {reg : BitVec 32} (hs : Short reg) (n : ℕ) : Short (next^[n] reg) := by
  cases n with
  | zero => exact hs
  | succ n =>
    rw [Function.iterate_succ_apply']
    exact short_next _

/-- The bytes of `n` calls of `get_word(8)`. -/
def getBytes (wrapv : Bool) : ℕ → Prbs → Except Fault (List (BitVec 32) × Prbs)
  | 0, p => .ok ([], p)
  | n + 1, p => do
    let (b, p) ← getWord wrapv p 8
    let (bs, p) ← getBytes wrapv n p
    .ok (b :: bs, p)

/-- The first `n` bytes. -/
def stream (reg : BitVec 32) (n : ℕ) : List (BitVec 32) :=
  (List.range n).map fun j => word (next^[j] reg)

theorem stream_succ (reg : BitVec 32) (n : ℕ) :
    stream reg (n + 1) = stream reg n ++ [word (next^[n] reg)] := by
  rw [stream, List.range_succ, List.map_append, List.map_singleton]
  rfl

theorem stream_succ' (reg : BitVec 32) (n : ℕ) :
    stream reg (n + 1) = word reg :: stream (next reg) n := by
  rw [stream, List.range_succ_eq_map, List.map_cons, List.map_map]
  rfl

theorem getBytes_bench (wrapv : Bool) (reg : BitVec 32) (n : ℕ) :
    getBytes wrapv n (bench reg) = .ok (stream reg n, bench (next^[n] reg)) := by
  induction n generalizing reg with
  | zero => rfl
  | succ n ih =>
    rw [getBytes, getWord_bench]
    dsimp only [bind, Except.bind]
    rw [ih, stream_succ', Function.iterate_succ_apply]

end Prbs

namespace PrbsVerifier

open Prbs

/-! ## One byte -/

/-- The verifier compares, with its register at `reg`. -/
structure Comparing (v : PrbsVerifier) (reg : BitVec 32) : Prop where
  prbs : v.prbs = bench reg
  lockThreshold : v.lockThreshold = 2048
  unlockThreshold : v.unlockThreshold = 128
  state : v.state = if v.status.locked then .locked else .locking

/-- The counters of a verifier. -/
def score (v : PrbsVerifier) : Score := ⟨v.status.locked, v.sucessCounter, v.status.numBitErrors⟩

/-- The errors in a byte. -/
def errors (b reg : BitVec 32) : ℕ := popcount (b &&& lowMask 8 ^^^ word reg)

variable {wrapv : Bool} {v : PrbsVerifier} {reg b : BitVec 32}

/-- **A byte** moves the register on and is scored. -/
theorem Comparing.pushBits (h : Comparing v reg) (wrapv : Bool) (b : BitVec 32) :
    ∃ v', PrbsVerifier.pushBits wrapv v b 8 = .ok v' ∧ Comparing v' (next reg) ∧
      score v' = (score v).step (errors b reg) := by
  obtain ⟨state, initReg, lockThreshold, unlockThreshold, sucessCounter, prbs,
    ⟨numBits, numBitErrors, locked, lockCount⟩⟩ := v
  obtain ⟨rfl, rfl, rfl, hstate⟩ := h
  rw [PrbsVerifier.pushBits, mask_eq (.inl (by decide))]
  dsimp only [bind, Except.bind]
  cases locked with
  | false =>
    obtain rfl : state = .locking := hstate
    rw [getWord_bench]
    by_cases hzero : errors b reg = 0
    · refine ⟨_, rfl, ⟨rfl, rfl, rfl, ?_⟩, ?_⟩
      · simp
      · rw [hzero, Score.step_zero rfl]
        rw [errors] at hzero
        simp only [score, hzero, ne_eq, not_true_eq_false, if_false, Bool.false_or]
        exact congrArg _ (BitVec.add_zero _)
    · have hpos := Nat.pos_of_ne_zero hzero
      refine ⟨_, rfl, ⟨rfl, rfl, rfl, ?_⟩, ?_⟩
      · simp
      · rw [Score.step_error rfl hpos]
        rw [errors] at hzero
        simp [score, errors, hzero]
  | true =>
    obtain rfl : state = .locked := hstate
    rw [getWord_bench]
    dsimp only
    by_cases hle : 128 ≤ numBitErrors + BitVec.ofNat 64 (errors b reg)
    · rw [errors] at hle
      rw [if_pos hle]
      refine ⟨_, rfl, ⟨rfl, rfl, rfl, rfl⟩, ?_⟩
      rw [Score.step_unlock rfl hle]
      rfl
    · rw [errors] at hle
      rw [if_neg hle]
      refine ⟨_, rfl, ⟨rfl, rfl, rfl, rfl⟩, ?_⟩
      rw [Score.step_locked rfl hle]
      rfl

/-- The errors of a byte are at most its bits, and none where it is what was expected. -/
theorem errors_le (b reg : BitVec 32) : errors b reg ≤ 32 := by
  have hle := List.countP_le_length (p := fun i => (b &&& lowMask 8 ^^^ word reg).getLsbD i)
    (l := List.range 32)
  rwa [List.length_range] at hle

theorem popcount_eq_zero_iff {x : BitVec 32} : popcount x = 0 ↔ x = 0 := by
  rw [popcount, List.countP_eq_zero]
  constructor
  · intro h
    apply BitVec.eq_of_getLsbD_eq
    intro i hi
    simpa using h i (List.mem_range.mpr hi)
  · rintro rfl
    simp

theorem errors_eq_zero_iff (b reg : BitVec 32) :
    errors (word b) reg = 0 ↔ word b = word reg := by
  have hcut : word b &&& lowMask 8 = word b := by
    rw [word, BitVec.and_assoc, BitVec.and_self]
  rw [errors, popcount_eq_zero_iff, hcut]
  exact BitVec.xor_eq_zero_iff

/-! ## Many bytes -/

theorem pushBytes_cons (bs : List (BitVec 32)) :
    pushBytes wrapv v (b :: bs) = (do
      let v' ← PrbsVerifier.pushBits wrapv v b 8
      pushBytes wrapv v' bs) := List.foldlM_cons

theorem pushBytes_append (bs bs' : List (BitVec 32)) :
    pushBytes wrapv v (bs ++ bs') = (do
      let v' ← pushBytes wrapv v bs
      pushBytes wrapv v' bs') := List.foldlM_append

theorem Comparing.pushBytes (h : Comparing v reg) (wrapv : Bool) (bs : List (BitVec 32)) :
    ∃ v', PrbsVerifier.pushBytes wrapv v bs = .ok v' ∧ Comparing v' (next^[bs.length] reg) := by
  induction bs generalizing v reg with
  | nil => exact ⟨v, rfl, h⟩
  | cons b bs ih =>
    obtain ⟨v₁, hv₁, h₁, -⟩ := h.pushBits wrapv b
    obtain ⟨v₂, hv₂, h₂⟩ := ih h₁
    refine ⟨v₂, ?_, h₂⟩
    rw [pushBytes_cons, hv₁]
    exact hv₂

/-- The first three bytes go into the register. -/
theorem pushBytes_three (wrapv : Bool) (b₀ b₁ b₂ : BitVec 32) :
    ∃ v v', make wrapv [23, 18] true = .ok v ∧
      PrbsVerifier.pushBytes wrapv v [b₀, b₁, b₂] = .ok v' ∧
      Comparing v' (ofBytes (b₀ &&& lowMask 8) (b₁ &&& lowMask 8) (b₂ &&& lowMask 8)) ∧
      score v' = ⟨false, 0, 0⟩ := by
  refine ⟨_,
    { state := .locking
      initReg := (((0 <<< 8 ||| (b₀ &&& lowMask 8)) <<< 8) ||| (b₁ &&& lowMask 8)) <<< 8 |||
        (b₂ &&& lowMask 8)
      lockThreshold := 2048
      unlockThreshold := 128
      sucessCounter := 0
      prbs := bench (ofBytes (b₀ &&& lowMask 8) (b₁ &&& lowMask 8) (b₂ &&& lowMask 8))
      status := ⟨24, 0, false, 0⟩ },
    by rw [make, make_bench]; rfl, ?_, ⟨rfl, rfl, rfl, rfl⟩, rfl⟩
  simp only [pushBytes_cons, PrbsVerifier.pushBits, mask_eq (.inl (by decide : 8 ≤ 30))]
  rfl

/-! ## A stream after other bytes -/

/-- The verifier after the bytes `pre` and `n` bytes of a generator seeded with `seed`. -/
def after (wrapv : Bool) (seed : BitVec 32) (pre : List (BitVec 32)) (n : ℕ) :
    Except Fault PrbsVerifier := do
  let generator ← Prbs.make wrapv [23, 18] seed true
  let verifier ← make wrapv [23, 18] true
  let (bs, _) ← getBytes wrapv n generator
  PrbsVerifier.pushBytes wrapv verifier (pre ++ bs)

/-- In the end the verifier is locked, and the bit errors no longer increase. -/
def Recovers (wrapv : Bool) (seed : BitVec 32) (pre : List (BitVec 32)) : Prop :=
  ∃ bound, ∀ n, bound ≤ n → ∃ v v', after wrapv seed pre n = .ok v ∧
    after wrapv seed pre (n + 1) = .ok v' ∧ v.status.locked = true ∧
    v'.status.numBitErrors ≤ v.status.numBitErrors

/-- No bit error is ever counted. -/
def Clean (wrapv : Bool) (seed : BitVec 32) (pre : List (BitVec 32)) : Prop :=
  ∀ n, ∃ v, after wrapv seed pre n = .ok v ∧ v.status.numBitErrors = 0

/-- The register that the first three of some bytes give the verifier. -/
def firstReg (bs : List (BitVec 32)) : BitVec 32 :=
  ofBytes (bs.getD 0 0 &&& lowMask 8) (bs.getD 1 0 &&& lowMask 8) (bs.getD 2 0 &&& lowMask 8)

/-- The register of the verifier when it has got as many bytes more as came before the stream, and
three bytes of the stream in all. -/
def verifierReg (seed : BitVec 32) (pre : List (BitVec 32)) : BitVec 32 :=
  next^[pre.length] (firstReg (pre ++ stream seed 3))

/-- The verifier's register is the generator's, three bytes into the stream. -/
def InPhase (seed : BitVec 32) (pre : List (BitVec 32)) : Prop :=
  verifierReg seed pre = next^[3] seed

instance (seed : BitVec 32) (pre : List (BitVec 32)) : Decidable (InPhase seed pre) :=
  inferInstanceAs (Decidable (_ = _))

variable {seed : BitVec 32} {pre : List (BitVec 32)}

theorem short_verifierReg (seed : BitVec 32) (pre : List (BitVec 32)) :
    Short (verifierReg seed pre) :=
  short_iterate_next (short_and_lowBits _) _

theorem make_ok (wrapv : Bool) : ∃ v, make wrapv [23, 18] true = .ok v := by
  obtain ⟨v, -, h, -⟩ := pushBytes_three wrapv 0 0 0
  exact ⟨v, h⟩

theorem after_succ (n : ℕ) :
    after wrapv seed pre (n + 1) = (do
      let v ← after wrapv seed pre n
      PrbsVerifier.pushBits wrapv v (word (next^[n] seed)) 8) := by
  obtain ⟨v, hv⟩ := make_ok wrapv
  simp only [after, make_bench, hv, getBytes_bench, stream_succ, bind, Except.bind,
    ← List.append_assoc]
  rw [pushBytes_append]
  simp only [pushBytes_cons, bind, Except.bind]
  congr 1
  funext v
  cases PrbsVerifier.pushBits wrapv v (word (next^[n] seed)) 8 <;> rfl

/-- Three bytes into the stream. -/
theorem exists_after_three (wrapv : Bool) (seed : BitVec 32) (pre : List (BitVec 32)) :
    ∃ v, after wrapv seed pre 3 = .ok v ∧ Comparing v (verifierReg seed pre) ∧
      (pre = [] → score v = ⟨false, 0, 0⟩) := by
  obtain ⟨b₀, b₁, b₂, bs, hbs, hlength⟩ : ∃ b₀ b₁ b₂ bs,
      pre ++ stream seed 3 = b₀ :: b₁ :: b₂ :: bs ∧ bs.length = pre.length := by
    have hlength : (pre ++ stream seed 3).length = pre.length + 3 := by
      simp [stream]
    match h : pre ++ stream seed 3, hlength with
    | b₀ :: b₁ :: b₂ :: bs, hlength => exact ⟨b₀, b₁, b₂, bs, rfl, by simpa using hlength⟩
  obtain ⟨v, v₁, hv, hv₁, h₁, hscore⟩ := pushBytes_three wrapv b₀ b₁ b₂
  obtain ⟨v₂, hv₂, h₂⟩ := h₁.pushBytes wrapv bs
  have hreg : verifierReg seed pre = next^[bs.length]
      (ofBytes (b₀ &&& lowMask 8) (b₁ &&& lowMask 8) (b₂ &&& lowMask 8)) := by
    rw [verifierReg, firstReg, hbs, hlength]
    rfl
  refine ⟨v₂, ?_, by rwa [hreg], fun hpre => ?_⟩
  · simp only [after, make_bench, hv, getBytes_bench, bind, Except.bind]
    rw [hbs, show b₀ :: b₁ :: b₂ :: bs = [b₀, b₁, b₂] ++ bs from rfl, pushBytes_append, hv₁]
    exact hv₂
  · obtain rfl : bs = [] := List.eq_nil_of_length_eq_zero (by rw [hlength, hpre]; rfl)
    obtain rfl : v₁ = v₂ := by
      cases hv₂
      rfl
    exact hscore

/-- Every byte of the stream from then on is compared with a register that moves in step. -/
theorem exists_compared (wrapv : Bool) (seed : BitVec 32) (pre : List (BitVec 32)) :
    ∃ v : ℕ → PrbsVerifier, (∀ n, after wrapv seed pre (n + 3) = .ok (v n)) ∧
      (pre = [] → score (v 0) = ⟨false, 0, 0⟩) ∧
      ∀ n, score (v (n + 1)) = (score (v n)).step
        (errors (word (next^[n] (next^[3] seed))) (next^[n] (verifierReg seed pre))) := by
  have hall : ∀ n, ∃ v, after wrapv seed pre (n + 3) = .ok v ∧
      Comparing v (next^[n] (verifierReg seed pre)) := by
    intro n
    induction n with
    | zero =>
      obtain ⟨v, hv, h, -⟩ := exists_after_three wrapv seed pre
      exact ⟨v, hv, h⟩
    | succ n ih =>
      obtain ⟨v, hv, h⟩ := ih
      obtain ⟨v', hv', h', -⟩ := h.pushBits wrapv (word (next^[n + 3] seed))
      refine ⟨v', ?_, by rwa [Function.iterate_succ_apply']⟩
      rw [Nat.add_right_comm, after_succ, hv]
      exact hv'
  choose v hv hcomparing using hall
  refine ⟨v, hv, fun hpre => ?_, fun n => ?_⟩
  · obtain ⟨v₀, hv₀, -, hscore⟩ := exists_after_three wrapv seed pre
    obtain rfl : v 0 = v₀ := Except.ok.inj ((hv 0).symm.trans hv₀)
    exact hscore hpre
  · obtain ⟨v', hv', -, hscore⟩ :=
      (hcomparing n).pushBits wrapv (word (next^[n + 3] seed))
    have hnext : after wrapv seed pre (n + 1 + 3) = .ok v' := by
      rw [Nat.add_right_comm, after_succ, hv]
      exact hv'
    obtain rfl : v (n + 1) = v' := Except.ok.inj ((hv (n + 1)).symm.trans hnext)
    rw [hscore, Function.iterate_add_apply]

/-- In phase there are no more errors. -/
theorem score_of_inPhase (h : InPhase seed pre) {v : ℕ → PrbsVerifier}
    (hv : ∀ n, score (v (n + 1)) = (score (v n)).step
      (errors (word (next^[n] (next^[3] seed))) (next^[n] (verifierReg seed pre)))) (n : ℕ) :
    score (v n) = (score (v 0)).zeros n := by
  induction n with
  | zero => rfl
  | succ n ih =>
    have hword : word (next^[n] (next^[3] seed)) = word (next^[n] (verifierReg seed pre)) := by
      rw [h]
    rw [hv, (errors_eq_zero_iff _ _).mpr hword, ih, Score.zeros_add]
    rfl

/-- Out of phase there are errors again and again. -/
theorem exists_error_of_not_inPhase (h : ¬ InPhase seed pre) (n : ℕ) : ∃ m, n ≤ m ∧
    0 < errors (word (next^[m] (next^[3] seed))) (next^[m] (verifierReg seed pre)) := by
  have hs : Short (next^[3] seed) := short_next _
  have hs' := short_verifierReg seed pre
  obtain ⟨j, -, hj⟩ := exists_word_ne (short_iterate_next hs n) (short_iterate_next hs' n)
    fun heq => h (iterate_next_injective hs hs' heq).symm
  refine ⟨j + n, Nat.le_add_left _ _, Nat.pos_of_ne_zero fun hzero => hj ?_⟩
  rwa [errors_eq_zero_iff, Function.iterate_add_apply, Function.iterate_add_apply] at hzero

theorem recovers_iff : Recovers wrapv seed pre ↔ InPhase seed pre := by
  obtain ⟨v, hv, -, hscore⟩ := exists_compared wrapv seed pre
  constructor
  · rintro ⟨bound, hbound⟩
    by_contra hphase
    obtain ⟨m, hm, hlt⟩ := @Score.rises (fun n => score (v n)) _ hscore
      (fun n => errors_le _ _) (exists_error_of_not_inPhase hphase) bound
    obtain ⟨v₁, v₂, hv₁, hv₂, -, hle⟩ := hbound (m + 3) (by omega)
    obtain rfl : v m = v₁ := Except.ok.inj ((hv m).symm.trans hv₁)
    rw [Nat.add_right_comm] at hv₂
    obtain rfl : v (m + 1) = v₂ := Except.ok.inj ((hv (m + 1)).symm.trans hv₂)
    exact absurd hle (BitVec.not_le.mpr hlt)
  · intro hphase
    have hzeros := score_of_inPhase hphase hscore
    obtain ⟨k, hk⟩ := (score (v 0)).settles
    have hsettled : ∀ n, k ≤ n → score (v n) = (score (v 0)).zeros k := by
      intro n hn
      obtain ⟨j, rfl⟩ := Nat.exists_eq_add_of_le hn
      rw [hzeros, Score.zeros_add, hk.zeros_eq]
    refine ⟨k + 3, fun n hn => ?_⟩
    obtain ⟨m, rfl⟩ := Nat.exists_eq_add_of_le' (Nat.le_of_add_left_le hn)
    have h₁ := hsettled m (by omega)
    have h₂ := hsettled (m + 1) (by omega)
    refine ⟨v m, v (m + 1), hv m, ?_, ?_, ?_⟩
    · rw [Nat.add_right_comm]
      exact hv (m + 1)
    · rw [← hk.1, ← h₁]
      rfl
    · exact BitVec.le_of_eq (congrArg Score.numBitErrors (h₂.trans h₁.symm))

/-- The verifier takes its register from the stream itself. -/
theorem inPhase_nil (seed : BitVec 32) : InPhase seed [] := by
  have hcut : ∀ reg, word reg &&& lowMask 8 = word reg := fun reg => by
    rw [word, BitVec.and_assoc, BitVec.and_self]
  change ofBytes (word seed &&& lowMask 8) (word (next seed) &&& lowMask 8)
    (word (next (next seed)) &&& lowMask 8) = next (next (next seed))
  rw [hcut, hcut, hcut, next_three]

/-- Before the third byte nothing is compared. -/
theorem after_nil_of_lt {n : ℕ} (hn : n < 3) :
    ∃ v, after wrapv seed [] n = .ok v ∧ v.status.numBitErrors = 0 := by
  have hmake : make wrapv [23, 18] true =
      .ok ⟨.init, 0, 2048, 128, 0, bench 0, ⟨0, 0, false, 0⟩⟩ := by
    rw [make, make_bench]
    rfl
  simp only [after, make_bench, hmake, getBytes_bench, bind, Except.bind, List.nil_append]
  interval_cases n
  · exact ⟨_, rfl, rfl⟩
  · rw [stream_succ']
    simp only [pushBytes_cons, PrbsVerifier.pushBits, mask_eq (.inl (by decide : 8 ≤ 30))]
    exact ⟨_, rfl, rfl⟩
  · rw [stream_succ', stream_succ']
    simp only [pushBytes_cons, PrbsVerifier.pushBits, mask_eq (.inl (by decide : 8 ≤ 30))]
    exact ⟨_, rfl, rfl⟩

theorem clean_nil : Clean wrapv seed [] := by
  obtain ⟨v, hv, hzero, hscore⟩ := exists_compared wrapv seed []
  intro n
  by_cases hn : n < 3
  · exact after_nil_of_lt hn
  · obtain ⟨m, rfl⟩ := Nat.exists_eq_add_of_le' (Nat.not_lt.mp hn)
    refine ⟨v m, hv m, ?_⟩
    have hm := congrArg Score.numBitErrors (score_of_inPhase (inPhase_nil seed) hscore m)
    rwa [hzero rfl, Score.zeros_numBitErrors rfl] at hm

/-- **When the verifier recovers**: whatever came before the stream, it ends in lock without further
errors if the register it took from the first three bytes happens to be in phase, and only then;
with nothing before the stream it always is. -/
theorem recovers_iff_inPhase (wrapv : Bool) (seed : BitVec 32) (pre : List (BitVec 32)) :
    (Recovers wrapv seed pre ∧ (pre = [] → Clean wrapv seed pre)) ↔ InPhase seed pre := by
  constructor
  · exact fun h => recovers_iff.mp h.1
  · refine fun h => ⟨recovers_iff.mpr h, ?_⟩
    rintro rfl
    exact clean_nil

/-- One byte is lost after the first three. -/
theorem not_recovers :
    ¬ ∀ wrapv seed pre, Recovers wrapv seed pre ∧ (pre = [] → Clean wrapv seed pre) := by
  intro h
  have hphase := recovers_iff.mp (h false (next^[4] 0) (stream 0 3)).1
  exact absurd hphase (by decide)

end PrbsVerifier

end RmiiEthernet
