import Mathlib.Data.BitVec

/-!
# Gray codes

The Gray code of a word is the word xored with itself shifted by one. Two pointers that carry one
bit more than their address are told apart by their Gray codes alone: `gray_inj` is the test for
equality and `gray_full_iff` the test for a whole ring between them.
-/

namespace RmiiEthernet.Sync

variable {w : ℕ}

/-- The Gray code. -/
def gray (x : BitVec w) : BitVec w := (x >>> 1) ^^^ x

theorem getLsbD_gray (x : BitVec w) (i : ℕ) :
    (gray x).getLsbD i = (x.getLsbD (i + 1) ^^ x.getLsbD i) := by
  rw [gray, BitVec.getLsbD_xor, BitVec.getLsbD_ushiftRight, Nat.add_comm]

/-- Two words agree below a bit at which they agree if their Gray codes do. -/
theorem getLsbD_eq_of_gray {x y : BitVec w} {n : ℕ} (hn : x.getLsbD n = y.getLsbD n)
    (h : ∀ i < n, (gray x).getLsbD i = (gray y).getLsbD i) :
    ∀ i ≤ n, x.getLsbD i = y.getLsbD i := by
  intro i hi
  induction hi using Nat.decreasingInduction with
  | self => exact hn
  | of_succ i hi ih =>
    have hg := h i hi
    rw [getLsbD_gray, getLsbD_gray, ih, Bool.xor_right_inj] at hg
    exact hg

theorem gray_inj {x y : BitVec w} : gray x = gray y ↔ x = y := by
  constructor
  · intro h
    apply BitVec.eq_of_getLsbD_eq
    intro i hi
    refine getLsbD_eq_of_gray (n := w) ?_ (fun i _ => by rw [h]) i hi.le
    rw [BitVec.getLsbD_of_ge _ _ le_rfl, BitVec.getLsbD_of_ge _ _ le_rfl]
  · rintro rfl; rfl

/-- The two top bits of the codes differ and the others agree exactly when the top bits of the
words differ and the others agree. -/
theorem gray_full_iff {x y : BitVec (w + 2)} :
    ((gray x).getLsbD (w + 1) ≠ (gray y).getLsbD (w + 1) ∧
        (gray x).getLsbD w ≠ (gray y).getLsbD w ∧
        (gray x).setWidth w = (gray y).setWidth w) ↔
      (y.setWidth (w + 1) = x.setWidth (w + 1) ∧ y.getLsbD (w + 1) ≠ x.getLsbD (w + 1)) := by
  have htop : ∀ z : BitVec (w + 2), (gray z).getLsbD (w + 1) = z.getLsbD (w + 1) := fun z => by
    rw [getLsbD_gray, BitVec.getLsbD_of_ge z (w + 1 + 1) (by omega), Bool.false_xor]
  rw [htop, htop, getLsbD_gray, getLsbD_gray]
  constructor
  · rintro ⟨h1, h2, h3⟩
    have hw : x.getLsbD w = y.getLsbD w := by
      revert h1 h2
      cases x.getLsbD (w + 1) <;> cases y.getLsbD (w + 1) <;> simp
    refine ⟨?_, h1.symm⟩
    apply BitVec.eq_of_getLsbD_eq
    intro i hi
    have hlow : ∀ i < w, (gray x).getLsbD i = (gray y).getLsbD i := fun i hi => by
      have := congrArg (fun z => z.getLsbD i) h3
      simpa [BitVec.getLsbD_setWidth, hi] using this
    simp [BitVec.getLsbD_setWidth, getLsbD_eq_of_gray hw hlow i (by omega)]
  · rintro ⟨h1, h2⟩
    have hlow : ∀ i < w + 1, x.getLsbD i = y.getLsbD i := fun i hi => by
      have := congrArg (fun z => z.getLsbD i) h1
      simpa [BitVec.getLsbD_setWidth, hi] using this.symm
    refine ⟨h2.symm, ?_, ?_⟩
    · rw [hlow w (by omega)]
      simpa using h2.symm
    · apply BitVec.eq_of_getLsbD_eq
      intro i hi
      simp only [BitVec.getLsbD_setWidth, getLsbD_gray, hlow i (by omega),
        hlow (i + 1) (by omega)]

/-! ## Counting -/

/-- Adding one turns a bit over exactly when every bit below it is set. -/
theorem getLsbD_add_one (x : BitVec w) {i : ℕ} (hi : i < w) :
    (x + 1).getLsbD i = (x.getLsbD i ^^ decide (∀ j < i, x.getLsbD j = true)) := by
  change (x + 1#w).getLsbD i = _
  rw [BitVec.getLsbD_add hi, Bool.xor_right_inj]
  cases i with
  | zero => simp [hi]
  | succ i =>
    have hbelow : (∀ j ≤ i, x.getLsbD j = true) ↔ ∀ j < i + 1, x.getLsbD j = true :=
      forall_congr' fun j => imp_congr_left Nat.lt_succ_iff.symm
    simp [BitVec.carry_succ_one i x (by omega), hbelow]

/-- The bits that adding one turns over are those up to some last one. -/
theorem exists_getLsbD_add_one (x : BitVec (w + 1)) :
    ∃ m ≤ w, ∀ i, (x + 1).getLsbD i = (x.getLsbD i ^^ decide (i ≤ m)) := by
  -- the last one is the lowest clear bit, or the top bit when the count wraps around
  have hex : ∃ k, x.getLsbD k = false := ⟨w + 1, BitVec.getLsbD_of_ge x _ le_rfl⟩
  obtain ⟨k, hk⟩ : ∃ k, ∀ i, (∀ j < i, x.getLsbD j = true) ↔ i ≤ k :=
    ⟨Nat.find hex, fun i => by simp [Nat.le_find_iff]⟩
  refine ⟨min k w, Nat.min_le_right _ _, fun i => ?_⟩
  rcases Nat.lt_or_ge i (w + 1) with hi | hi
  · rw [getLsbD_add_one x hi]
    simp [hk, Nat.le_of_lt_succ hi]
  · have hout : ¬i ≤ min k w := by omega
    rw [BitVec.getLsbD_of_ge _ _ hi, BitVec.getLsbD_of_ge x _ hi, decide_eq_false hout]
    rfl

/-- The codes of two neighbours, the wrap included, differ in exactly one bit. -/
theorem gray_add_one (x : BitVec (w + 1)) :
    ∃! i, (gray x).getLsbD i ≠ (gray (x + 1)).getLsbD i := by
  obtain ⟨m, -, hm⟩ := exists_getLsbD_add_one x
  have hdiff : ∀ i, (gray x).getLsbD i ≠ (gray (x + 1)).getLsbD i ↔ i = m := fun i => by
    rw [getLsbD_gray, getLsbD_gray, hm, hm]
    rcases Nat.lt_trichotomy i m with hi | rfl | hi
    · simp [hi.le, hi.ne, Nat.succ_le_of_lt hi]
    · rw [decide_eq_true le_rfl, decide_eq_false (Nat.not_succ_le_self i)]
      simp
    · simp [hi.ne', not_le.mpr hi, not_le.mpr (hi.trans (Nat.lt_succ_self i))]
  exact ⟨m, (hdiff m).mpr rfl, fun i hi => (hdiff i).mp hi⟩

/-- Two words that differ in one bit at most. -/
def Adjacent (x y : BitVec w) : Prop :=
  ∀ i j, x.getLsbD i ≠ y.getLsbD i → x.getLsbD j ≠ y.getLsbD j → i = j

theorem adjacent_refl (x : BitVec w) : Adjacent x x := fun _ _ h => absurd rfl h

theorem adjacent_gray_add_one (x : BitVec (w + 1)) : Adjacent (gray x) (gray (x + 1)) :=
  fun _ _ hi hj => (gray_add_one x).unique hi hj

end RmiiEthernet.Sync
