import Mathlib.Algebra.Group.Nat.Defs
import Mathlib.Data.Nat.Log

/-!
# Widths and bytes

`log2_ceil` of the package `utils`, by which counters and constants get their widths, and the bytes
of a word.
-/

namespace RmiiEthernet.Utils

/-- Byte `k` of a word. -/
def byteOf (w : BitVec 32) (k : BitVec 2) : BitVec 8 := w.extractLsb' (8 * k.toNat) 8

theorem getLsbD_byteOf (w : BitVec 32) (k : BitVec 2) {m : ℕ} (hm : m < 8) :
    (byteOf w k).getLsbD m = w.getLsbD (8 * k.toNat + m) := by
  simp [byteOf, hm]

/-- The loop of `log2_ceil` on `i`, for `n` rounds at most. -/
def log2CeilLoop (v : ℕ) : ℕ → ℕ → ℕ
  | 0, i => i
  | n + 1, i => if 2 ^ i < v then log2CeilLoop v n (i + 1) else i

/-- `log2_ceil`: the loop has ended after `v` rounds. -/
def log2Ceil (v : ℕ) : ℕ := log2CeilLoop v v 0

theorem log2CeilLoop_eq_clog {v : ℕ} (n i : ℕ) (hi : i ≤ Nat.clog 2 v)
    (hn : Nat.clog 2 v ≤ i + n) : log2CeilLoop v n i = Nat.clog 2 v := by
  induction n generalizing i with
  | zero => exact Nat.le_antisymm hi hn
  | succ n ih =>
    rw [log2CeilLoop]
    split
    · next hlt => exact ih (i + 1) ((Nat.lt_clog_iff_pow_lt Nat.one_lt_two).mpr hlt) (by omega)
    · next hle =>
      exact Nat.le_antisymm hi ((Nat.clog_le_iff_le_pow Nat.one_lt_two).mpr (Nat.le_of_not_lt hle))

/-- **The logarithm**, rounded up. -/
theorem log2Ceil_eq_clog (v : ℕ) : log2Ceil v = Nat.clog 2 v := by
  refine log2CeilLoop_eq_clog v 0 (Nat.zero_le _) ?_
  rw [Nat.zero_add]
  exact Nat.clog_le_of_le_pow Nat.lt_two_pow_self.le

theorem log2Ceil_two_pow (k : ℕ) : log2Ceil (2 ^ k) = k := by
  rw [log2Ceil_eq_clog, Nat.clog_pow 2 k Nat.one_lt_two]

theorem log2Ceil_pos {v : ℕ} (h : 2 ≤ v) : 0 < log2Ceil v := by
  rw [log2Ceil_eq_clog, Nat.lt_clog_iff_pow_lt Nat.one_lt_two]
  exact h

/-- A number fits into the bits of its logarithm if it is no power of two. -/
theorem lt_two_pow_log2Ceil_iff {v : ℕ} (hv : 0 < v) :
    v < 2 ^ log2Ceil v ↔ ∀ k, v ≠ 2 ^ k := by
  rw [log2Ceil_eq_clog]
  constructor
  · rintro h k rfl
    rw [Nat.clog_pow 2 k Nat.one_lt_two] at h
    exact lt_irrefl _ h
  · intro h
    exact lt_of_le_of_ne (Nat.le_pow_clog Nat.one_lt_two v) (h _)

end RmiiEthernet.Utils
