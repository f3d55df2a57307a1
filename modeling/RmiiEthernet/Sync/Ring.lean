import Mathlib.Data.BitVec
import Mathlib.Tactic.Ring

/-!
# Memories addressed round a ring

A hardware queue keeps its words in a memory of `2 ^ w` rows between a read and a write
address, both counting modulo `2 ^ w`. `Window mem p l` says that the words `l` stand in the
memory from address `p` on; `Window.push` and `Window.cons` are a write at the end and a read
at the front. A queue that must use all its rows carries one more bit in its pointers:
`ptr_eq_iff` and `ptr_full_iff` are the tests for empty and full on such pointers.
-/

namespace RmiiEthernet.Sync

variable {w : ℕ} {α : Type*}

/-! ## Counting modulo a power of two -/

theorem add_ofNat_inj {p : BitVec w} {m n : ℕ} (hm : m < 2 ^ w) (hn : n < 2 ^ w) :
    p + BitVec.ofNat w m = p + BitVec.ofNat w n ↔ m = n := by
  rw [BitVec.add_right_inj]
  constructor
  · intro h
    have h' := congrArg BitVec.toNat h
    simpa [Nat.mod_eq_of_lt hm, Nat.mod_eq_of_lt hn] using h'
  · rintro rfl; rfl

theorem add_ofNat_succ (p : BitVec w) (n : ℕ) :
    p + BitVec.ofNat w (n + 1) = p + 1 + BitVec.ofNat w n := by
  rw [Nat.add_comm n 1, BitVec.ofNat_add, BitVec.add_assoc]
  rfl

theorem ofNat_eq_ofNat_iff {m n : ℕ} (h : m ≤ n) (hn : n - m < 2 ^ w) :
    BitVec.ofNat w m = BitVec.ofNat w n ↔ m = n := by
  have e : BitVec.ofNat w n = BitVec.ofNat w m + BitVec.ofNat w (n - m) := by
    rw [← BitVec.ofNat_add, Nat.add_sub_cancel' h]
  have key := add_ofNat_inj (p := BitVec.ofNat w m) (m := 0) (Nat.two_pow_pos w) hn
  rw [e]
  simp only [BitVec.add_zero] at key
  rw [key]
  omega

theorem toNat_add_one_of_ne {p : BitVec w} (h : p ≠ BitVec.allOnes w) :
    (p + 1).toNat = p.toNat + 1 := by
  have hne : p.toNat ≠ 2 ^ w - 1 := fun e => h (BitVec.eq_of_toNat_eq (by simpa using e))
  have hlt := p.isLt
  change (p + 1#w).toNat = p.toNat + 1
  rw [BitVec.toNat_add, BitVec.toNat_ofNat, Nat.add_mod_mod, Nat.mod_eq_of_lt (by omega)]

theorem toNat_sub_one_of_eq {p : BitVec w} {n : ℕ} (h : p.toNat = n + 1) :
    (p - 1).toNat = n := by
  have hlt := p.isLt
  have hp : p = BitVec.ofNat w n + 1#w := by
    apply BitVec.eq_of_toNat_eq
    rw [h, BitVec.toNat_add, BitVec.toNat_ofNat, BitVec.toNat_ofNat, Nat.add_mod_mod,
      Nat.mod_add_mod, Nat.mod_eq_of_lt (by omega)]
  change (p - 1#w).toNat = n
  rw [hp, BitVec.add_sub_cancel, BitVec.toNat_ofNat, Nat.mod_eq_of_lt (by omega)]

/-! ## Windows -/

/-- A memory after a write to the row `q`. It is `Function.update` without dependent types, so that
a read from it evaluates. -/
def write (mem : BitVec w → α) (q : BitVec w) (x : α) : BitVec w → α :=
  fun p => if p = q then x else mem p

@[simp] theorem write_self (mem : BitVec w → α) (q : BitVec w) (x : α) : write mem q x q = x :=
  if_pos rfl

theorem write_of_ne {mem : BitVec w → α} {p q : BitVec w} (h : p ≠ q) (x : α) :
    write mem q x p = mem p := if_neg h

@[simp] theorem write_const (q : BitVec w) (x : α) : write (fun _ => x) q x = fun _ => x :=
  funext fun _ => ite_self _

/-- The words `l` stand in the memory from address `p` on, addresses wrapping around. -/
def Window (mem : BitVec w → α) : BitVec w → List α → Prop
  | _, [] => True
  | p, x :: l => mem p = x ∧ Window mem (p + 1) l

@[simp] theorem window_nil (mem : BitVec w → α) (p : BitVec w) : Window mem p [] := trivial

@[simp] theorem window_cons (mem : BitVec w → α) (p : BitVec w) (x : α) (l : List α) :
    Window mem p (x :: l) ↔ mem p = x ∧ Window mem (p + 1) l := Iff.rfl

theorem window_append (mem : BitVec w → α) (p : BitVec w) (l m : List α) :
    Window mem p (l ++ m) ↔ Window mem p l ∧ Window mem (p + BitVec.ofNat w l.length) m := by
  induction l generalizing p with
  | nil => simp
  | cons x l ih =>
    rw [List.cons_append, window_cons, ih, window_cons, List.length_cons, add_ofNat_succ, and_assoc]

/-- A write outside the window leaves it alone. -/
theorem Window.write {mem : BitVec w → α} {p q : BitVec w} {l : List α} (h : Window mem p l)
    (x : α) (hq : ∀ j < l.length, p + BitVec.ofNat w j ≠ q) :
    Window (Sync.write mem q x) p l := by
  induction l generalizing p with
  | nil => trivial
  | cons y l ih =>
    refine ⟨?_, ih h.2 fun j hj => ?_⟩
    · have h0 := hq 0 (by simp)
      rw [BitVec.add_zero] at h0
      rw [write_of_ne h0, h.1]
    · rw [← add_ofNat_succ]
      exact hq (j + 1) (by simpa using hj)

/-- A write right behind the window makes it one word longer, as long as the ring is not full. -/
theorem Window.push {mem : BitVec w → α} {p : BitVec w} {l : List α} (h : Window mem p l)
    (x : α) (hl : l.length < 2 ^ w) :
    Window (Sync.write mem (p + BitVec.ofNat w l.length) x) p (l ++ [x]) := by
  rw [window_append]
  refine ⟨h.write x fun j hj => ?_, by simp⟩
  rw [Ne, add_ofNat_inj (by omega) hl]
  omega

/-! ## Pointers with one bit more than the address -/

theorem setWidth_add_ofNat (p : BitVec (w + 1)) (n : ℕ) :
    (p + BitVec.ofNat (w + 1) n).setWidth w = p.setWidth w + BitVec.ofNat w n := by
  rw [BitVec.setWidth_add _ _ (by omega), BitVec.setWidth_ofNat_of_le (by omega)]

theorem setWidth_add_one (p : BitVec (w + 1)) : (p + 1).setWidth w = p.setWidth w + 1 :=
  setWidth_add_ofNat p 1

/-- Two pointers are equal exactly when no word lies between them. -/
theorem ptr_eq_iff (p : BitVec (w + 1)) {n : ℕ} (hn : n ≤ 2 ^ w) :
    p + BitVec.ofNat (w + 1) n = p ↔ n = 0 := by
  have h2 : 2 ^ (w + 1) = 2 * 2 ^ w := by ring
  have hpos := Nat.two_pow_pos w
  have key := add_ofNat_inj (p := p) (m := n) (n := 0) (by omega) (by omega)
  simpa using key

/-- The addresses agree and the extra bits differ exactly when the whole ring lies between two
pointers. -/
theorem ptr_full_iff (p : BitVec (w + 1)) {n : ℕ} (hn : n ≤ 2 ^ w) :
    (p.setWidth w = (p + BitVec.ofNat (w + 1) n).setWidth w ∧
      p.getLsbD w ≠ (p + BitVec.ofNat (w + 1) n).getLsbD w) ↔ n = 2 ^ w := by
  have hpos := Nat.two_pow_pos w
  have haddr : p.setWidth w = (p + BitVec.ofNat (w + 1) n).setWidth w ↔ n = 0 ∨ n = 2 ^ w := by
    rw [setWidth_add_ofNat]
    rcases Nat.lt_or_ge n (2 ^ w) with h | h
    · have key := add_ofNat_inj (p := p.setWidth w) (m := 0) (n := n) hpos h
      simp only [BitVec.add_zero] at key
      rw [key]
      omega
    · obtain rfl : n = 2 ^ w := by omega
      have hzero : BitVec.ofNat w (2 ^ w) = 0#w := by
        rw [← BitVec.toNat_inj, BitVec.toNat_ofNat, Nat.mod_self]
        rfl
      simp [hzero]
  rw [haddr]
  constructor
  · rintro ⟨rfl | h, hbit⟩
    · simp at hbit
    · exact h
  · rintro rfl
    refine ⟨Or.inr rfl, ?_⟩
    have htop : (p + BitVec.ofNat (w + 1) (2 ^ w)).toNat.testBit w = !p.toNat.testBit w := by
      rw [BitVec.toNat_add, BitVec.toNat_ofNat, Nat.add_mod_mod, Nat.testBit_mod_two_pow,
        Nat.add_comm p.toNat, Nat.testBit_two_pow_add_eq]
      simp
    rw [BitVec.getLsbD, BitVec.getLsbD, htop]
    simp

/-- The same test for any two pointers, whichever is ahead: their distance is the whole ring. -/
theorem ptr_sub_iff (p q : BitVec (w + 1)) :
    (p.setWidth w = q.setWidth w ∧ p.getLsbD w ≠ q.getLsbD w) ↔ (q - p).toNat = 2 ^ w := by
  have h2 : 2 ^ (w + 1) = 2 * 2 ^ w := by ring
  have hlt := (q - p).isLt
  have hadd : ∀ x y : BitVec (w + 1), x + BitVec.ofNat (w + 1) (y - x).toNat = y := fun x y => by
    rw [BitVec.ofNat_toNat, BitVec.setWidth_eq, BitVec.add_comm, BitVec.sub_add_cancel]
  rcases Nat.le_total (q - p).toNat (2 ^ w) with h | h
  · have key := ptr_full_iff p h
    rwa [hadd] at key
  · -- the way from `q` on to `p` is the shorter one
    have hback : (p - q).toNat = 2 ^ (w + 1) - (q - p).toNat := by
      have hpos := Nat.two_pow_pos w
      rw [show p - q = -(q - p) by rw [BitVec.neg_sub, BitVec.add_comm, BitVec.sub_eq_add_neg],
        BitVec.toNat_neg, Nat.mod_eq_of_lt (by omega)]
    have key := ptr_full_iff q (n := (p - q).toNat) (by omega)
    rw [hadd] at key
    rw [eq_comm, ne_comm, key]
    omega

end RmiiEthernet.Sync
