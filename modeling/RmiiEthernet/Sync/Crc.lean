import Mathlib.Data.BitVec
import Mathlib.Tactic.Ring

/-!
# Cyclic redundancy checks

A register of `n` bits takes a message bit by bit, least significant bit first: it moves one place
down, and the polynomial is added when the bit that falls out differs from the message bit
(`crcStep`). The register is linear in its content and the message (`crcStep_xor`), and no two
contents lead to the same one (`crcStep_injective`).

* `crcBits_absorb`: feeding up to `n` bits is the same as adding them to the register and feeding
  zeros. So of all messages of `n` bits exactly one leads to a given content, which is what makes
  a check at the end of a message exact, and a burst of up to `n` bits shows (`crcBits_burst`).
* `reverse_crcBits`: the mirror image of the register is a register that shifts to the left.
* `linear_ext`: two linear functions that agree on the single bits are equal.
-/

namespace RmiiEthernet.Sync

variable {n m : ℕ}

/-! ## Linear functions on words -/

/-- `f` turns exclusive or into exclusive or. -/
def Linear (f : BitVec n → BitVec m) : Prop := ∀ x y, f (x ^^^ y) = f x ^^^ f y

theorem Linear.zero {f : BitVec n → BitVec m} (hf : Linear f) : f 0 = 0 := by
  have h := hf 0 0
  simpa using h

/-- Linear functions that agree on the single bits are equal. -/
theorem linear_ext {f g : BitVec n → BitVec m} (hf : Linear f) (hg : Linear g)
    (h : ∀ i < n, f (BitVec.twoPow n i) = g (BitVec.twoPow n i)) (x : BitVec n) : f x = g x := by
  -- clear the bits from the top, one at a time
  have key : ∀ k ≤ n, ∀ x : BitVec n, (∀ i, k ≤ i → x.getLsbD i = false) → f x = g x := by
    intro k
    induction k with
    | zero =>
      intro _ x hx
      obtain rfl : x = 0 := BitVec.eq_of_getLsbD_eq fun i _ => by simp [hx i (Nat.zero_le i)]
      rw [hf.zero, hg.zero]
    | succ k ih =>
      intro hk x hx
      cases hbit : x.getLsbD k with
      | false =>
        refine ih (by omega) x fun i hi => ?_
        rcases Nat.lt_or_ge k i with h | h
        · exact hx i h
        · rwa [show i = k by omega]
      | true =>
        have hlow : f (x ^^^ BitVec.twoPow n k) = g (x ^^^ BitVec.twoPow n k) := by
          refine ih (by omega) _ fun i hi => ?_
          rw [BitVec.getLsbD_xor, BitVec.getLsbD_twoPow]
          rcases Nat.lt_or_ge k i with h | h
          · simp [hx i h]
            omega
          · obtain rfl : i = k := by omega
            simp [hbit]
            omega
        have hx' : x = x ^^^ BitVec.twoPow n k ^^^ BitVec.twoPow n k := by
          rw [BitVec.xor_assoc, BitVec.xor_self, BitVec.xor_zero]
        rw [hx', hf, hg, hlow, h k (by omega)]
  exact key n le_rfl x fun i hi => BitVec.getLsbD_of_ge x i hi

/-! ## The register -/

variable (poly : BitVec n)

/-- One message bit into the register. -/
def crcStep (r : BitVec n) (b : Bool) : BitVec n :=
  (r >>> 1) ^^^ if r.getLsbD 0 ^^ b then poly else 0

/-- A list of message bits into the register. -/
def crcBits (r : BitVec n) (bs : List Bool) : BitVec n := bs.foldl (crcStep poly) r

variable {poly}

@[simp] theorem crcBits_nil (r : BitVec n) : crcBits poly r [] = r := rfl

@[simp] theorem crcBits_cons (r : BitVec n) (b : Bool) (bs : List Bool) :
    crcBits poly r (b :: bs) = crcBits poly (crcStep poly r b) bs := rfl

theorem crcBits_append (r : BitVec n) (bs cs : List Bool) :
    crcBits poly r (bs ++ cs) = crcBits poly (crcBits poly r bs) cs := List.foldl_append

theorem crcStep_xor (r r' : BitVec n) (b b' : Bool) :
    crcStep poly (r ^^^ r') (b ^^ b') = crcStep poly r b ^^^ crcStep poly r' b' := by
  unfold crcStep
  rw [BitVec.ushiftRight_xor_distrib, BitVec.getLsbD_xor]
  have e : ((r.getLsbD 0 ^^ r'.getLsbD 0) ^^ (b ^^ b')) =
      ((r.getLsbD 0 ^^ b) ^^ (r'.getLsbD 0 ^^ b')) := by
    rw [Bool.xor_assoc, Bool.xor_assoc, Bool.xor_left_comm (r'.getLsbD 0)]
  rw [e]
  cases (r.getLsbD 0 ^^ b) <;> cases (r'.getLsbD 0 ^^ b') <;> simp
  · ac_rfl
  · ac_rfl
  · rw [← BitVec.xor_assoc, BitVec.xor_assoc (r >>> 1), BitVec.xor_comm poly,
      BitVec.xor_assoc, BitVec.xor_assoc, BitVec.xor_self, BitVec.xor_zero]

/-- The register with a polynomial of full degree loses nothing. -/
theorem crcStep_injective (hp : poly.msb = true) (b : Bool) :
    Function.Injective fun r => crcStep poly r b := by
  intro r r' h
  have h0 : crcStep poly (r ^^^ r') false = 0 := by
    have hx : crcStep poly (r ^^^ r') (b ^^ b) = _ := crcStep_xor r r' b b
    simp only at h
    rw [Bool.xor_self, h, BitVec.xor_self] at hx
    exact hx
  -- the bit that falls out is the top bit of the result
  have hn : 0 < n := by
    rcases Nat.eq_zero_or_pos n with rfl | hn
    · simp [BitVec.msb] at hp
    · exact hn
  have hbit : (r ^^^ r').getLsbD 0 = false := by
    by_contra hb
    have hmsb := congrArg BitVec.msb h0
    simp only [Bool.not_eq_false] at hb
    simp [crcStep, hb, hp, BitVec.msb_ushiftRight] at hmsb
  have hshift : (r ^^^ r') >>> 1 = 0 := by
    simpa [crcStep, hbit] using h0
  have hzero : r ^^^ r' = 0 := by
    apply BitVec.eq_of_getLsbD_eq
    intro i _
    cases i with
    | zero => simpa using hbit
    | succ i =>
      have := congrArg (fun z => z.getLsbD i) hshift
      simpa [BitVec.getLsbD_ushiftRight, Nat.add_comm] using this
  exact BitVec.xor_eq_zero_iff.mp hzero

theorem crcBits_injective (hp : poly.msb = true) (bs : List Bool) :
    Function.Injective fun r => crcBits poly r bs := by
  induction bs with
  | nil => exact fun _ _ h => h
  | cons b bs ih =>
    intro r r' h
    exact crcStep_injective hp b (ih h)

theorem crcBits_linear (k : ℕ) : Linear fun r => crcBits poly r (List.replicate k false) := by
  induction k with
  | zero => exact fun _ _ => rfl
  | succ k ih =>
    intro x y
    have hx : crcStep poly (x ^^^ y) (false ^^ false) = _ := crcStep_xor x y false false
    simp only [List.replicate_succ, crcBits_cons]
    rw [Bool.xor_self] at hx
    rw [hx]
    exact ih _ _

/-! ## Messages no longer than the register -/

/-- A list of bits as a word, first bit least significant. -/
def lowBits (n : ℕ) : List Bool → BitVec n
  | [] => 0
  | b :: bs => (lowBits n bs <<< 1) ^^^ (BitVec.ofBool b).setWidth n

theorem getLsbD_lowBits (bs : List Bool) (i : ℕ) :
    (lowBits n bs).getLsbD i = (decide (i < n) && bs.getD i false) := by
  induction bs generalizing i with
  | nil => simp [lowBits]
  | cons b bs ih =>
    rw [lowBits, BitVec.getLsbD_xor, BitVec.getLsbD_shiftLeft, BitVec.getLsbD_setWidth]
    cases i with
    | zero => cases b <;> simp
    | succ i =>
      rw [Nat.add_sub_cancel, ih]
      have hb : (BitVec.ofBool b).getLsbD (i + 1) = false := BitVec.getLsbD_of_ge _ _ (by omega)
      rw [hb]
      by_cases hi : i + 1 < n
      · simp [hi, show i < n by omega]
      · simp [hi]

theorem lowBits_map_xor {α : Type*} (l : List α) (f g : α → Bool) :
    lowBits n (l.map fun a => f a ^^ g a) = lowBits n (l.map f) ^^^ lowBits n (l.map g) := by
  apply BitVec.eq_of_getLsbD_eq
  intro i hi
  simp only [BitVec.getLsbD_xor, getLsbD_lowBits, hi, decide_true, Bool.true_and,
    List.getD_eq_getElem?_getD, List.getElem?_map]
  cases l[i]? <;> simp

/-- Feeding a message no longer than the register is adding it to the register and feeding
zeros. -/
theorem crcBits_absorb (r : BitVec n) (bs : List Bool) (h : bs.length ≤ n) :
    crcBits poly r bs = crcBits poly (r ^^^ lowBits n bs) (List.replicate bs.length false) := by
  induction bs generalizing r with
  | nil => simp [lowBits]
  | cons b bs ih =>
    have hlen : bs.length + 1 ≤ n := by simpa using h
    rw [crcBits_cons, ih _ (by omega), List.length_cons, List.replicate_succ, crcBits_cons]
    congr 1
    have hdrop : lowBits n bs <<< 1 >>> 1 = lowBits n bs := by
      apply BitVec.eq_of_getLsbD_eq
      intro i hi
      rw [BitVec.getLsbD_ushiftRight, BitVec.getLsbD_shiftLeft, getLsbD_lowBits, getLsbD_lowBits]
      by_cases hin : 1 + i < n
      · simp [hin, hi]
      · have : bs.length ≤ i := by omega
        simp [this]
    have hbit : (lowBits n (b :: bs)).getLsbD 0 = b := by
      rw [getLsbD_lowBits]
      simp
      omega
    have hshift : lowBits n (b :: bs) >>> 1 = lowBits n bs := by
      have hb : (BitVec.ofBool b).setWidth n >>> 1 = 0#n := by
        apply BitVec.eq_of_getLsbD_eq
        intro i _
        rw [BitVec.getLsbD_ushiftRight, BitVec.getLsbD_setWidth,
          BitVec.getLsbD_of_ge (BitVec.ofBool b) (1 + i) (by omega)]
        simp
      rw [lowBits, BitVec.ushiftRight_xor_distrib, hdrop, hb, BitVec.xor_zero]
    unfold crcStep
    rw [BitVec.ushiftRight_xor_distrib, hshift, BitVec.getLsbD_xor, hbit, Bool.xor_false]
    ac_rfl

/-! ## The mirror image -/

/-- One message bit into the register that shifts to the left. -/
def lfsrStep (poly : BitVec n) (r : BitVec n) (b : Bool) : BitVec n :=
  (r <<< 1) ^^^ if r.msb ^^ b then poly else 0

theorem reverse_xor (x y : BitVec n) : (x ^^^ y).reverse = x.reverse ^^^ y.reverse := by
  apply BitVec.eq_of_getLsbD_eq
  intro i _
  simp [BitVec.getLsbD_reverse, BitVec.getMsbD_xor]

theorem reverse_ushiftRight_one (r : BitVec n) : (r >>> 1).reverse = r.reverse <<< 1 := by
  apply BitVec.eq_of_getLsbD_eq
  intro i hi
  rw [BitVec.getLsbD_reverse, BitVec.getMsbD_eq_getLsbD, BitVec.getLsbD_ushiftRight,
    BitVec.getLsbD_shiftLeft, BitVec.getLsbD_reverse, BitVec.getMsbD_eq_getLsbD]
  cases i with
  | zero => simp [show 1 + (n - 1) = n by omega]
  | succ i =>
    simp only [hi, show i + 1 - 1 < n by omega, decide_true, Bool.true_and,
      show ¬ i + 1 < 1 by omega, decide_false, Bool.not_false]
    congr 1
    omega

theorem reverse_crcStep (r : BitVec n) (b : Bool) :
    (crcStep poly r b).reverse = lfsrStep poly.reverse r.reverse b := by
  have hmsb : r.reverse.msb = r.getLsbD 0 := by
    rw [BitVec.msb, BitVec.getMsbD_reverse]
  have hzero : (0 : BitVec n).reverse = 0 := by
    apply BitVec.eq_of_getLsbD_eq
    intro i _
    simp [BitVec.getLsbD_reverse]
  rw [crcStep, lfsrStep, reverse_xor, reverse_ushiftRight_one, hmsb, apply_ite BitVec.reverse,
    hzero]

theorem reverse_crcBits (r : BitVec n) (bs : List Bool) :
    (crcBits poly r bs).reverse = bs.foldl (lfsrStep poly.reverse) r.reverse := by
  induction bs generalizing r with
  | nil => rfl
  | cons b bs ih => rw [crcBits_cons, ih, List.foldl_cons, reverse_crcStep]

/-! ## Bursts -/

theorem lowBits_injOn {bs cs : List Bool} (hlen : bs.length = cs.length) (h : bs.length ≤ n)
    (heq : lowBits n bs = lowBits n cs) : bs = cs := by
  apply List.ext_getElem hlen
  intro i hb hc
  have hbit : (lowBits n bs).getLsbD i = (lowBits n cs).getLsbD i := by rw [heq]
  rw [getLsbD_lowBits, getLsbD_lowBits] at hbit
  simpa only [show i < n by omega, decide_true, Bool.true_and, List.getD_eq_getElem?_getD,
    List.getElem?_eq_getElem, hb, hc, Option.getD_some] using hbit

/-- Of the messages of one length no longer than the register, no two lead to the same content. -/
theorem crcBits_injOn (hp : poly.msb = true) (r : BitVec n) {bs cs : List Bool}
    (hlen : bs.length = cs.length) (h : bs.length ≤ n)
    (heq : crcBits poly r bs = crcBits poly r cs) : bs = cs := by
  rw [crcBits_absorb r bs h, crcBits_absorb r cs (hlen ▸ h), ← hlen] at heq
  have hxor := crcBits_injective hp _ heq
  exact lowBits_injOn hlen h (BitVec.xor_right_inj r |>.mp hxor)

/-- **A burst is noticed**: messages that differ, and only in a window as long as the register, lead
to different contents. -/
theorem crcBits_burst (hp : poly.msb = true) (r : BitVec n) {bs cs : List Bool}
    (hlen : bs.length = cs.length) {p : ℕ}
    (hout : ∀ k, k < p ∨ p + n ≤ k → bs[k]? = cs[k]?)
    (heq : crcBits poly r bs = crcBits poly r cs) : bs = cs := by
  have htake : bs.take p = cs.take p := by
    apply List.ext_getElem?
    intro k
    rw [List.getElem?_take, List.getElem?_take]
    split
    · next hk => exact hout k (.inl hk)
    · rfl
  have hdrop : bs.drop (p + n) = cs.drop (p + n) := by
    apply List.ext_getElem?
    intro k
    rw [List.getElem?_drop, List.getElem?_drop, hout _ (.inr (Nat.le_add_right _ _))]
  have hparts (l : List Bool) : l = l.take p ++ ((l.drop p).take n ++ l.drop (p + n)) := by
    rw [← List.drop_drop, List.take_append_drop, List.take_append_drop]
  rw [hparts bs, hparts cs, htake, hdrop, crcBits_append, crcBits_append, crcBits_append,
    crcBits_append] at heq
  have hwindow := crcBits_injective hp _ heq
  have hmid : (bs.drop p).take n = (cs.drop p).take n :=
    crcBits_injOn hp _ (by simp [hlen]) (by simp) hwindow
  rw [hparts bs, hparts cs, htake, hmid, hdrop]

end RmiiEthernet.Sync
