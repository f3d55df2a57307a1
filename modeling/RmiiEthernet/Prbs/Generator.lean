import Mathlib.Data.BitVec

/-!
# The generator of pseudo-random bits

The class `prbs` shifts the exclusive or of some taps into a register, one bit at a time (`getBit`)
or several at once (`getWord`). Its masks are `(1 << n) - 1` in the type `int` of 32 bits, where a
shift by 32 has no meaning and `(1 << 31) - 1` overflows; `wrapv` says whether signed overflow
wraps around or has no meaning either.
-/

namespace RmiiEthernet

/-- What ends a call without a result. -/
inductive Fault
  | assertion
  | runtimeError (what : String)
  | undefinedBehaviour
  deriving DecidableEq

/-- The members of a `prbs`. -/
structure Prbs where
  taps : List ℕ
  invert : Bool
  reg : BitVec 32
  regMask : BitVec 32
  highTap : ℕ
  lowTap : ℕ
  deriving DecidableEq

namespace Prbs

/-! ## Machine arithmetic -/

/-- `1 << n` in `int`. -/
def shiftOne (n : ℕ) : Except Fault (BitVec 32) :=
  if n < 32 then .ok (BitVec.twoPow 32 n) else .error .undefinedBehaviour

/-- `x - 1` in `int`. -/
def subOne (wrapv : Bool) (x : BitVec 32) : Except Fault (BitVec 32) :=
  if x = BitVec.intMin 32 ∧ wrapv = false then .error .undefinedBehaviour else .ok (x - 1)

/-- `(1 << n) - 1`. -/
def mask (wrapv : Bool) (n : ℕ) : Except Fault (BitVec 32) := do
  subOne wrapv (← shiftOne n)

/-- `reg >> n` in `uint32_t`. -/
def shiftRight (reg : BitVec 32) (n : ℕ) : Except Fault (BitVec 32) :=
  if n < 32 then .ok (reg >>> n) else .error .undefinedBehaviour

/-- `reg << n` in `uint32_t`. -/
def shiftLeft (reg : BitVec 32) (n : ℕ) : Except Fault (BitVec 32) :=
  if n < 32 then .ok (reg <<< n) else .error .undefinedBehaviour

/-- `tap - 1` in `uint32_t`. -/
def pred (tap : ℕ) : ℕ := if tap = 0 then 2 ^ 32 - 1 else tap - 1

/-! ## The methods -/

/-- The constructor. -/
def make (wrapv : Bool) (taps : List ℕ) (seed : BitVec 32) (invert : Bool) : Except Fault Prbs :=
  match taps with
  | [] => .error .assertion
  | t :: ts =>
    let highTap := ts.foldl max t
    let lowTap := ts.foldl min t
    if 32 < highTap then .error (.runtimeError "Tap value not supported")
    else do
      let regMask ← mask wrapv highTap
      .ok ⟨taps, invert, seed, regMask, highTap, lowTap⟩

/-- The loop over the taps after the first. -/
def xorLoop (reg : BitVec 32) : BitVec 32 → List ℕ → Except Fault (BitVec 32)
  | newBits, [] => .ok newBits
  | newBits, n :: ns => do xorLoop reg (newBits ^^^ (← shiftRight reg n)) ns

/-- The exclusive or of the register shifted by each of a list of counts. -/
def xorShifts (reg : BitVec 32) : List ℕ → Except Fault (BitVec 32)
  | [] => .error .undefinedBehaviour
  | n :: ns => do xorLoop reg (← shiftRight reg n) ns

variable (wrapv : Bool) (p : Prbs)

/-- `advance`: the register moves on by one bit. -/
def advance : Except Fault Prbs := do
  let newBit ← xorShifts p.reg (p.taps.map pred)
  let newBit := (if p.invert then ~~~newBit else newBit) &&& 1
  .ok { p with reg := (p.reg <<< 1 ||| newBit) &&& p.regMask }

/-- `get_bit`. -/
def getBit : Except Fault (BitVec 8 × Prbs) := do
  let p ← advance p
  .ok ((p.reg &&& 1).setWidth 8, p)

/-- `set_reg`. -/
def setReg (reg : BitVec 32) : Prbs := { p with reg := reg &&& p.regMask }

/-- `get_word`: `bits` bits in one step. -/
def getWord (bits : ℕ) : Except Fault (BitVec 32 × Prbs) :=
  if p.lowTap < bits then .error (.runtimeError "Too many bits requested")
  else do
    let mask ← mask wrapv bits
    let newBits ← xorShifts p.reg (p.taps.map (· - bits))
    let newBits := (if p.invert then ~~~newBits else newBits) &&& mask
    let shifted ← shiftLeft p.reg bits
    .ok (newBits, { p with reg := (shifted ||| newBits) &&& p.regMask })

/-- Successive calls of `get_bit`. -/
def getBits : ℕ → Prbs → Except Fault (List (BitVec 8) × Prbs)
  | 0, p => .ok ([], p)
  | k + 1, p => do
    let (bs, p) ← getBits k p
    let (b, p) ← getBit p
    .ok (bs ++ [b], p)

/-- The word of some bits, the first of them the most significant. -/
def wordOf (bs : List (BitVec 8)) : BitVec 32 :=
  bs.foldl (fun w b => w <<< 1 ||| b.setWidth 32) 0

/-! ## Bits -/

section Bits

/-- The exclusive or of some bits. -/
def parity (bs : List Bool) : Bool := bs.foldl Bool.xor false

/-- The word of `n` ones. -/
def lowMask (n : ℕ) : BitVec 32 := BitVec.twoPow 32 n - 1

theorem getLsbD_lowMask {n : ℕ} (hn : n < 32) (i : ℕ) : (lowMask n).getLsbD i = decide (i < n) := by
  have hpow : 2 ^ n < 2 ^ 32 := Nat.pow_lt_pow_right Nat.one_lt_two hn
  have hpos := Nat.two_pow_pos n
  have hnat : (lowMask n).toNat = 2 ^ n - 1 := by
    rw [lowMask, BitVec.toNat_sub, BitVec.toNat_twoPow_of_lt hn]
    simp
    omega
  rw [BitVec.getLsbD, hnat, Nat.testBit_two_pow_sub_one]

variable {wrapv : Bool} {n : ℕ}

theorem mask_eq (hn : n ≤ 30 ∨ n = 31 ∧ wrapv = true) : mask wrapv n = .ok (lowMask n) := by
  have hlt : n < 32 := by omega
  have hne : ¬ (BitVec.twoPow 32 n = BitVec.intMin 32 ∧ wrapv = false) := by
    rintro ⟨heq, hfalse⟩
    rcases hn with hn | ⟨-, hn⟩
    · have hnat := congrArg BitVec.toNat heq
      rw [BitVec.toNat_twoPow_of_lt hlt, BitVec.toNat_intMin] at hnat
      have hpow : 2 ^ n ≤ 2 ^ 30 := Nat.pow_le_pow_right Nat.two_pos hn
      omega
    · exact Bool.false_ne_true (hfalse.symm.trans hn)
  rw [mask, shiftOne, if_pos hlt]
  exact if_neg hne

theorem mask_error (hn : 32 ≤ n ∨ n = 31 ∧ wrapv = false) :
    mask wrapv n = .error .undefinedBehaviour := by
  rcases hn with hn | ⟨rfl, rfl⟩
  · rw [mask, shiftOne, if_neg (Nat.not_lt.mpr hn)]
    rfl
  · rfl

theorem xorLoop_eq (reg : BitVec 32) {ns : List ℕ} (hns : ∀ n ∈ ns, n < 32) (acc : BitVec 32) :
    ∃ w, xorLoop reg acc ns = .ok w ∧
      ∀ i, w.getLsbD i = (ns.map fun n => reg.getLsbD (n + i)).foldl Bool.xor (acc.getLsbD i) := by
  induction ns generalizing acc with
  | nil => exact ⟨acc, rfl, fun _ => rfl⟩
  | cons n ns ih =>
    obtain ⟨w, hw, hbits⟩ := ih (fun m hm => hns m (List.mem_cons_of_mem _ hm)) (acc ^^^ reg >>> n)
    refine ⟨w, ?_, fun i => ?_⟩
    · rw [xorLoop, shiftRight, if_pos (hns n List.mem_cons_self)]
      exact hw
    · rw [hbits, BitVec.getLsbD_xor, BitVec.getLsbD_ushiftRight]
      rfl

/-- Each bit is the parity of the bits that are shifted there. -/
theorem xorShifts_eq (reg : BitVec 32) {ns : List ℕ} (hne : ns ≠ []) (hns : ∀ n ∈ ns, n < 32) :
    ∃ w, xorShifts reg ns = .ok w ∧
      ∀ i, w.getLsbD i = parity (ns.map fun n => reg.getLsbD (n + i)) := by
  cases ns with
  | nil => exact absurd rfl hne
  | cons n ns =>
    obtain ⟨w, hw, hbits⟩ :=
      xorLoop_eq reg (fun m hm => hns m (List.mem_cons_of_mem _ hm)) (reg >>> n)
    refine ⟨w, ?_, fun i => ?_⟩
    · rw [xorShifts, shiftRight, if_pos (hns n List.mem_cons_self)]
      exact hw
    · rw [hbits, BitVec.getLsbD_ushiftRight, List.map_cons, parity, List.foldl_cons,
        Bool.false_xor]

theorem pred_eq {tap : ℕ} (h : 1 ≤ tap) : pred tap = tap - 1 := if_neg (by omega)

end Bits

theorem and_one (x : BitVec 32) : x &&& 1 = (BitVec.ofBool (x.getLsbD 0)).setWidth 32 := by
  apply BitVec.eq_of_getLsbD_eq
  intro i _
  cases i <;> simp

/-! ## Several bits ahead -/

/-- A register whose masks are right. -/
structure Valid (wrapv : Bool) (p : Prbs) : Prop where
  taps_ne : p.taps ≠ []
  lowTap_pos : 1 ≤ p.lowTap
  lowTap_le (t : ℕ) (ht : t ∈ p.taps) : p.lowTap ≤ t
  le_highTap (t : ℕ) (ht : t ∈ p.taps) : t ≤ p.highTap
  highTap_le : p.highTap ≤ 30 ∨ p.highTap = 31 ∧ wrapv = true
  regMask : p.regMask = lowMask p.highTap

/-- The bit that is shifted in `j` steps ahead, read off the register as it is. -/
def futureBit (p : Prbs) (j : ℕ) : Bool :=
  p.invert ^^ parity (p.taps.map fun t => p.reg.getLsbD (t - 1 - j))

/-- The register `k` steps ahead. -/
def Ahead (p : Prbs) (k : ℕ) (reg : BitVec 32) : Prop :=
  ∀ i < p.highTap, reg.getLsbD i =
    if i < k then futureBit p (k - 1 - i) else p.reg.getLsbD (i - k)

section Ahead

variable {wrapv : Bool} {p : Prbs} {k : ℕ}

theorem Valid.highTap_lt (h : Valid wrapv p) : p.highTap < 32 := by
  rcases h.highTap_le with hle | ⟨heq, -⟩ <;> omega

theorem Valid.tap_pos (h : Valid wrapv p) {t : ℕ} (ht : t ∈ p.taps) : 1 ≤ t :=
  h.lowTap_pos.trans (h.lowTap_le t ht)

theorem Valid.lowTap_le_highTap (h : Valid wrapv p) : p.lowTap ≤ p.highTap := by
  obtain ⟨t, ht⟩ := List.exists_mem_of_ne_nil _ h.taps_ne
  exact (h.lowTap_le t ht).trans (h.le_highTap t ht)

/-- The members but the register are never changed. -/
theorem Valid.withReg (h : Valid wrapv p) (reg : BitVec 32) : Valid wrapv { p with reg := reg } :=
  ⟨h.taps_ne, h.lowTap_pos, h.lowTap_le, h.le_highTap, h.highTap_le, h.regMask⟩

/-- New bits are shifted in, and the mask cuts the register to its length. -/
theorem Valid.getLsbD_shifted (h : Valid wrapv p) {reg w : BitVec 32}
    (hw : ∀ i, k ≤ i → w.getLsbD i = false) (i : ℕ) :
    ((reg <<< k ||| w) &&& p.regMask).getLsbD i =
      (decide (i < p.highTap) && if i < k then w.getLsbD i else reg.getLsbD (i - k)) := by
  have hhigh := h.highTap_lt
  rw [BitVec.getLsbD_and, BitVec.getLsbD_or, BitVec.getLsbD_shiftLeft, h.regMask,
    getLsbD_lowMask hhigh, Bool.and_comm]
  by_cases hi : i < p.highTap
  · have hlt : i < 32 := by omega
    by_cases hik : i < k
    · simp [hi, hik]
    · rw [hw i (by omega), Bool.or_false, if_neg hik]
      simp [hi, hlt, hik]
  · simp [hi]

/-- The register, shifted for each tap. -/
theorem Valid.xorShifts_map (h : Valid wrapv p) (reg : BitVec 32) {f : ℕ → ℕ}
    (hf : ∀ t ∈ p.taps, f t < 32) :
    ∃ w, xorShifts reg (p.taps.map f) = .ok w ∧
      ∀ i, w.getLsbD i = parity (p.taps.map fun t => reg.getLsbD (f t + i)) := by
  obtain ⟨w, hw, hbits⟩ := xorShifts_eq reg
    (fun hnil => h.taps_ne (List.map_eq_nil_iff.mp hnil)) (List.forall_mem_map.mpr hf)
  refine ⟨w, hw, fun i => ?_⟩
  rw [hbits, List.map_map]
  rfl

/-- One bit, after `k` others. -/
theorem advance_ahead (h : Valid wrapv p) (hk : k < p.lowTap) {reg : BitVec 32}
    (hreg : Ahead p k reg) :
    ∃ reg', advance { p with reg := reg } = .ok { p with reg := reg' } ∧
      (∀ i, p.highTap ≤ i → reg'.getLsbD i = false) ∧ Ahead p (k + 1) reg' := by
  have hlow := h.lowTap_pos
  have hlowhigh := h.lowTap_le_highTap
  have hhigh := h.highTap_lt
  have hshifts : ∀ t ∈ p.taps, pred t < 32 := by
    intro t ht
    have hle := h.le_highTap t ht
    rw [pred_eq (h.tap_pos ht)]
    omega
  obtain ⟨w, hw, hbits⟩ := h.xorShifts_map reg hshifts
  have hbit : w.getLsbD 0 = parity (p.taps.map fun t => p.reg.getLsbD (t - 1 - k)) := by
    rw [hbits]
    congr 1
    refine List.map_congr_left fun t ht => ?_
    have hle := h.le_highTap t ht
    have hge := h.lowTap_le t ht
    rw [pred_eq (h.tap_pos ht), Nat.add_zero, hreg (t - 1) (by omega), if_neg (by omega)]
  have hnew : ((if p.invert then ~~~w else w) &&& 1).getLsbD 0 = futureBit p k := by
    rw [futureBit, ← hbit]
    cases p.invert <;> simp
  have hone : ∀ i, 1 ≤ i → ((if p.invert then ~~~w else w) &&& 1).getLsbD i = false := by
    intro i hi
    simp [BitVec.getLsbD_one, Nat.pos_iff_ne_zero.mp hi]
  refine ⟨_, by rw [advance]; dsimp only; rw [hw]; rfl, fun i hi => ?_, fun i hi => ?_⟩
  · rw [h.getLsbD_shifted hone, decide_eq_false (Nat.not_lt.mpr hi), Bool.false_and]
  · rw [h.getLsbD_shifted hone, decide_eq_true hi, Bool.true_and]
    cases i with
    | zero =>
      rw [if_pos Nat.one_pos, if_pos (Nat.succ_pos k), hnew, Nat.add_sub_cancel, Nat.sub_zero]
    | succ i =>
      rw [if_neg (by omega), Nat.add_sub_cancel, hreg i (by omega)]
      by_cases hik : i < k
      · rw [if_pos hik, if_pos (by omega), show k + 1 - 1 - (i + 1) = k - 1 - i by omega]
      · rw [if_neg hik, if_neg (by omega), Nat.add_sub_add_right]

/-- **Bit by bit**: the bits of `k` calls of `get_bit`, and the register they leave. -/
theorem getBits_ahead (h : Valid wrapv p) (hk : k ≤ p.lowTap) :
    ∃ reg, getBits k p =
        .ok ((List.range k).map fun j => (BitVec.ofBool (futureBit p j)).setWidth 8,
          { p with reg := reg }) ∧
      (0 < k → ∀ i, p.highTap ≤ i → reg.getLsbD i = false) ∧ Ahead p k reg := by
  induction k with
  | zero => exact ⟨p.reg, rfl, by simp, fun i _ => by simp⟩
  | succ k ih =>
    obtain ⟨reg, hbits, -, hreg⟩ := ih (by omega)
    obtain ⟨reg', hadvance, hhigh, hreg'⟩ := advance_ahead h (by omega) hreg
    refine ⟨reg', ?_, fun _ => hhigh, hreg'⟩
    have hlow := h.lowTap_pos
    have hlowhigh := h.lowTap_le_highTap
    have hbit := hreg' 0 (by omega)
    rw [if_pos (Nat.succ_pos k), Nat.add_sub_cancel, Nat.sub_zero] at hbit
    have hone : reg' &&& 1 = (BitVec.ofBool (futureBit p k)).setWidth 32 := by
      rw [← hbit]
      exact and_one reg'
    rw [getBits, hbits, List.range_succ, List.map_append, List.map_singleton]
    dsimp only [bind, Except.bind]
    rw [getBit, hadvance]
    dsimp only [bind, Except.bind]
    rw [hone, BitVec.setWidth_setWidth_of_le _ (by decide)]

theorem getLsbD_wordOf (f : ℕ → Bool) (k i : ℕ) (hk : k ≤ 32) :
    (wordOf ((List.range k).map fun j => (BitVec.ofBool (f j)).setWidth 8)).getLsbD i =
      (decide (i < k) && f (k - 1 - i)) := by
  induction k generalizing i with
  | zero => simp [wordOf]
  | succ k ih =>
    rw [List.range_succ, List.map_append, wordOf, List.foldl_append, ← wordOf, List.map_singleton,
      List.foldl_cons, List.foldl_nil, BitVec.getLsbD_or, BitVec.getLsbD_shiftLeft]
    cases i with
    | zero => simp
    | succ i =>
      rw [Nat.add_sub_cancel, ih i (by omega)]
      by_cases hik : i < k
      · have hlt : i + 1 < 32 := by omega
        simp [hik, hlt, show k - (i + 1) = k - 1 - i by omega]
      · simp [hik]

/-- The mask of a word of `k` bits. -/
theorem Valid.mask_eq (h : Valid wrapv p) (hk : k ≤ p.lowTap) :
    mask wrapv k = .ok (lowMask k) := by
  have hlowhigh := h.lowTap_le_highTap
  refine Prbs.mask_eq ?_
  rcases h.highTap_le with hle | ⟨heq, hwrapv⟩
  · exact .inl (by omega)
  · by_cases hk' : k ≤ 30
    · exact .inl hk'
    · exact .inr ⟨by omega, hwrapv⟩

/-- The register shifted by `k` less for each tap has the next `k` bits in it, the first of them at
the top. -/
theorem Valid.getLsbD_newBits (h : Valid wrapv p) (hk : k ≤ p.lowTap) {w : BitVec 32}
    (hw : ∀ i, w.getLsbD i = parity (p.taps.map fun t => p.reg.getLsbD (t - k + i))) (i : ℕ) :
    ((if p.invert then ~~~w else w) &&& lowMask k).getLsbD i =
      (decide (i < k) && futureBit p (k - 1 - i)) := by
  have hlowhigh := h.lowTap_le_highTap
  have hhigh := h.highTap_lt
  rw [BitVec.getLsbD_and, getLsbD_lowMask (by omega), Bool.and_comm]
  by_cases hik : i < k
  · have hparity : w.getLsbD i =
        parity (p.taps.map fun t => p.reg.getLsbD (t - 1 - (k - 1 - i))) := by
      rw [hw]
      congr 1
      refine List.map_congr_left fun t ht => ?_
      have hge := h.lowTap_le t ht
      rw [show t - k + i = t - 1 - (k - 1 - i) by omega]
    have hlt : i < 32 := by omega
    rw [futureBit, ← hparity]
    cases p.invert <;> simp [hik, hlt]
  · simp [hik]

/-- **All at once**: the word of `get_word`, and the register it leaves. -/
theorem getWord_ahead (h : Valid wrapv p) (hk : k ≤ p.lowTap) (hpos : 0 < k) :
    ∃ w reg, getWord wrapv p k = .ok (w, { p with reg := reg }) ∧
      (∀ i, w.getLsbD i = (decide (i < k) && futureBit p (k - 1 - i))) ∧
      (∀ i, p.highTap ≤ i → reg.getLsbD i = false) ∧ Ahead p k reg := by
  have hlowhigh := h.lowTap_le_highTap
  have hhigh := h.highTap_lt
  have hshifts : ∀ t ∈ p.taps, t - k < 32 := by
    intro t ht
    have hle := h.le_highTap t ht
    omega
  obtain ⟨w, hw, hbits⟩ := h.xorShifts_map p.reg hshifts
  have hnew := h.getLsbD_newBits hk hbits
  have hcut : ∀ i, k ≤ i → ((if p.invert then ~~~w else w) &&& lowMask k).getLsbD i = false := by
    intro i hi
    rw [hnew, decide_eq_false (by omega), Bool.false_and]
  refine ⟨_, (p.reg <<< k ||| ((if p.invert then ~~~w else w) &&& lowMask k)) &&& p.regMask, ?_,
    hnew, fun i hi => ?_, fun i hi => ?_⟩
  · rw [getWord, if_neg (Nat.not_lt.mpr hk), h.mask_eq hk]
    dsimp only [bind, Except.bind]
    rw [hw]
    dsimp only
    rw [shiftLeft, if_pos (by omega)]
  · rw [h.getLsbD_shifted hcut, decide_eq_false (Nat.not_lt.mpr hi), Bool.false_and]
  · rw [h.getLsbD_shifted hcut, decide_eq_true hi, Bool.true_and, hnew]
    by_cases hik : i < k
    · rw [if_pos hik, if_pos hik, decide_eq_true hik, Bool.true_and]
    · rw [if_neg hik, if_neg hik]

/-- The fast form does what the slow one does. -/
theorem getWord_eq_getBits (h : Valid wrapv p) (hk : k ≤ p.lowTap) (hpos : 0 < k) :
    ∃ bs reg, getBits k p = .ok (bs, { p with reg := reg }) ∧
      getWord wrapv p k = .ok (wordOf bs, { p with reg := reg }) ∧
      ∀ i, p.highTap ≤ i → reg.getLsbD i = false := by
  obtain ⟨reg, hbits, hcut, hreg⟩ := getBits_ahead h hk
  obtain ⟨w, reg', hword, hw, hcut', hreg'⟩ := getWord_ahead h hk hpos
  have hlowhigh := h.lowTap_le_highTap
  have hhigh := h.highTap_lt
  have heq : reg' = reg := by
    apply BitVec.eq_of_getLsbD_eq
    intro i _
    by_cases hi : i < p.highTap
    · rw [hreg i hi, hreg' i hi]
    · rw [hcut hpos i (by omega), hcut' i (by omega)]
  refine ⟨_, reg, hbits, ?_, hcut hpos⟩
  rw [hword, heq]
  congr 2
  apply BitVec.eq_of_getLsbD_eq
  intro i _
  rw [hw, getLsbD_wordOf _ _ _ (by omega)]

end Ahead

/-! ## The constructor -/

section Make

variable {wrapv : Bool} {taps : List ℕ}

/-- The mask of the constructor. -/
theorem exists_highTap (wrapv : Bool) (hne : taps ≠ []) (htaps : ∀ t ∈ taps, 1 ≤ t ∧ t ≤ 32) :
    ∃ highTap ∈ taps, ∃ lowTap ∈ taps, (∀ t ∈ taps, lowTap ≤ t ∧ t ≤ highTap) ∧
      ∀ seed invert, make wrapv taps seed invert = (do
        let regMask ← mask wrapv highTap
        .ok ⟨taps, invert, seed, regMask, highTap, lowTap⟩) := by
  cases taps with
  | nil => exact absurd rfl hne
  | cons t ts =>
    have hmax : (t :: ts).max? = some (ts.foldl max t) := rfl
    have hmin : (t :: ts).min? = some (ts.foldl min t) := rfl
    have hmem := List.max?_mem hmax
    refine ⟨_, hmem, _, List.min?_mem hmin, fun u hu => ⟨?_, ?_⟩, fun seed invert => ?_⟩
    · exact (List.le_min?_iff hmin).mp le_rfl u hu
    · exact (List.max?_le_iff hmax).mp le_rfl u hu
    · exact if_neg (Nat.not_lt.mpr (htaps _ hmem).2)

/-- For each seed and each value set through `set_reg`, any number of bits up to the smallest tap
come as one word as they come one by one; and the register never reaches beyond the largest tap
after a call. -/
def FastForm (wrapv : Bool) (taps : List ℕ) : Prop :=
  ∀ invert seed, ∃ p, make wrapv taps seed invert = .ok p ∧
    (∀ reg i, (∀ t ∈ taps, t ≤ i) → (setReg p reg).reg.getLsbD i = false) ∧
    ∀ q, (q = p ∨ ∃ reg, q = setReg p reg) → ∀ k, 1 ≤ k → (∀ t ∈ taps, k ≤ t) →
      ∃ bs q', getBits k q = .ok (bs, q') ∧ getWord wrapv q k = .ok (wordOf bs, q') ∧
        ∀ i, (∀ t ∈ taps, t ≤ i) → q'.reg.getLsbD i = false

/-- **The fast form is right** when the masks are, and they are up to a tap of 30, or of 31 where
signed overflow wraps around. -/
theorem fastForm_iff (hne : taps ≠ []) (htaps : ∀ t ∈ taps, 1 ≤ t ∧ t ≤ 32) :
    FastForm wrapv taps ↔ ∀ t ∈ taps, t ≤ 30 ∨ t = 31 ∧ wrapv = true := by
  obtain ⟨highTap, hhigh, lowTap, hlow, hbounds, hmake⟩ := exists_highTap wrapv hne htaps
  constructor
  · intro h t ht
    by_contra hcon
    have hle := (hbounds t ht).2
    have hhighle := (htaps _ hhigh).2
    have hmask : mask wrapv highTap = .error .undefinedBehaviour := by
      refine mask_error ?_
      cases wrapv
      · simp only [Bool.false_eq_true, and_false, or_false, and_true] at hcon ⊢
        omega
      · simp only [and_true] at hcon
        omega
    obtain ⟨p, hp, -⟩ := h false 0
    rw [hmake, hmask] at hp
    cases hp
  · intro h invert seed
    have hvalid : Valid wrapv ⟨taps, invert, seed, lowMask highTap, highTap, lowTap⟩ :=
      ⟨hne, (htaps _ hlow).1, fun t ht => (hbounds t ht).1, fun t ht => (hbounds t ht).2,
        h _ hhigh, rfl⟩
    refine ⟨_, by rw [hmake, mask_eq (h _ hhigh)]; rfl, fun reg i hi => ?_,
      fun q hq k hk hktaps => ?_⟩
    · rw [setReg, BitVec.getLsbD_and, getLsbD_lowMask hvalid.highTap_lt,
        decide_eq_false (Nat.not_lt.mpr (hi _ hhigh)), Bool.and_false]
    · have hq' : Valid wrapv q ∧ q.lowTap = lowTap ∧ q.highTap = highTap := by
        rcases hq with rfl | ⟨reg, rfl⟩
        · exact ⟨hvalid, rfl, rfl⟩
        · exact ⟨hvalid.withReg _, rfl, rfl⟩
      obtain ⟨hq', hqlow, hqhigh⟩ := hq'
      obtain ⟨bs, reg, hbits, hword, hcut⟩ :=
        getWord_eq_getBits hq' (by rw [hqlow]; exact hktaps _ hlow) hk
      refine ⟨bs, _, hbits, hword, fun i hi => hcut i ?_⟩
      rw [hqhigh]
      exact hi _ hhigh

/-- The taps 23 and 18. -/
theorem fastForm_bench : FastForm false [23, 18] :=
  (fastForm_iff (by decide) (by decide)).mpr (by simp)

/-- No mask for a register of 32 bits. -/
theorem not_fastForm :
    ¬ ∀ wrapv taps, taps ≠ [] → (∀ t ∈ taps, 1 ≤ t ∧ t ≤ 32) → FastForm wrapv taps := by
  intro h
  obtain ⟨p, hp, -⟩ := h true [32, 22, 2, 1] (by decide) (by decide) true 0
  cases hp

end Make

end Prbs

end RmiiEthernet
