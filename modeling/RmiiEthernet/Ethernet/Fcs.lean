import RmiiEthernet.Sync.Crc
import RmiiEthernet.Sync.Run
import Mathlib.Tactic.IntervalCases

/-!
# The frame check sequence

`ethernet_fcs` computes the CRC of Ethernet with a register that shifts to the left, eight bits a
cycle, and the generated equations of `calc_crc32` for the eight steps. The register is the mirror
image of the register of the CRC-32 of IEEE 802.3, which takes the bits of a byte from the least
significant one on (`calcCrc32_eq`).

* `crc32` is that CRC, `fcsBytes` its four bytes in the order of transmission.
* `verify_iff`: after a message and four more bytes the register holds the value `verify_out`
  looks for exactly when the four bytes are the check sequence of the message.
-/

namespace RmiiEthernet.EthernetFcs

open Sync

/-- A byte. -/
abbrev Byte := BitVec 8

/-! ## The standard CRC -/

/-- The polynomial of IEEE 802.3 for a register that takes the least significant bit first. -/
def polynomial : BitVec 32 := 0xEDB88320

/-- The bits of a byte in the order of transmission. -/
def byteBits (d : Byte) : List Bool := (List.range 8).map d.getLsbD

/-- The bits of a message in the order of transmission. -/
def messageBits (m : List Byte) : List Bool := m.flatMap byteBits

/-- The register after a message, all ones at the start. -/
def crcRegister (m : List Byte) : BitVec 32 :=
  crcBits polynomial 0xFFFFFFFF (messageBits m)

/-- **The CRC-32 of a message**: the complement of the register. -/
def crc32 (m : List Byte) : BitVec 32 := ~~~crcRegister m

/-- The four bytes of the CRC of a message, least significant byte first. -/
def fcsBytes (m : List Byte) : List Byte :=
  [(crc32 m).extractLsb' 0 8, (crc32 m).extractLsb' 8 8, (crc32 m).extractLsb' 16 8,
    (crc32 m).extractLsb' 24 8]

example : crc32 [0x31, 0x32, 0x33, 0x34, 0x35, 0x36, 0x37, 0x38, 0x39] = 0xCBF43926 := by
  decide +kernel

/-! ## The circuit -/

/-- The equations of `calc_crc32`: for each bit of the result the bits of `crc_in` and the bits of
`data` whose exclusive or it is. -/
def crcTaps : List (List ℕ × List ℕ) :=
  [([24, 30], [0, 6]),
   ([24, 25, 30, 31], [0, 1, 6, 7]),
   ([24, 25, 26, 30, 31], [0, 1, 2, 6, 7]),
   ([25, 26, 27, 31], [1, 2, 3, 7]),
   ([24, 26, 27, 28, 30], [0, 2, 3, 4, 6]),
   ([24, 25, 27, 28, 29, 30, 31], [0, 1, 3, 4, 5, 6, 7]),
   ([25, 26, 28, 29, 30, 31], [1, 2, 4, 5, 6, 7]),
   ([24, 26, 27, 29, 31], [0, 2, 3, 5, 7]),
   ([0, 24, 25, 27, 28], [0, 1, 3, 4]),
   ([1, 25, 26, 28, 29], [1, 2, 4, 5]),
   ([2, 24, 26, 27, 29], [0, 2, 3, 5]),
   ([3, 24, 25, 27, 28], [0, 1, 3, 4]),
   ([4, 24, 25, 26, 28, 29, 30], [0, 1, 2, 4, 5, 6]),
   ([5, 25, 26, 27, 29, 30, 31], [1, 2, 3, 5, 6, 7]),
   ([6, 26, 27, 28, 30, 31], [2, 3, 4, 6, 7]),
   ([7, 27, 28, 29, 31], [3, 4, 5, 7]),
   ([8, 24, 28, 29], [0, 4, 5]),
   ([9, 25, 29, 30], [1, 5, 6]),
   ([10, 26, 30, 31], [2, 6, 7]),
   ([11, 27, 31], [3, 7]),
   ([12, 28], [4]),
   ([13, 29], [5]),
   ([14, 24], [0]),
   ([15, 24, 25, 30], [0, 1, 6]),
   ([16, 25, 26, 31], [1, 2, 7]),
   ([17, 26, 27], [2, 3]),
   ([18, 24, 27, 28, 30], [0, 3, 4, 6]),
   ([19, 25, 28, 29, 31], [1, 4, 5, 7]),
   ([20, 26, 29, 30], [2, 5, 6]),
   ([21, 27, 30, 31], [3, 6, 7]),
   ([22, 28, 31], [4, 7]),
   ([23, 29], [5])]

/-- The exclusive or of some bits of a word. -/
def xorOf {n : ℕ} (x : BitVec n) (is : List ℕ) : Bool :=
  is.foldr (fun i b => x.getLsbD i ^^ b) false

/-- `calc_crc32`. -/
def calcCrc32 (data : Byte) (crcIn : BitVec 32) : BitVec 32 :=
  lowBits 32 (crcTaps.map fun t => xorOf crcIn t.1 ^^ xorOf data t.2)

/-- The input ports in one cycle. -/
structure Inputs where
  reset : Bool
  initValIn : BitVec 32 := 0
  dataIn : Byte
  validIn : Bool
  enCalcIn : Bool

/-- The registers; neither has an initial value. -/
structure State where
  crcReg : BitVec 32
  fcsByte : Byte
  deriving DecidableEq

/-- `C_INIT_VAL_SLV`. -/
def crcInitVal : BitVec 32 := 0xFFFFFFFF

/-- `C_CRC_VERIFY`: what a frame with its check sequence leaves. -/
def crcVerify : BitVec 32 := 0xC704DD7B

/-- `crc_next`: the byte enters with its lowest bit first. -/
def State.crcNext (s : State) (dataIn : Byte) : BitVec 32 := calcCrc32 dataIn.reverse s.crcReg

/-- The register after one byte has been shifted out at the top. -/
def shiftOut (c : BitVec 32) : BitVec 32 := c.extractLsb' 0 24 ++ (0xFF : Byte)

/-- One clock edge; `gUserInitValPort` is the generic of that name. -/
def step (gUserInitValPort : Bool) (s : State) (i : Inputs) : State :=
  if i.reset then
    { s with crcReg := if gUserInitValPort then i.initValIn else crcInitVal }
  else if i.enCalcIn && i.validIn then
    { crcReg := s.crcNext i.dataIn
      fcsByte := ~~~((s.crcNext i.dataIn).extractLsb' 24 8).reverse }
  else if i.validIn then
    { crcReg := shiftOut s.crcReg
      fcsByte := ~~~(s.crcReg.extractLsb' 16 8).reverse }
  else s

/-- `verify_out`. -/
def verifyOut (s : State) : Bool := s.crcReg == crcVerify

/-! ## The equations are eight steps of the register -/

theorem xorOf_xor {n : ℕ} (x y : BitVec n) (is : List ℕ) :
    xorOf (x ^^^ y) is = (xorOf x is ^^ xorOf y is) := by
  induction is with
  | nil => rfl
  | cons i is ih =>
    simp only [xorOf, List.foldr_cons] at ih ⊢
    rw [ih, BitVec.getLsbD_xor, Bool.xor_assoc, Bool.xor_assoc, Bool.xor_left_comm (y.getLsbD i)]

theorem calcCrc32_xor (d d' : Byte) (c c' : BitVec 32) :
    calcCrc32 (d ^^^ d') (c ^^^ c') = calcCrc32 d c ^^^ calcCrc32 d' c' := by
  unfold calcCrc32
  rw [← lowBits_map_xor]
  congr 2
  funext t
  rw [xorOf_xor, xorOf_xor, Bool.xor_assoc, Bool.xor_assoc, Bool.xor_left_comm (xorOf c' t.1)]

/-- Eight zero bits into the register. -/
def crcByteZero (r : BitVec 32) : BitVec 32 := crcBits polynomial r (List.replicate 8 false)

theorem crcByteZero_linear : Linear crcByteZero := crcBits_linear 8

theorem calcCrc32_register (c : BitVec 32) : calcCrc32 0 c = (crcByteZero c.reverse).reverse := by
  refine linear_ext (f := calcCrc32 0) (g := fun c => (crcByteZero c.reverse).reverse)
    (fun x y => ?_) (fun x y => ?_) (by decide +kernel) c
  · simpa using calcCrc32_xor 0 0 x y
  · simp only [reverse_xor, crcByteZero_linear _ _]

theorem calcCrc32_data (d : Byte) :
    calcCrc32 d.reverse 0 = (crcByteZero (d.setWidth 32)).reverse := by
  refine linear_ext (f := fun d => calcCrc32 d.reverse 0)
    (g := fun d => (crcByteZero (d.setWidth 32)).reverse)
    (fun x y => ?_) (fun x y => ?_) (by decide +kernel) d
  · simp only [reverse_xor]
    simpa using calcCrc32_xor x.reverse y.reverse 0 0
  · simp only [BitVec.setWidth_xor, crcByteZero_linear _ _, reverse_xor]

theorem lowBits_byteBits (d : Byte) : lowBits 32 (byteBits d) = d.setWidth 32 := by
  apply BitVec.eq_of_getLsbD_eq
  intro i hi
  rw [getLsbD_lowBits, BitVec.getLsbD_setWidth, byteBits]
  by_cases h : i < 8
  · simp [h]
  · simp [BitVec.getLsbD_of_ge d i (by omega), h]

/-- **`calc_crc32` is eight steps of the standard register**, in the mirror. -/
theorem calcCrc32_eq (d : Byte) (c : BitVec 32) :
    calcCrc32 d.reverse c = (crcBits polynomial c.reverse (byteBits d)).reverse := by
  have hx : calcCrc32 d.reverse c = calcCrc32 0 c ^^^ calcCrc32 d.reverse 0 := by
    simpa using calcCrc32_xor 0 d.reverse c 0
  rw [hx, calcCrc32_register, calcCrc32_data, ← reverse_xor, ← crcByteZero_linear,
    crcBits_absorb _ _ (by simp [byteBits]), lowBits_byteBits]
  simp [byteBits, crcByteZero]

theorem messageBits_append (m m' : List Byte) :
    messageBits (m ++ m') = messageBits m ++ messageBits m' := List.flatMap_append

theorem length_messageBits (m : List Byte) : (messageBits m).length = 8 * m.length := by
  induction m with
  | nil => rfl
  | cons d m ih =>
    rw [messageBits, List.flatMap_cons, List.length_append, List.length_cons]
    rw [messageBits] at ih
    simp [ih, byteBits]
    omega

theorem crcRegister_append (m m' : List Byte) :
    crcRegister (m ++ m') = crcBits polynomial (crcRegister m) (messageBits m') := by
  rw [crcRegister, messageBits_append, crcBits_append]
  rfl

/-- The register of the circuit after the message `m`. -/
def circuitRegister (m : List Byte) : BitVec 32 := (crcRegister m).reverse

theorem circuitRegister_nil : circuitRegister [] = crcInitVal := by decide +kernel

theorem crcNext_circuitRegister {s : State} {m : List Byte} (h : s.crcReg = circuitRegister m)
    (d : Byte) : s.crcNext d = circuitRegister (m ++ [d]) := by
  rw [State.crcNext, calcCrc32_eq, h, circuitRegister, circuitRegister, BitVec.reverse_reverse_eq,
    crcRegister_append]
  simp [messageBits]

/-- Bytes that come behind do not hide a difference. -/
theorem circuitRegister_append_inj (m m' f : List Byte) :
    circuitRegister (m ++ f) = circuitRegister (m' ++ f) ↔
      circuitRegister m = circuitRegister m' := by
  have hreverse : Function.Injective (BitVec.reverse : BitVec 32 → BitVec 32) :=
    Function.LeftInverse.injective fun x => BitVec.reverse_reverse_eq
  have hcrc : Function.Injective fun r => crcBits polynomial r (messageBits f) :=
    crcBits_injective (by decide) _
  simp only [circuitRegister, crcRegister_append, hreverse.eq_iff]
  exact hcrc.eq_iff

/-- One byte does not lead back to the initial value. -/
theorem circuitRegister_singleton_ne (b : Byte) : circuitRegister [b] ≠ crcInitVal := by
  revert b
  decide +kernel

/-! ## Checking a message -/

theorem lowBits_messageBits (a b c d : Byte) :
    lowBits 32 (messageBits [a, b, c, d]) = d ++ c ++ b ++ a := by
  apply BitVec.eq_of_getLsbD_eq
  intro i hi
  rw [getLsbD_lowBits]
  simp only [messageBits, byteBits, List.flatMap_cons, List.flatMap_nil, BitVec.getLsbD_append]
  interval_cases i <;> rfl

theorem append_bytes_eq_iff (x : BitVec 32) (a b c d : Byte) :
    d ++ c ++ b ++ a = x ↔ [a, b, c, d] =
      [x.extractLsb' 0 8, x.extractLsb' 8 8, x.extractLsb' 16 8, x.extractLsb' 24 8] := by
  simp only [List.cons.injEq, and_true]
  constructor
  · rintro rfl
    refine ⟨?_, ?_, ?_, ?_⟩ <;> apply BitVec.eq_of_getLsbD_eq <;> intro i hi <;>
      simp only [BitVec.getLsbD_extractLsb', BitVec.getLsbD_append] <;> interval_cases i <;> rfl
  · rintro ⟨rfl, rfl, rfl, rfl⟩
    apply BitVec.eq_of_getLsbD_eq
    intro i hi
    simp only [BitVec.getLsbD_extractLsb', BitVec.getLsbD_append]
    interval_cases i <;> rfl

/-- The content of the register that `verify_out` looks for, in the mirror. -/
theorem reverse_crcVerify : crcVerify.reverse =
    crcBits polynomial (BitVec.allOnes 32) (List.replicate 32 false) := by decide +kernel

/-- **The check is exact**: after a message and four bytes the register holds the value of
`verify_out` if and only if the four bytes are the check sequence of the message. -/
theorem verify_iff (m f : List Byte) (hf : f.length = 4) :
    circuitRegister (m ++ f) = crcVerify ↔ f = fcsBytes m := by
  obtain ⟨a, b, c, d, rfl⟩ : ∃ a b c d, f = [a, b, c, d] := by
    match f, hf with
    | [a, b, c, d], _ => exact ⟨a, b, c, d, rfl⟩
  have hlen : (messageBits [a, b, c, d]).length = 32 := by rw [length_messageBits]; rfl
  have hreg : circuitRegister (m ++ [a, b, c, d]) = crcVerify ↔
      crcRegister (m ++ [a, b, c, d]) = crcVerify.reverse := by
    rw [circuitRegister]
    constructor
    · intro h
      rw [← h, BitVec.reverse_reverse_eq]
    · intro h
      rw [h, BitVec.reverse_reverse_eq]
  have hinj : Function.Injective fun r => crcBits polynomial r (List.replicate 32 false) :=
    crcBits_injective (by decide) _
  rw [hreg, crcRegister_append, crcBits_absorb _ _ hlen.le, hlen, reverse_crcVerify, hinj.eq_iff,
    lowBits_messageBits, fcsBytes, ← append_bytes_eq_iff, crc32, BitVec.not_def]
  constructor
  · intro h
    rw [← h, BitVec.xor_comm, ← BitVec.xor_assoc, BitVec.xor_self, BitVec.zero_xor]
  · intro h
    rw [h, BitVec.xor_comm, BitVec.xor_assoc, BitVec.xor_self, BitVec.xor_zero]

/-! ## Generating a check sequence -/

/-- The bytes that leave the register when `k` are shifted out. -/
def outBytes (c : BitVec 32) : ℕ → List Byte
  | 0 => []
  | k + 1 => ~~~(c.extractLsb' 24 8).reverse :: outBytes (shiftOut c) k

/-- A slice of the mirror image, mirrored, is the opposite slice. -/
theorem reverse_extract_reverse {w : ℕ} (x : BitVec w) {a l : ℕ} (h : a + l ≤ w) :
    (x.reverse.extractLsb' a l).reverse = x.extractLsb' (w - a - l) l := by
  apply BitVec.eq_of_getLsbD_eq
  intro i hi
  rw [BitVec.getLsbD_reverse, BitVec.getMsbD_eq_getLsbD, BitVec.getLsbD_extractLsb',
    BitVec.getLsbD_reverse, BitVec.getMsbD_eq_getLsbD, BitVec.getLsbD_extractLsb']
  simp only [hi, show l - 1 - i < l by omega, show a + (l - 1 - i) < w by omega, decide_true,
    Bool.true_and]
  congr 1
  omega

theorem not_extract {w : ℕ} (x : BitVec w) {a l : ℕ} (h : a + l ≤ w) :
    ~~~(x.extractLsb' a l) = (~~~x).extractLsb' a l := by
  apply BitVec.eq_of_getLsbD_eq
  intro i hi
  simp [hi]
  omega

/-- The byte at the top of the register is the next byte of the check sequence. -/
theorem topByte_circuitRegister (m : List Byte) {a : ℕ} (ha : a + 8 ≤ 32) :
    ~~~((circuitRegister m).extractLsb' a 8).reverse = (crc32 m).extractLsb' (32 - a - 8) 8 := by
  rw [circuitRegister, reverse_extract_reverse _ ha, not_extract _ (by omega), crc32]

theorem shiftOut_extract (c : BitVec 32) {a : ℕ} (ha : a + 8 ≤ 24) :
    (shiftOut c).extractLsb' (a + 8) 8 = c.extractLsb' a 8 := by
  apply BitVec.eq_of_getLsbD_eq
  intro i hi
  simp only [shiftOut, BitVec.getLsbD_extractLsb', BitVec.getLsbD_append, hi, decide_true,
    Bool.true_and, show ¬ a + 8 + i < 8 by omega, if_false, show a + 8 + i - 8 < 24 by omega]
  congr 1
  omega

/-- **What is shifted out after a message is its check sequence.** -/
theorem outBytes_circuitRegister (m : List Byte) : outBytes (circuitRegister m) 4 = fcsBytes m := by
  simp only [outBytes, fcsBytes]
  rw [shiftOut_extract _ (a := 16) (by omega), shiftOut_extract _ (a := 16) (by omega),
    shiftOut_extract _ (a := 8) (by omega), shiftOut_extract _ (a := 16) (by omega),
    shiftOut_extract _ (a := 8) (by omega), shiftOut_extract _ (a := 0) (by omega),
    topByte_circuitRegister m (by omega), topByte_circuitRegister m (by omega),
    topByte_circuitRegister m (by omega), topByte_circuitRegister m (by omega)]

end RmiiEthernet.EthernetFcs
