import RmiiEthernet.Udp.Framer

/-!
# The header checksum

The checksum of an IPv4 header is valid when the one's complement sum of its ten words is `0xFFFF`.
The work is divided: `calculate_checksum_seed` of the driver sums the words that do not depend on
the payload, with the carry brought around, and `udp_ip_framer` adds the total length and
complements. The addition in the circuit drops the carry, so the header is valid exactly when there
is none (`onesSum_ipHeader_iff`).
-/

namespace RmiiEthernet.Udp

open Sync EthernetFcs

/-! ## One's complement sums -/

/-- One's complement addition of 16-bit words. -/
def onesAdd (a b : ℕ) : ℕ := (a + b) % 0x10000 + (a + b) / 0x10000

/-- The one's complement sum of a list of 16-bit words. -/
def onesSum (ws : List ℕ) : ℕ := ws.foldl onesAdd 0

theorem foldl_onesAdd {ws : List ℕ} (hws : ∀ w ∈ ws, w ≤ 0xFFFF) {a : ℕ} (ha : a ≤ 0xFFFF) :
    ws.foldl onesAdd a ≤ 0xFFFF ∧ ws.foldl onesAdd a % 0xFFFF = (a + ws.sum) % 0xFFFF ∧
      (ws.foldl onesAdd a = 0 ↔ a + ws.sum = 0) := by
  induction ws generalizing a with
  | nil => exact ⟨ha, by simp, by simp⟩
  | cons w ws ih =>
    have hw := hws w (by simp)
    have hle : onesAdd a w ≤ 0xFFFF := by
      unfold onesAdd
      omega
    obtain ⟨h₁, h₂, h₃⟩ := ih (fun v hv => hws v (by simp [hv])) hle
    refine ⟨h₁, ?_, ?_⟩
    · rw [List.foldl_cons, h₂, List.sum_cons, onesAdd]
      omega
    · rw [List.foldl_cons, h₃, List.sum_cons, onesAdd]
      omega

/-- **The one's complement sum is the sum modulo `0xFFFF`**, with `0xFFFF` for zero unless all
words are zero. -/
theorem onesSum_eq {ws : List ℕ} (hws : ∀ w ∈ ws, w ≤ 0xFFFF) (hpos : 0 < ws.sum) :
    onesSum ws = (ws.sum - 1) % 0xFFFF + 1 := by
  obtain ⟨h₁, h₂, h₃⟩ := foldl_onesAdd hws (Nat.zero_le 0xFFFF)
  unfold onesSum
  omega

/-- The words of a list of bytes, the first byte of each the more significant one. -/
def words : List Byte → List ℕ
  | a :: b :: l => (a.toNat * 256 + b.toNat) :: words l
  | _ => []

/-- The words of the IP header of a datagram. -/
def headerWords (f : List Byte) : List ℕ := words (f.take 20)

/-! ## The seed -/

/-- The bytes of `header_bytes`. -/
def headerBytes (srcIp destIp : BitVec 32) : List Byte :=
  [0x45, 0, 0, 0, 0, 0, 0, 0, 0x80, 0x11, 0, 0,
    (srcIp >>> 24 &&& 0xFF).setWidth 8, (srcIp >>> 16 &&& 0xFF).setWidth 8,
    (srcIp >>> 8 &&& 0xFF).setWidth 8, (srcIp >>> 0 &&& 0xFF).setWidth 8,
    (destIp >>> 24 &&& 0xFF).setWidth 8, (destIp >>> 16 &&& 0xFF).setWidth 8,
    (destIp >>> 8 &&& 0xFF).setWidth 8, (destIp >>> 0 &&& 0xFF).setWidth 8]

/-- The loop that makes `header_words` of `header_bytes`. -/
def packWords : List Byte → List (BitVec 16)
  | a :: b :: l => (a.setWidth 16 <<< 8 ||| b.setWidth 16) :: packWords l
  | _ => []

/-- The body of the loop over `header_words`. -/
def addWord (seed : BitVec 32) (w : BitVec 16) : BitVec 32 :=
  if seed + w.setWidth 32 > 0xFFFF then ((seed + w.setWidth 32) &&& 0xFFFF) + 1
  else seed + w.setWidth 32

/-- The variable `seed` after the loop. -/
def seed (srcIp destIp : BitVec 32) : BitVec 32 :=
  (packWords (headerBytes srcIp destIp)).foldl addWord 0

/-- `calculate_checksum_seed`: the sum is cut to 16 bits. -/
def calculateChecksumSeed (srcIp destIp : BitVec 32) : BitVec 16 := (seed srcIp destIp).setWidth 16

theorem addWord_toNat {a : BitVec 32} (ha : a.toNat ≤ 0xFFFF) (w : BitVec 16) :
    (addWord a w).toNat = onesAdd a.toNat w.toNat := by
  have hw := w.isLt
  have hsum : (a + w.setWidth 32).toNat = a.toNat + w.toNat := by
    simp
    omega
  have hmask (x : BitVec 32) : (x &&& 0xFFFF).toNat = x.toNat % 0x10000 := by
    rw [BitVec.toNat_and]
    exact Nat.and_two_pow_sub_one_eq_mod _ 16
  unfold addWord onesAdd
  split
  · next h =>
    rw [gt_iff_lt, BitVec.lt_def, hsum] at h
    change 0xFFFF < _ at h
    change ((a + w.setWidth 32 &&& 0xFFFF) + 1#32).toNat = _
    rw [BitVec.toNat_add, hmask, hsum, BitVec.toNat_ofNat]
    omega
  · next h =>
    rw [gt_iff_lt, BitVec.lt_def, hsum] at h
    change ¬ 0xFFFF < _ at h
    rw [hsum]
    omega

theorem foldl_addWord {ws : List (BitVec 16)} {a : BitVec 32} (ha : a.toNat ≤ 0xFFFF) :
    (ws.foldl addWord a).toNat = (ws.map BitVec.toNat).foldl onesAdd a.toNat := by
  induction ws generalizing a with
  | nil => rfl
  | cons w ws ih =>
    have hle : (addWord a w).toNat ≤ 0xFFFF := by
      have hw := w.isLt
      rw [addWord_toNat ha, onesAdd]
      omega
    rw [List.foldl_cons, ih hle, addWord_toNat ha, List.map_cons, List.foldl_cons]

/-- The sum of the words of the addresses and of the constant words of the header. -/
def fixedSum (srcIp destIp : BitVec 32) : ℕ :=
  0xC511 + (srcIp.toNat / 0x10000 + srcIp.toNat % 0x10000 + destIp.toNat / 0x10000 +
    destIp.toNat % 0x10000)

theorem map_packWords (l : List Byte) : (packWords l).map BitVec.toNat = words l := by
  induction l using words.induct with
  | case1 a b l ih =>
    have ha := a.isLt
    have hb := b.isLt
    have hor : (a.setWidth 16 <<< 8 ||| b.setWidth 16).toNat = a.toNat * 256 + b.toNat := by
      rw [BitVec.toNat_or, BitVec.toNat_shiftLeft, BitVec.toNat_setWidth, BitVec.toNat_setWidth,
        Nat.mod_eq_of_lt (show a.toNat < 2 ^ 16 by omega),
        Nat.mod_eq_of_lt (show b.toNat < 2 ^ 16 by omega), Nat.shiftLeft_eq,
        Nat.mod_eq_of_lt (by omega), Nat.mul_comm, ← Nat.two_pow_add_eq_or_of_lt hb]
    rw [packWords, words, List.map_cons, ih, hor]
  | case2 l h =>
    cases l with
    | nil => rfl
    | cons a l =>
      cases l with
      | nil => rfl
      | cons b l => exact absurd rfl (h a b l)

theorem byte_toNat (x : BitVec 32) (k : ℕ) :
    ((x >>> k &&& 0xFF).setWidth 8).toNat = x.toNat / 2 ^ k % 256 := by
  have hmask : (x >>> k &&& 0xFF).toNat = (x >>> k).toNat % 256 := by
    rw [BitVec.toNat_and]
    exact Nat.and_two_pow_sub_one_eq_mod _ 8
  rw [BitVec.toNat_setWidth, hmask, BitVec.toNat_ushiftRight, Nat.shiftRight_eq_div_pow]
  omega

theorem words_headerBytes (srcIp destIp : BitVec 32) :
    words (headerBytes srcIp destIp) =
      [0x4500, 0, 0, 0, 0x8011, 0, srcIp.toNat / 0x10000, srcIp.toNat % 0x10000,
        destIp.toNat / 0x10000, destIp.toNat % 0x10000] := by
  have hs := srcIp.isLt
  have hd := destIp.isLt
  have hconst : (0x45 : Byte).toNat = 0x45 ∧ (0 : Byte).toNat = 0 ∧ (0x80 : Byte).toNat = 0x80 ∧
      (0x11 : Byte).toNat = 0x11 := by decide
  simp only [headerBytes, words, byte_toNat, hconst, List.cons.injEq, and_true]
  refine ⟨trivial, trivial, trivial, trivial, trivial, trivial, ?_, ?_, ?_, ?_⟩ <;> omega

/-- **The seed** is the one's complement sum of the words that do not depend on the payload, so
the assertion in `calculate_checksum_seed` holds. -/
theorem seed_toNat (srcIp destIp : BitVec 32) :
    (seed srcIp destIp).toNat = (fixedSum srcIp destIp - 1) % 0xFFFF + 1 := by
  have hs := srcIp.isLt
  have hd := destIp.isLt
  rw [seed, foldl_addWord (by decide), map_packWords, words_headerBytes]
  change onesSum _ = _
  rw [onesSum_eq]
  · simp [fixedSum]
    omega
  · simp
    omega
  · simp

/-! ## The header -/

/-- The total length can be added to the seed without a carry. -/
def NoCarry (srcIp destIp : BitVec 32) (n : ℕ) : Prop :=
  (fixedSum srcIp destIp - 1) % 0xFFFF + 1 + (n + 28) ≤ 0xFFFF

instance (srcIp destIp : BitVec 32) (n : ℕ) : Decidable (NoCarry srcIp destIp n) :=
  inferInstanceAs (Decidable (_ ≤ _))

theorem words_ipHeader (cfg : Config) (n : ℕ) : words (ipHeader cfg n) =
    [0x4500, (ipLength n).toNat, 0, 0, 0x8011, (ipChecksum cfg n).toNat,
      cfg.srcAddress.toNat / 0x10000, cfg.srcAddress.toNat % 0x10000,
      cfg.destinationAddress.toNat / 0x10000, cfg.destinationAddress.toNat % 0x10000] := by
  have hs := cfg.srcAddress.isLt
  have hd := cfg.destinationAddress.isLt
  have hl := (ipLength n).isLt
  have hc := (ipChecksum cfg n).isLt
  have hconst : (0x45 : Byte).toNat = 0x45 ∧ (0 : Byte).toNat = 0 ∧ (0x80 : Byte).toNat = 0x80 ∧
      (0x11 : Byte).toNat = 0x11 := by decide
  simp only [ipHeader, bytes16, bytes32, List.cons_append, List.nil_append, words,
    BitVec.extractLsb'_toNat, Nat.shiftRight_eq_div_pow, hconst, List.cons.injEq, and_true]
  refine ⟨trivial, ?_, trivial, trivial, trivial, ?_, ?_, ?_, ?_, ?_⟩ <;> omega

/-- **The header is valid exactly when the circuit's addition has no carry.** -/
theorem onesSum_ipHeader_iff (cfg : Config)
    (hseed : cfg.ipChecksumInit = calculateChecksumSeed cfg.srcAddress cfg.destinationAddress)
    {n : ℕ} (hn : n ≤ 1472) : onesSum (words (ipHeader cfg n)) = 0xFFFF ↔
      NoCarry cfg.srcAddress cfg.destinationAddress n := by
  have hs := cfg.srcAddress.isLt
  have hd := cfg.destinationAddress.isLt
  have hl : (ipLength n).toNat = n + 28 := by
    rw [ipLength, BitVec.toNat_ofNat]
    omega
  have hinit : cfg.ipChecksumInit.toNat =
      (fixedSum cfg.srcAddress cfg.destinationAddress - 1) % 0xFFFF + 1 := by
    rw [hseed, calculateChecksumSeed, BitVec.toNat_setWidth, seed_toNat]
    omega
  have hc : (ipChecksum cfg n).toNat =
      0xFFFF - (cfg.ipChecksumInit.toNat + (n + 28)) % 0x10000 := by
    rw [ipChecksum, BitVec.toNat_not, BitVec.toNat_add, hl]
  rw [words_ipHeader, onesSum_eq]
  · rw [hl, hc]
    unfold NoCarry
    rw [hinit]
    simp [fixedSum]
    omega
  · simp
    omega
  · simp

end RmiiEthernet.Udp

namespace RmiiEthernet.UdpFramer

open Sync EthernetFcs Udp

/-- **The header checksum that is sent.** When the driver has set the seed for the configured
addresses, its assertion has held, and in every run every packet that has been taken is the datagram
of one of the payloads; its header sums up to `0xFFFF` exactly when the total length can be added
to the seed without a carry. -/
theorem onesSum_headerWords_taken_iff (cfg : Config)
    (hseed : cfg.ipChecksumInit = calculateChecksumSeed cfg.srcAddress cfg.destinationAddress)
    {s : State} {is : List Inputs} (h : AfterReset s) (hsteady : Always step (Steady cfg) s is)
    (hlen : ∀ q ∈ packets (collect step accepted s is), 1 ≤ q.length ∧ q.length ≤ 1472) :
    seed cfg.srcAddress cfg.destinationAddress ≤ 0xFFFF ∧
      ∀ f ∈ packets (collect step taken s is),
        ∃ q ∈ packets (collect step accepted s is), f = datagram cfg q ∧
          (onesSum (headerWords f) = 0xFFFF ↔
            NoCarry cfg.srcAddress cfg.destinationAddress q.length) := by
  refine ⟨?_, fun f hf => ?_⟩
  · rw [BitVec.le_def, seed_toNat]
    change _ ≤ 0xFFFF
    omega
  · have hcut := packets_taken_prefix h hsteady fun q hq => (hlen q hq).2.trans (by decide)
    obtain ⟨q, hq, rfl⟩ := List.mem_map.mp (hcut.subset hf)
    have hheader : headerWords (datagram cfg q) = words (ipHeader cfg q.length) := rfl
    exact ⟨q, hq, rfl, by rw [hheader, onesSum_ipHeader_iff cfg hseed (hlen q hq).2]⟩

/-- The configuration of a sender that uses the seed of its addresses. -/
def seeded (srcIp destIp : BitVec 32) : Config :=
  ⟨1000, 2000, srcIp, destIp, calculateChecksumSeed srcIp destIp⟩

/-- A payload of one byte, and time to send it. -/
def oneByteRun (cfg : Config) : List Inputs :=
  ⟨false, true, cfg.sourcePort, cfg.destinationPort, cfg.srcAddress, cfg.destinationAddress,
    cfg.ipChecksumInit, 0xAA, true, true, true⟩ ::
  List.replicate 40 ⟨false, true, cfg.sourcePort, cfg.destinationPort, cfg.srcAddress,
    cfg.destinationAddress, cfg.ipChecksumInit, 0, false, false, true⟩

/-- From `192.168.0.44` to `192.168.0.4`, the addresses of the test bench, there is no carry. -/
theorem onesSum_headerWords_taken_testbench :
    let cfg := seeded 0xC0A8002C 0xC0A80004
    datagram cfg [0xAA] ∈ packets (collect step taken cleared (oneByteRun cfg)) ∧
      onesSum (headerWords (datagram cfg [0xAA])) = 0xFFFF := by
  intro cfg
  have hmem : datagram cfg [0xAA] ∈ packets (collect step taken cleared (oneByteRun cfg)) := by
    decide +kernel
  obtain ⟨q, hq, -, hiff⟩ := (onesSum_headerWords_taken_iff cfg rfl cleared_afterReset
    (by decide +kernel) (by decide +kernel)).2 _ hmem
  have hone : packets (collect step accepted cleared (oneByteRun cfg)) = [[0xAA]] := by
    decide +kernel
  rw [hone, List.mem_singleton] at hq
  exact ⟨hmem, hiff.mpr (by rw [hq]; decide +kernel)⟩

/-- **The header of a datagram from `192.168.0.44` to `192.168.185.112` is not valid**: the seed of
these addresses is `0xFFFF`, and the addition of the total length has a carry. -/
theorem not_onesSum_headerWords_taken :
    let cfg := seeded 0xC0A8002C 0xC0A8B970
    AfterReset cleared ∧ Always step (Steady cfg) cleared (oneByteRun cfg) ∧
      packets (collect step accepted cleared (oneByteRun cfg)) = [[0xAA]] ∧
      ∃ f ∈ packets (collect step taken cleared (oneByteRun cfg)),
        onesSum (headerWords f) ≠ 0xFFFF :=
  ⟨cleared_afterReset, by decide +kernel, by decide +kernel,
    ⟨datagram (seeded 0xC0A8002C 0xC0A8B970) [0xAA], by decide +kernel, by decide +kernel⟩⟩

end RmiiEthernet.UdpFramer
