import RmiiEthernet.Ethernet.Fcs

/-!
# The frame check sequence on its own

Whole runs of `ethernet_fcs`: a reset, the bytes of a message with `valid_in` and `en_calc_in`, and
for a generator more cycles with `valid_in` only, in which the check sequence is shifted out. Idle
cycles may stand anywhere.

* `Shows`: the output register is the byte at the top of the CRC register. Every cycle but a reset
  keeps this, so what can be read while the register is shifted out is `outBytes` of it.
* `generator_outputs` is the generator, `verifyOut_iff_generated` the check against it.
-/

namespace RmiiEthernet.EthernetFcs

open Sync

/-! ## The phases of a run -/

/-- A reset that loads all ones, from the port `init_val_in` if that is the one in use. -/
def Restarts (gUserInitValPort : Bool) (i : Inputs) : Prop :=
  i.reset = true ∧ (gUserInitValPort = true → i.initValIn = crcInitVal)

/-- The cycles feed the message `m`. -/
structure Feeding (is : List Inputs) (m : List Byte) : Prop where
  feed : ∀ i ∈ is, i.reset = false ∧ (i.validIn = true → i.enCalcIn = true)
  data : (is.filter (·.validIn)).map (·.dataIn) = m

/-- The cycles shift out `k` bytes. -/
structure Shifting (is : List Inputs) (k : ℕ) : Prop where
  shift : ∀ i ∈ is, i.reset = false ∧ (i.validIn = true → i.enCalcIn = false)
  count : is.countP (·.validIn) = k

/-- The byte a reader takes in a cycle in which one is shifted out. -/
def readOut (s : State) (i : Inputs) : List Byte := if i.validIn then [s.fcsByte] else []

/-- The byte at the top of the register, as `fcs_byte` has it. -/
def topByte (c : BitVec 32) : Byte := ~~~(c.extractLsb' 24 8).reverse

/-- The output register is the byte at the top. -/
def Shows (s : State) : Prop := s.fcsByte = topByte s.crcReg

section Cycle

variable {g : Bool} {s : State} {i : Inputs} {is : List Inputs} {m : List Byte} {k : ℕ}

theorem crcReg_restart (h : Restarts g i) : (step g s i).crcReg = circuitRegister [] := by
  rw [circuitRegister_nil]
  cases g with
  | false => simp [step, h.1]
  | true => simp [step, h.1, h.2 rfl]

theorem shows_calc (hreset : i.reset = false) (hv : i.validIn = true) (he : i.enCalcIn = true) :
    Shows (step g s i) := by
  simp [Shows, topByte, step, hreset, hv, he]

theorem step_shift (hreset : i.reset = false) (hv : i.validIn = true) (he : i.enCalcIn = false) :
    (step g s i).crcReg = shiftOut s.crcReg ∧ Shows (step g s i) := by
  have htop : (shiftOut s.crcReg).extractLsb' 24 8 = s.crcReg.extractLsb' 16 8 :=
    shiftOut_extract s.crcReg (a := 16) (by omega)
  constructor
  · simp [step, hreset, hv, he]
  · simp [Shows, topByte, step, hreset, hv, he, htop]

theorem step_idle (hreset : i.reset = false) (hv : i.validIn = false) : step g s i = s := by
  simp [step, hreset, hv]

theorem feeding_idle_cons (hv : i.validIn = false) (h : Feeding (i :: is) m) : Feeding is m := by
  refine ⟨fun j hj => h.feed j (List.mem_cons_of_mem _ hj), ?_⟩
  rw [← h.data, List.filter_cons_of_neg (by simp [hv])]

theorem feeding_valid_cons (hv : i.validIn = true) (h : Feeding (i :: is) m) :
    ∃ m', m = i.dataIn :: m' ∧ Feeding is m' := by
  refine ⟨_, ?_, fun j hj => h.feed j (List.mem_cons_of_mem _ hj), rfl⟩
  rw [← h.data, List.filter_cons_of_pos hv, List.map_cons]

/-- **A message goes into the register**, and the first byte of the check sequence is shown. -/
theorem run_feeding {q : List Byte} (h : Feeding is m) (hs : s.crcReg = circuitRegister q) :
    (run (step g) s is).crcReg = circuitRegister (q ++ m) ∧
      (Shows s ∨ m ≠ [] → Shows (run (step g) s is)) := by
  induction is generalizing s q m with
  | nil =>
    have hm : m = [] := by simpa using h.data.symm
    simp [hm, hs]
  | cons i is ih =>
    have hi := h.feed i List.mem_cons_self
    cases hv : i.validIn with
    | false =>
      rw [run_cons, step_idle hi.1 hv]
      exact ih (feeding_idle_cons hv h) hs
    | true =>
      obtain ⟨m', rfl, h'⟩ := feeding_valid_cons hv h
      have hnext : (step g s i).crcReg = circuitRegister (q ++ [i.dataIn]) := by
        rw [← crcNext_circuitRegister hs]
        simp [step, hi.1, hv, hi.2 hv]
      obtain ⟨hreg, hshows⟩ := ih h' hnext
      rw [List.append_assoc, List.singleton_append] at hreg
      exact ⟨hreg, fun _ => hshows (.inl (shows_calc hi.1 hv (hi.2 hv)))⟩

theorem shifting_idle_cons (hv : i.validIn = false) (h : Shifting (i :: is) k) :
    Shifting is k := by
  refine ⟨fun j hj => h.shift j (List.mem_cons_of_mem _ hj), ?_⟩
  rw [← h.count, List.countP_cons_of_neg (by simp [hv])]

theorem shifting_valid_cons (hv : i.validIn = true) (h : Shifting (i :: is) k) :
    ∃ n, k = n + 1 ∧ Shifting is n := by
  refine ⟨_, ?_, fun j hj => h.shift j (List.mem_cons_of_mem _ hj), rfl⟩
  rw [← h.count, List.countP_cons_of_pos hv]

/-- The register after `k` bytes have been shifted out. -/
theorem run_shifting (h : Shifting is k) (hs : Shows s) :
    (run (step g) s is).crcReg = shiftOut^[k] s.crcReg ∧ Shows (run (step g) s is) := by
  induction is generalizing s k with
  | nil =>
    have hk : k = 0 := by simpa using h.count.symm
    simp [hk, hs]
  | cons i is ih =>
    have hi := h.shift i List.mem_cons_self
    cases hv : i.validIn with
    | false =>
      rw [run_cons, step_idle hi.1 hv]
      exact ih (shifting_idle_cons hv h) hs
    | true =>
      obtain ⟨n, rfl, h'⟩ := shifting_valid_cons hv h
      obtain ⟨hreg, hshows⟩ := step_shift (g := g) (s := s) hi.1 hv (hi.2 hv)
      have hrun := ih h' hshows
      rw [hreg] at hrun
      exact hrun

/-- What is read while the register is shifted out. -/
theorem collect_readOut (h : Shifting is k) (hs : Shows s) :
    collect (step g) readOut s is = outBytes s.crcReg k := by
  induction is generalizing s k with
  | nil =>
    have hk : k = 0 := by simpa using h.count.symm
    simp [hk, outBytes]
  | cons i is ih =>
    have hi := h.shift i List.mem_cons_self
    cases hv : i.validIn with
    | false =>
      rw [collect_cons, step_idle hi.1 hv, ih (shifting_idle_cons hv h) hs]
      simp [readOut, hv]
    | true =>
      obtain ⟨n, rfl, h'⟩ := shifting_valid_cons hv h
      obtain ⟨hreg, hshows⟩ := step_shift (g := g) (s := s) hi.1 hv (hi.2 hv)
      rw [collect_cons, ih h' hshows, hreg, readOut, if_pos hv, hs]
      rfl

end Cycle

theorem getElem?_outBytes (c : BitVec 32) {k n : ℕ} (hk : k < n) :
    (outBytes c n)[k]? = some (topByte (shiftOut^[k] c)) := by
  induction n generalizing c k with
  | zero => omega
  | succ n ih =>
    cases k with
    | zero => rfl
    | succ k =>
      rw [outBytes, List.getElem?_cons_succ, ih _ (by omega), Function.iterate_succ_apply]

/-- `calc_crc32` is eight steps of the register that shifts to the left. -/
theorem calcCrc32_eq_lfsr (d : Byte) (c : BitVec 32) :
    calcCrc32 d.reverse c = (byteBits d).foldl (lfsrStep 0x04C11DB7) c := by
  have hpoly : polynomial.reverse = 0x04C11DB7 := by decide +kernel
  rw [calcCrc32_eq, reverse_crcBits, BitVec.reverse_reverse_eq, hpoly]

/-! ## The generator and the check -/

section Runs

variable {g g' : Bool} {s s' : State} {r r' : Inputs} {is js ks : List Inputs} {m f : List Byte}

theorem run_restart_feeding (hr : Restarts g r) (his : Feeding is m) :
    (run (step g) s (r :: is)).crcReg = circuitRegister m ∧
      (m ≠ [] → Shows (run (step g) s (r :: is))) := by
  obtain ⟨hreg, hshows⟩ := run_feeding (g := g) his (crcReg_restart (s := s) hr)
  exact ⟨hreg, fun hm => hshows (.inr hm)⟩

/-- **The generator.** After a reset and a message, the output is the first byte of the CRC-32 of
the message, and after `k` more cycles with `valid_in` only it is byte `k` of it; a byte goes into
the register as its eight bits would. -/
theorem generator_outputs {k : ℕ} (s : State) (hr : Restarts g r) (hm : m ≠ [])
    (his : Feeding is m) (hjs : Shifting js k) (hk : k < 4) :
    (fcsBytes m)[k]? = some (run (step g) s (r :: is ++ js)).fcsByte ∧
      ∀ (d : Byte) (c : BitVec 32),
        calcCrc32 d.reverse c = (byteBits d).foldl (lfsrStep 0x04C11DB7) c := by
  refine ⟨?_, calcCrc32_eq_lfsr⟩
  obtain ⟨hreg, hshows⟩ := run_restart_feeding (s := s) hr his
  obtain ⟨hshifted, hshown⟩ := run_shifting (g := g) hjs (hshows hm)
  rw [run_append, hshown, hshifted, hreg, ← outBytes_circuitRegister, getElem?_outBytes _ hk]

/-- The message 31 with an idle cycle before and after it, and two bytes shifted out. -/
theorem generator_outputs_one :
    let is : List Inputs := [⟨false, 0, 0, false, true⟩, ⟨false, 0, 0x31, true, true⟩,
      ⟨false, 0, 0, false, false⟩]
    let js : List Inputs := [⟨false, 0, 0, true, false⟩, ⟨false, 0, 0, true, false⟩]
    (fcsBytes [0x31])[2]? =
      some (run (step false) ⟨0, 0⟩ (⟨true, 0, 0, false, false⟩ :: is ++ js)).fcsByte := by
  intro is js
  have his : Feeding is [0x31] := ⟨by decide, rfl⟩
  have hjs : Shifting js 2 := ⟨by decide, rfl⟩
  exact (generator_outputs (g := false) ⟨0, 0⟩ ⟨rfl, nofun⟩ (List.cons_ne_nil _ _) his hjs
    (by decide)).1

/-- What a reader takes from the generator. -/
theorem collect_generated (hr : Restarts g r) (hm : m ≠ []) (his : Feeding is m)
    (hks : Shifting ks 4) :
    collect (step g) readOut (run (step g) s (r :: is)) ks = fcsBytes m := by
  obtain ⟨hreg, hshows⟩ := run_restart_feeding (s := s) hr his
  rw [collect_readOut hks (hshows hm), hreg, outBytes_circuitRegister]

/-- **The check is exact.** After a reset, a message and four more bytes, `verify_out` is set if and
only if the four bytes are those that a generator, fed with the message, gives to its reader. -/
theorem verifyOut_iff_generated (s s' : State) (hr : Restarts g r) (his : Feeding is (m ++ f))
    (hm : m ≠ []) (hf : f.length = 4) (hr' : Restarts g' r') (hjs : Feeding js m)
    (hks : Shifting ks 4) :
    verifyOut (run (step g) s (r :: is)) = true ↔
      f = collect (step g') readOut (run (step g') s' (r' :: js)) ks := by
  have hreg := (run_restart_feeding (s := s) hr his).1
  rw [collect_generated hr' hm hjs hks, ← verify_iff m f hf, ← hreg, verifyOut, beq_iff_eq]

/-- The message 31 and its check sequence B7 EF DC 83. -/
theorem verifyOut_iff_generated_one :
    let feed (d : Byte) : Inputs := ⟨false, 0, d, true, true⟩
    let restart : Inputs := ⟨true, 0, 0, false, false⟩
    let shift : Inputs := ⟨false, 0, 0, true, false⟩
    verifyOut (run (step false) ⟨0, 0⟩
        (restart :: [0x31, 0xB7, 0xEF, 0xDC, 0x83].map feed)) = true ↔
      [0xB7, 0xEF, 0xDC, 0x83] = collect (step false) readOut
        (run (step false) ⟨0, 0⟩ [restart, feed 0x31]) [shift, shift, shift, shift] :=
  verifyOut_iff_generated (g := false) (m := [0x31]) ⟨0, 0⟩ ⟨0, 0⟩ ⟨rfl, nofun⟩
    ⟨by decide, rfl⟩ (List.cons_ne_nil _ _) rfl ⟨rfl, nofun⟩ ⟨by decide, rfl⟩ ⟨by decide, rfl⟩

end Runs

end RmiiEthernet.EthernetFcs
