import RmiiEthernet.Apb.Lanes
import RmiiEthernet.Apb.Words
import RmiiEthernet.Sync.Run

/-!
# Addresses without a register

The bridge selects a slave, and each slave a register, by as many bits of the address as
`log2_ceil` gives for their number. If the number is no power of two, an address can select more
than there are; and the bits above them are not looked at, so that an address beyond the registers
selects one of them. A host is confined to the registers there are (`Confined`) exactly if no
address is left (`confined_iff`).

The host needs one word to select a slave and a register (`exists_addressed`), and one more to write
(`exists_writing`).
-/

namespace RmiiEthernet.UartApbBridge

open Sync Utils Apb ComponentRegisterBlock RegisterMap

variable {N p : ℕ} {n : Fin N → ℕ} {x : System N (log2Ceil p) n} {i : Rx} {j : Fin N}

/-- In this state the selected slave and registers exist, and a write beyond the registers of a
slave is none. -/
structure Confined (x : System N (log2Ceil p) n) : Prop where
  slaveSelInt : slaveSelInt x.bridge < N
  regSelectInt : ∀ j, regSelectInt (n j) (x.bridge.masters j).apbCmdOut < n j
  writes : ∀ j, n j ≤ (x.bridge.masters j).apbCmdOut.paddr.toNat →
    writes (x.bridge.masters j).apbCmdOut = true → ∀ i,
      registers (systemStep x i) j = registers x j ∧
        ∀ k, ((systemStep x i).slaves j).regWenOut k = false

/-- The address word of a write selects this slave. -/
def Writable (N j : ℕ) : Prop :=
  ∃ a : BitVec 32, a.getLsbD 31 = true ∧ (a.extractLsb' 8 (log2Ceil N)).toNat = j

/-! ## What the host can do -/

/-- A byte is received, or none is. -/
def byteIn (b : BitVec 8) : Rx := ⟨false, b, true⟩

/-- A cycle without a byte. -/
def quiet : Rx := ⟨false, 0, false⟩

/-- The state machine waits in `f` for a word of which the bytes `d` are there, or the whole word if
`v` is set; no lane works. -/
structure Collects (x : System N (log2Ceil p) n) (f : FsmState) (d : List (BitVec 8)) (v : Bool) :
    Prop where
  assembles : Assembles x.bridge d
  rxValid : x.bridge.rxValid = v
  fsmState : x.bridge.fsmState = f
  rests : ∀ j, Rests x j
  slaveDoRead : ∀ j, x.bridge.slaveDoRead j = false
  slaveDoWrite : ∀ j, x.bridge.slaveDoWrite j = false

/-- The address that has been taken. -/
structure Holds (x : System N (log2Ceil p) n) (a : BitVec 32) : Prop where
  isWriteOpR : x.bridge.isWriteOpR = a.getLsbD 31
  slaveAddrR : x.bridge.slaveAddrR = a.extractLsb' 0 8
  activeSlaveR : x.bridge.activeSlaveR = (a.extractLsb' 8 (log2Ceil N)).toNat

theorem collects_powerUp (h : SystemPowerUp x) : Collects x .idle [] false where
  assembles := ⟨h.bridge.rxCounterU, by simp, nofun⟩
  rxValid := h.bridge.rxValid
  fsmState := h.bridge.fsmState
  rests j := ⟨h.bridge.apbMasterState j, h.bridge.psel j, h.bridge.slaveResponsePending j,
    (h.slaves j).pready, (h.slaves j).preadyR, (h.slaves j).regRenSig, (h.slaves j).regWenOut⟩
  slaveDoRead := h.bridge.slaveDoRead
  slaveDoWrite := h.bridge.slaveDoWrite

theorem Holds.step {a : BitVec 32} (h : Holds x a) (htakes : takesAddress x.bridge = false) :
    Holds (systemStep x i) a ∧ Addressed (systemStep x i) (a.extractLsb' 0 8) := by
  refine ⟨⟨?_, ?_, ?_⟩, addressed_step h.slaveAddrR htakes⟩
  · simp [systemStep, UartApbBridge.step, htakes, h.isWriteOpR]
  · simp [systemStep, UartApbBridge.step, htakes, h.slaveAddrR]
  · simp [systemStep, UartApbBridge.step, htakes, h.activeSlaveR]

/-- A byte of a word that is waited for. -/
theorem Collects.byte {f : FsmState} {d : List (BitVec 8)} (h : Collects x f d false)
    (hf : f = .idle ∨ f = .waitForWriteData) {b : BitVec 8} {d' : List (BitVec 8)} {v : Bool}
    (hassembles : Assembles (systemStep x (byteIn b)).bridge d')
    (hrx : (systemStep x (byteIn b)).bridge.rxValid = v) :
    Collects (systemStep x (byteIn b)) f d' v ∧
      ∀ a, Holds x a → Holds (systemStep x (byteIn b)) a := by
  have hstarts : startsRead x.bridge = false := by
    rcases hf with rfl | rfl <;> simp [startsRead, h.fsmState]
  have htakesData : takesData x.bridge = false := by simp [takesData, h.rxValid]
  have htakes : takesAddress x.bridge = false := by simp [takesAddress, h.rxValid]
  refine ⟨⟨hassembles, hrx, ?_,
    fun j => (h.rests j).step rfl (h.slaveDoRead j) (h.slaveDoWrite j), fun j => ?_, fun j => ?_⟩,
    fun a ha => (ha.step htakes).1⟩
  · rcases hf with rfl | rfl <;>
      simp [systemStep, UartApbBridge.step, byteIn, advance, h.fsmState, h.rxValid]
  · simp [systemStep, UartApbBridge.step, hstarts]
  · simp [systemStep, UartApbBridge.step, htakesData]

/-- **A word** is received. -/
theorem Collects.word {f : FsmState} (h : Collects x f [] false)
    (hf : f = .idle ∨ f = .waitForWriteData) (w : BitVec 32) :
    Collects (run systemStep x ((bytesOf w).map byteIn)) f [] true ∧
      (run systemStep x ((bytesOf w).map byteIn)).bridge.rxBuffer = w ∧
      ∀ a, Holds x a → Holds (run systemStep x ((bytesOf w).map byteIn)) a := by
  have hmore {x : System N (log2Ceil p) n} {d : List (BitVec 8)} (h : Collects x f d false)
      (hd : d.length < 3) (b : BitVec 8) : Collects (systemStep x (byteIn b)) f (d ++ [b]) false ∧
        ∀ a, Holds x a → Holds (systemStep x (byteIn b)) a := by
    obtain ⟨hassembles, hrx⟩ := h.assembles.byte
      (i := ⟨byteIn b, fun j => apbRspOut (x.slaves j)⟩) rfl rfl hd
    exact h.byte hf hassembles hrx
  obtain ⟨h₁, ha₁⟩ := hmore h (by simp) (byteOf w 0)
  obtain ⟨h₂, ha₂⟩ := hmore h₁ (by simp) (byteOf w 1)
  obtain ⟨h₃, ha₃⟩ := hmore h₂ (by simp) (byteOf w 2)
  obtain ⟨hassembles, hrx, hbuffer⟩ := h₃.assembles.last
    (i := ⟨byteIn (byteOf w 3), fun j => apbRspOut (Sync.run systemStep x
      [byteIn (byteOf w 0), byteIn (byteOf w 1), byteIn (byteOf w 2)] |>.slaves j)⟩) rfl rfl
  obtain ⟨h₄, ha₄⟩ := h₃.byte hf hassembles hrx
  exact ⟨h₄, hbuffer.trans (word_byteOf w), fun a ha => ha₄ a (ha₃ a (ha₂ a (ha₁ a ha)))⟩

/-- The address is taken. -/
theorem Collects.start {a : BitVec 32} (h : Collects x .idle [] true)
    (ha : x.bridge.rxBuffer = a) :
    Collects (systemStep x quiet) .start [] false ∧ Holds (systemStep x quiet) a := by
  have htakes : takesAddress x.bridge = true := by simp [takesAddress, h.fsmState, h.rxValid]
  obtain ⟨hassembles, hrx⟩ := h.assembles.wait
    (i := ⟨quiet, fun j => apbRspOut (x.slaves j)⟩) rfl rfl
  refine ⟨⟨hassembles, hrx, ?_,
    fun j => (h.rests j).step rfl (h.slaveDoRead j) (h.slaveDoWrite j), fun j => ?_, fun j => ?_⟩,
    ?_, ?_, ?_⟩
  · simp [systemStep, UartApbBridge.step, quiet, advance, h.fsmState, h.rxValid]
  · simp [systemStep, UartApbBridge.step, startsRead, h.fsmState]
  · simp [systemStep, UartApbBridge.step, takesData, h.fsmState]
  · simp [systemStep, UartApbBridge.step, htakes, ha]
  · simp [systemStep, UartApbBridge.step, htakes, ha]
  · simp [systemStep, UartApbBridge.step, htakes, slaveSelInt, ha]

/-- The data of a write are waited for. -/
theorem Collects.waitForWriteData {a : BitVec 32} (h : Collects x .start [] false)
    (ha : Holds x a) (hwrite : a.getLsbD 31 = true) :
    Collects (systemStep x quiet) .waitForWriteData [] false := by
  have hstarts : startsRead x.bridge = false := by simp [startsRead, ha.isWriteOpR, hwrite]
  obtain ⟨hassembles, hrx⟩ := h.assembles.wait
    (i := ⟨quiet, fun j => apbRspOut (x.slaves j)⟩) rfl rfl
  refine ⟨hassembles, hrx, ?_,
    fun j => (h.rests j).step rfl (h.slaveDoRead j) (h.slaveDoWrite j), fun j => ?_, fun j => ?_⟩
  · simp [systemStep, UartApbBridge.step, quiet, advance, h.fsmState, ha.isWriteOpR, hwrite]
  · simp [systemStep, UartApbBridge.step, hstarts]
  · simp [systemStep, UartApbBridge.step, takesData, h.fsmState]

/-- While the response is waited for no master is asked. -/
theorem not_asked_step (h : x.bridge.fsmState = .waitForResponse) :
    (systemStep x i).bridge.slaveDoRead j = false ∧
      (systemStep x i).bridge.slaveDoWrite j = false := by
  constructor
  · simp [systemStep, UartApbBridge.step, startsRead, h]
  · simp [systemStep, UartApbBridge.step, takesData, h]

theorem takesAddress_quiet : takesAddress (systemStep x quiet).bridge = false := by
  simp [takesAddress, systemStep, UartApbBridge.step, quiet]

/-- The data are taken, and the master of slave `j` is asked to write. -/
theorem Collects.writing {a : BitVec 32} {q : Fin (n j)} (h : Collects x .waitForWriteData [] true)
    (ha : Holds x a) (hj : (a.extractLsb' 8 (log2Ceil N)).toNat = j.val)
    (hq : Selects (n j) (a.extractLsb' 0 8) q) :
    ∃ d, Writing (run systemStep x [quiet, quiet, quiet]) j 1 q d ∧
      Addressed (run systemStep x [quiet, quiet, quiet]) (a.extractLsb' 0 8) := by
  have htakesData : takesData x.bridge = true := by simp [takesData, h.fsmState, h.rxValid]
  have htakes : takesAddress x.bridge = false := by simp [takesAddress, h.fsmState]
  obtain ⟨ha₁, haddr₁⟩ := ha.step htakes (i := quiet)
  have hfsm₁ : (systemStep x quiet).bridge.fsmState = .waitForResponse := by
    simp [systemStep, UartApbBridge.step, quiet, advance, h.fsmState, h.rxValid]
  have hrests₁ : Rests (systemStep x quiet) j :=
    (h.rests j).step rfl (h.slaveDoRead j) (h.slaveDoWrite j)
  have hread₁ : (systemStep x quiet).bridge.slaveDoRead j = false := by
    simp [systemStep, UartApbBridge.step, startsRead, h.fsmState]
  have hwrite₁ : (systemStep x quiet).bridge.slaveDoWrite j = true := by
    simp [systemStep, UartApbBridge.step, htakesData, ha.activeSlaveR, hj]
  have hwriting := writing_zero (i := quiet) hrests₁ haddr₁ hq rfl hread₁ hwrite₁ rfl
  obtain ⟨ha₂, haddr₂⟩ := ha₁.step takesAddress_quiet (i := quiet)
  obtain ⟨hread₂, hwrite₂⟩ := not_asked_step hfsm₁ (i := quiet) (j := j)
  obtain ⟨hwriting', -⟩ := hwriting.step (by decide) haddr₂ hq rfl hread₂ hwrite₂ (i := quiet)
  exact ⟨_, hwriting', (ha₂.step takesAddress_quiet).2⟩

/-- Any word can be in the buffer. -/
theorem exists_selected (hx : SystemPowerUp x) (a : BitVec 32) :
    ∃ is, (run systemStep x is).bridge.rxBuffer = a := by
  obtain ⟨-, hbuffer, -⟩ := (collects_powerUp hx).word (.inl rfl) a
  exact ⟨_, hbuffer⟩

/-- Any register address can be on the buses. -/
theorem exists_addressed (hx : SystemPowerUp x) (a : BitVec 32) :
    ∃ is, Addressed (run systemStep x is) (a.extractLsb' 0 8) := by
  obtain ⟨h, hbuffer, -⟩ := (collects_powerUp hx).word (.inl rfl) a
  obtain ⟨h', ha⟩ := h.start hbuffer
  have htakes : takesAddress (systemStep (run systemStep x ((bytesOf a).map byteIn)) quiet).bridge =
      false := by
    simp [takesAddress, h'.fsmState]
  refine ⟨(bytesOf a).map byteIn ++ [quiet, quiet], ?_⟩
  rw [run_append]
  exact (ha.step htakes).2

/-- Any register address can be written to, with any slave that a write can select. -/
theorem exists_writing (hx : SystemPowerUp x) {a : BitVec 32} {q : Fin (n j)}
    (hwrite : a.getLsbD 31 = true)
    (hj : (a.extractLsb' 8 (log2Ceil N)).toNat = j.val)
    (hq : Selects (n j) (a.extractLsb' 0 8) q) :
    ∃ is d, Writing (run systemStep x is) j 1 q d ∧
      Addressed (run systemStep x is) (a.extractLsb' 0 8) := by
  obtain ⟨h, hbuffer, -⟩ := (collects_powerUp hx).word (.inl rfl) a
  obtain ⟨h₁, ha₁⟩ := h.start hbuffer
  have h₂ := h₁.waitForWriteData ha₁ hwrite
  have htakes : takesAddress (systemStep (run systemStep x ((bytesOf a).map byteIn)) quiet).bridge =
      false := by
    simp [takesAddress, h₁.fsmState]
  obtain ⟨h₃, -, ha₃⟩ := h₂.word (.inr rfl) 0
  obtain ⟨d, hwriting, haddr⟩ := h₃.writing (ha₃ a (ha₁.step htakes).1) hj hq
  refine ⟨(bytesOf a).map byteIn ++ ([quiet, quiet] ++
    ((bytesOf 0).map byteIn ++ [quiet, quiet, quiet])), d, ?_⟩
  rw [run_append, run_append, run_append]
  exact ⟨hwriting, haddr⟩

/-! ## What it cannot do -/

/-- A write to a slave is one that selects it. -/
structure Written (x : System N (log2Ceil p) n) : Prop where
  isWriteOpR : x.bridge.fsmState ≠ .idle → x.bridge.isWriteOpR = true →
    Writable N x.bridge.activeSlaveR
  fsmState : x.bridge.fsmState = .waitForWriteData → x.bridge.isWriteOpR = true
  slaveDoWrite : ∀ j, x.bridge.slaveDoWrite j = true → Writable N j.val
  psel : ∀ j, (control x j).psel = true → (control x j).pwrite = true → Writable N j.val

theorem written_powerUp (hx : SystemPowerUp x) : Written x where
  isWriteOpR h := absurd hx.bridge.fsmState h
  fsmState h := by simp [hx.bridge.fsmState] at h
  slaveDoWrite j h := by simp [hx.bridge.slaveDoWrite j] at h
  psel j h := by simp [control, hx.bridge.psel j] at h

/-- The data of a write are waited for after its address. -/
theorem fsmState_before_data (hfsm : (systemStep x i).bridge.fsmState = .waitForWriteData) :
    (x.bridge.fsmState = .start ∧ x.bridge.isWriteOpR = true) ∨
      x.bridge.fsmState = .waitForWriteData := by
  have hadvance : advance x.bridge = .waitForWriteData := by
    simp only [systemStep, UartApbBridge.step] at hfsm
    split at hfsm
    · cases hfsm
    · exact hfsm
  unfold advance at hadvance
  split at hadvance
  · split at hadvance <;> cases hadvance
  · next hstart =>
    refine .inl ⟨hstart, ?_⟩
    by_contra hne
    simp [hne] at hadvance
  · next hwait => exact .inr hwait
  · split at hadvance <;> cases hadvance

/-- A write on the bus of a slave is one that its master has been asked for. -/
theorem asked_before_write (hpsel : (control (systemStep x i) j).psel = true)
    (hwrite : (control (systemStep x i) j).pwrite = true) :
    x.bridge.slaveDoWrite j = true ∨
      (control x j).psel = true ∧ (control x j).pwrite = true := by
  simp only [control, systemStep, UartApbBridge.step, masterStep] at hpsel hwrite
  split at hpsel
  · next hidle =>
    rw [if_pos hidle] at hwrite
    exact .inl hwrite
  · next hsetup =>
    rw [if_neg (by simp [hsetup])] at hwrite
    exact .inr ⟨hpsel, hwrite⟩
  · next haccess =>
    rw [if_neg (by simp [haccess])] at hwrite
    rw [Bool.and_eq_true] at hpsel
    exact .inr ⟨hpsel.2, hwrite⟩

theorem Written.step (h : Written x) (i : Rx) : Written (systemStep x i) := by
  refine ⟨fun hfsm hwrite => ?_, fun hfsm => ?_, fun j hwrite => ?_, fun j hpsel hwrite => ?_⟩
  · cases htakes : takesAddress x.bridge with
    | true =>
      refine ⟨x.bridge.rxBuffer, ?_, ?_⟩
      · simpa [systemStep, UartApbBridge.step, htakes] using hwrite
      · simp [systemStep, UartApbBridge.step, htakes, slaveSelInt]
    | false =>
      have hne : x.bridge.fsmState ≠ .idle := by
        intro hidle
        have hrx : x.bridge.rxValid = false := by simpa [takesAddress, hidle] using htakes
        simp [systemStep, UartApbBridge.step, advance, hidle, hrx] at hfsm
      simp only [systemStep, UartApbBridge.step, htakes, Bool.false_eq_true, if_false] at hwrite ⊢
      exact h.isWriteOpR hne hwrite
  · have hwrite : takesAddress x.bridge = false ∧ x.bridge.isWriteOpR = true := by
      rcases fsmState_before_data hfsm with ⟨hstart, hwrite⟩ | hwait
      · exact ⟨by simp [takesAddress, hstart], hwrite⟩
      · exact ⟨by simp [takesAddress, hwait], h.fsmState hwait⟩
    simp [systemStep, UartApbBridge.step, hwrite]
  · simp only [systemStep, UartApbBridge.step, Bool.and_eq_true, beq_iff_eq] at hwrite
    obtain ⟨htakes, hj⟩ := hwrite
    have hfsm : x.bridge.fsmState = .waitForWriteData := by
      simp only [takesData, Bool.and_eq_true, beq_iff_eq] at htakes
      exact htakes.1
    rw [hj]
    exact h.isWriteOpR (by simp [hfsm]) (h.fsmState hfsm)
  · rcases asked_before_write hpsel hwrite with hasked | ⟨hpsel', hwrite'⟩
    · exact h.slaveDoWrite j hasked
    · exact h.psel j hpsel' hwrite'

theorem written_run (hx : SystemPowerUp x) (is : List Rx) : Written (run systemStep x is) := by
  induction is using List.reverseRecOn with
  | nil => exact written_powerUp hx
  | append_singleton is i ih =>
    rw [run_concat]
    exact ih.step i

/-! ## Both -/

/-- An address with this register below the bits of that word. -/
theorem exists_word (w : BitVec 32) (r : BitVec 8) :
    ∃ a : BitVec 32, a.getLsbD 31 = w.getLsbD 31 ∧ a.extractLsb' 0 8 = r ∧
      ∀ l, a.extractLsb' 8 l = w.extractLsb' 8 l := by
  have hbit (m : ℕ) : (setByte w 0 r).getLsbD m = if m < 8 then r.getLsbD m else w.getLsbD m := by
    by_cases hm : m < 32
    · rw [getLsbD_setByte _ _ _ hm, show BitVec.toNat (0 : BitVec 2) = 0 from rfl]
      by_cases hm' : m < 8
      · rw [if_pos (show m / 8 = 0 by omega), if_pos hm', Nat.mod_eq_of_lt hm']
      · rw [if_neg (show ¬ m / 8 = 0 by omega), if_neg hm']
    · rw [if_neg (by omega), BitVec.getLsbD_of_ge _ _ (by omega),
        BitVec.getLsbD_of_ge _ _ (by omega)]
  refine ⟨setByte w 0 r, by rw [hbit, if_neg (by decide)], ?_, fun l => ?_⟩
  · refine BitVec.eq_of_getLsbD_eq fun m hm => ?_
    rw [BitVec.getLsbD_extractLsb', Nat.zero_add, hbit, if_pos hm, decide_eq_true hm,
      Bool.true_and]
  · refine BitVec.eq_of_getLsbD_eq fun m _ => ?_
    rw [BitVec.getLsbD_extractLsb', BitVec.getLsbD_extractLsb', hbit, if_neg (by omega)]

/-- The low bits of a register address. -/
theorem toNat_setWidth_ofNat {m l : ℕ} (hm : m < 256) :
    ((BitVec.ofNat 8 m).setWidth l).toNat = m % 2 ^ l := by
  rw [BitVec.toNat_setWidth, BitVec.toNat_ofNat, Nat.mod_eq_of_lt (show m < 2 ^ 8 from hm)]

theorem exists_slaves_eq (hx : SystemPowerUp x) (h : ∀ is, Confined (run systemStep x is))
    (hN : 1 ≤ N) (hbits : log2Ceil N + 8 ≤ 32) : ∃ S, N = 2 ^ S := by
  by_contra hpow
  push Not at hpow
  have hlt := (lt_two_pow_log2Ceil_iff hN).mpr hpow
  have hle : 2 ^ log2Ceil N ≤ 2 ^ 24 := Nat.pow_le_pow_right Nat.two_pos (by omega)
  obtain ⟨is, his⟩ := exists_selected hx (BitVec.ofNat 32 (N * 256))
  refine absurd (h is).slaveSelInt (Nat.not_lt.mpr (le_of_eq ?_))
  rw [slaveSelInt, his, BitVec.extractLsb'_toNat, BitVec.toNat_ofNat, Nat.shiftRight_eq_div_pow,
    Nat.mod_eq_of_lt (show N * 256 < 2 ^ 32 by omega),
    show N * 256 / 2 ^ 8 = N by omega, Nat.mod_eq_of_lt hlt]

theorem exists_registers_eq (hx : SystemPowerUp x) (h : ∀ is, Confined (run systemStep x is))
    (hn : 1 ≤ n j ∧ n j ≤ 256) : ∃ R, n j = 2 ^ R := by
  by_contra hpow
  push Not at hpow
  have hlt := (lt_two_pow_log2Ceil_iff hn.1).mpr hpow
  have hlt' : n j < 256 := lt_of_le_of_ne hn.2 (hpow 8)
  obtain ⟨a, -, ha, -⟩ := exists_word 0 (BitVec.ofNat 8 (n j))
  obtain ⟨is, his⟩ := exists_addressed hx a
  refine absurd ((h is).regSelectInt j) (Nat.not_lt.mpr (le_of_eq ?_))
  rw [regSelectInt, his.paddr j, ha, toNat_setWidth_ofNat hlt', Nat.mod_eq_of_lt hlt]

/-- The address beyond the last register selects the first one. -/
theorem registers_eq_of_writable (hx : SystemPowerUp x)
    (h : ∀ is, Confined (run systemStep x is)) {R : ℕ} (hR : n j = 2 ^ R) (hle : n j ≤ 256)
    (hwritable : Writable N j.val) : n j = 256 := by
  by_contra hne
  have hlt : n j < 256 := lt_of_le_of_ne hle hne
  have hpos : 0 < n j := by
    rw [hR]
    exact Nat.two_pow_pos R
  obtain ⟨w, hwrite, hj⟩ := hwritable
  obtain ⟨a, hbit, ha, hslave⟩ := exists_word w (BitVec.ofNat 8 (n j))
  have hq : Selects (n j) (a.extractLsb' 0 8) ⟨0, hpos⟩ := by
    have hpow : 2 ^ log2Ceil (n j) = n j := by rw [hR, log2Ceil_two_pow]
    rw [Selects, ha, toNat_setWidth_ofNat hlt, hpow, Nat.mod_self]
  obtain ⟨is, d, hwriting, haddr⟩ := exists_writing hx (hbit.trans hwrite)
    (by rw [hslave, hj]) hq
  have hpaddr : n j ≤ ((run systemStep x is).bridge.masters j).apbCmdOut.paddr.toNat := by
    rw [haddr.paddr j, ha, BitVec.toNat_ofNat, Nat.mod_eq_of_lt (show n j < 2 ^ 8 from hlt)]
  have hc := hwriting.control
  have hwrites : ((control (run systemStep x is) j).psel &&
      ((control (run systemStep x is) j).penable && (control (run systemStep x is) j).pwrite)) =
        true := by
    rw [hc]
    rfl
  have hfalse := ((h is).writes j hpaddr hwrites quiet).2 ⟨0, hpos⟩
  rw [regWenOut_step, hwrites, hwriting.regSel] at hfalse
  simp at hfalse

/-- **Confined hosts.** In every run the selected slave and registers exist, and no write beyond the
registers of a slave reaches one of them, if and only if the numbers of slaves and registers are
powers of two, and a slave that can be written to has all the registers that an address can name. -/
theorem confined_iff (hN : 1 ≤ N) (hbits : log2Ceil N + 8 ≤ 32) (hn : ∀ j, 1 ≤ n j ∧ n j ≤ 256)
    (hx : SystemPowerUp x) : (∀ is, Confined (run systemStep x is)) ↔
      (∃ S, N = 2 ^ S) ∧ ∀ j, (∃ R, n j = 2 ^ R) ∧ (Writable N j.val → n j = 256) := by
  constructor
  · intro h
    refine ⟨exists_slaves_eq hx h hN hbits, fun j => ?_⟩
    obtain ⟨R, hR⟩ := exists_registers_eq hx h (hn j)
    exact ⟨⟨R, hR⟩, registers_eq_of_writable hx h hR (hn j).2⟩
  · rintro ⟨⟨S, hS⟩, hR⟩ is
    refine ⟨?_, fun j => ?_, fun j hle hwrites => ?_⟩
    · have hlt := ((run systemStep x is).bridge.rxBuffer.extractLsb' 8 (log2Ceil N)).isLt
      have hpow : 2 ^ log2Ceil N = N := by rw [hS, log2Ceil_two_pow]
      rwa [hpow] at hlt
    · obtain ⟨⟨R, hR⟩, -⟩ := hR j
      have hlt := (((run systemStep x is).bridge.masters j).apbCmdOut.paddr.setWidth
        (log2Ceil (n j))).isLt
      have hpow : 2 ^ log2Ceil (n j) = n j := by rw [hR, log2Ceil_two_pow]
      rwa [hpow] at hlt
    · -- such a write does not come
      simp only [ComponentRegisterBlock.writes, Bool.and_eq_true] at hwrites
      have hwritable := (written_run hx is).psel j hwrites.1 hwrites.2.2
      have hlt := ((run systemStep x is).bridge.masters j).apbCmdOut.paddr.isLt
      rw [(hR j).2 hwritable] at hle
      omega

/-- Two slaves with 256 registers each. -/
theorem confined_iff_full : log2Ceil 2 + 8 ≤ 32 ∧ SystemPowerUp (blank 2 868 fun _ => 256) ∧
    ∀ is, Confined (run systemStep (blank 2 868 fun _ => 256) is) :=
  ⟨by decide, systemPowerUp_blank 2 868 _,
    (confined_iff (by decide) (by decide) (by simp) (systemPowerUp_blank 2 868 _)).mpr
      ⟨⟨1, rfl⟩, fun _ => ⟨⟨8, rfl⟩, fun _ => rfl⟩⟩⟩

/-- A slave with 25 registers. -/
theorem not_confined : ¬ ∀ (N p : ℕ) (n : Fin N → ℕ) (x : System N (log2Ceil p) n), 1 ≤ N →
    log2Ceil N + 8 ≤ 32 → (∀ j, 1 ≤ n j ∧ n j ≤ 256) → SystemPowerUp x →
      ∀ is, Confined (run systemStep x is) := by
  intro h
  have hconfined := h 1 868 (fun _ => 25) (blank 1 868 _) (by decide) (by decide) (by simp)
    (systemPowerUp_blank 1 868 _)
  obtain ⟨R, hR⟩ := exists_registers_eq (j := 0) (systemPowerUp_blank 1 868 _) hconfined
    (by decide)
  change 25 = 2 ^ R at hR
  by_cases hlt : R < 5
  · interval_cases R <;> omega
  · have hle := Nat.pow_le_pow_right Nat.two_pos (Nat.le_of_not_lt hlt)
    omega

end RmiiEthernet.UartApbBridge
