import RmiiEthernet.Apb.Bridge
import Mathlib.Tactic.IntervalCases

/-!
# A master with its slave

A master and the register block on its bus move together: from the cycle in which the state machine
asks for a read to the response there are five cycles, for a write three. `Reading` and `Writing`
say where they stand after each of them; a lane that is not asked rests (`Rests`).
-/

namespace RmiiEthernet.UartApbBridge

open Utils Apb ComponentRegisterBlock

variable {N p : ℕ} {n : Fin N → ℕ} {x : System N (log2Ceil p) n} {i : Rx} {j : Fin N}

/-- The control bits of a master and its slave. -/
structure Control where
  apbMasterState : ApbState
  psel : Bool
  penable : Bool
  pwrite : Bool
  slaveResponsePending : Bool
  pready : Bool
  preadyR : Bool
  deriving DecidableEq

/-- The control registers of one lane. -/
def control (x : System N (log2Ceil p) n) (j : Fin N) : Control where
  apbMasterState := (x.bridge.masters j).apbMasterState
  psel := (x.bridge.masters j).apbCmdOut.psel
  penable := (x.bridge.masters j).apbCmdOut.penable
  pwrite := (x.bridge.masters j).apbCmdOut.pwrite
  slaveResponsePending := (x.bridge.masters j).slaveResponsePending
  pready := (x.slaves j).pready
  preadyR := (x.slaves j).preadyR

/-- One edge without a reset. -/
def Control.next (c : Control) (doRead doWrite clear : Bool) : Control :=
  let done := c.apbMasterState == .access && c.preadyR
  let stalls := c.psel && (!c.penable && !c.pwrite)
  { apbMasterState :=
      match c.apbMasterState with
      | .idle => if doRead || doWrite then .setup else .idle
      | .setup => .access
      | .access => if done then .idle else .access
    psel :=
      match c.apbMasterState with
      | .idle => doRead || doWrite
      | .setup => c.psel
      | .access => !done && c.psel
    penable :=
      match c.apbMasterState with
      | .idle => false
      | .setup => true
      | .access => !done && c.penable
    pwrite := if c.apbMasterState = .idle then doWrite else c.pwrite
    slaveResponsePending := done || (!clear && c.slaveResponsePending)
    pready := !stalls
    preadyR := !stalls && c.pready }

theorem control_step (hreset : i.reset = false) : control (systemStep x i) j =
    (control x j).next (x.bridge.slaveDoRead j) (x.bridge.slaveDoWrite j)
      x.bridge.clearResponsePending := by
  simp only [control, systemStep, UartApbBridge.step, masterStep, hreset]
  rfl

/-! ## A lane that rests -/

/-- The master waits, the slave is ready, and no enable is high. -/
structure Rests (x : System N (log2Ceil p) n) (j : Fin N) : Prop where
  apbMasterState : (control x j).apbMasterState = .idle
  psel : (control x j).psel = false
  slaveResponsePending : (control x j).slaveResponsePending = false
  pready : (control x j).pready = true
  preadyR : (control x j).preadyR = true
  regRenSig : ∀ k, (x.slaves j).regRenSig k = false
  regWenOut : ∀ k, (x.slaves j).regWenOut k = false

/-- The enables of the next cycle. -/
theorem regRenSig_step (k : Fin (n j)) : ((systemStep x i).slaves j).regRenSig k =
    ((control x j).psel && (!(control x j).pready && (!(control x j).preadyR &&
      !(control x j).pwrite)) && (x.slaves j).regSel k) := rfl

theorem regWenOut_step (k : Fin (n j)) : ((systemStep x i).slaves j).regWenOut k =
    ((control x j).psel && ((control x j).penable && (control x j).pwrite) &&
      (x.slaves j).regSel k) := rfl

theorem registers_step (k : Fin (n j)) : registers (systemStep x i) j k =
    if (control x j).psel && ((control x j).penable && (control x j).pwrite) &&
      (x.slaves j).regSel k then (x.bridge.masters j).apbCmdOut.pwdata else registers x j k := rfl

/-- A master that does not select leaves the registers alone. -/
theorem registers_step_of_not_psel (h : (control x j).psel = false) :
    registers (systemStep x i) j = registers x j := by
  funext k
  rw [registers_step, h]
  simp

/-- A lane stays at rest, or goes back to it. -/
theorem rests_step (hreset : i.reset = false) (hread : x.bridge.slaveDoRead j = false)
    (hwrite : x.bridge.slaveDoWrite j = false)
    (hidle : (control x j).apbMasterState = .idle) (hpsel : (control x j).psel = false)
    (hpending : (control x j).slaveResponsePending = true → x.bridge.clearResponsePending = true)
    (hpready : (control x j).pready = true) : Rests (systemStep x i) j := by
  have hnext := control_step (x := x) (j := j) hreset
  rw [hread, hwrite] at hnext
  constructor
  · simp [hnext, Control.next, hidle]
  · simp [hnext, Control.next, hidle]
  · rw [hnext]
    cases hclear : x.bridge.clearResponsePending <;>
      simp_all [Control.next]
  · simp [hnext, Control.next, hpsel]
  · simp [hnext, Control.next, hpsel, hpready]
  · intro k
    simp [regRenSig_step, hpsel]
  · intro k
    simp [regWenOut_step, hpsel]

/-- A lane that has answered goes back to rest when its response is cleared. -/
theorem rests_of_answered {c : Control} (hc : control x j = c) (hidle : c.apbMasterState = .idle)
    (hpsel : c.psel = false) (hpready : c.pready = true) (hreset : i.reset = false)
    (hread : x.bridge.slaveDoRead j = false) (hwrite : x.bridge.slaveDoWrite j = false)
    (hclear : x.bridge.clearResponsePending = true) :
    Rests (systemStep x i) j ∧ registers (systemStep x i) j = registers x j := by
  subst hc
  exact ⟨rests_step hreset hread hwrite hidle hpsel (fun _ => hclear) hpready,
    registers_step_of_not_psel hpsel⟩

theorem Rests.step (h : Rests x j) (hreset : i.reset = false)
    (hread : x.bridge.slaveDoRead j = false) (hwrite : x.bridge.slaveDoWrite j = false) :
    Rests (systemStep x i) j :=
  rests_step hreset hread hwrite h.apbMasterState h.psel (by simp [h.slaveResponsePending]) h.pready

/-! ## A lane at work -/

/-- The address on all buses. -/
structure Addressed (x : System N (log2Ceil p) n) (a : BitVec 8) : Prop where
  slaveAddrR : x.bridge.slaveAddrR = a
  paddr : ∀ j, (x.bridge.masters j).apbCmdOut.paddr = a

/-- It stays there while no other one is taken. -/
theorem addressed_step {a : BitVec 8} (h : x.bridge.slaveAddrR = a)
    (htakes : takesAddress x.bridge = false) : Addressed (systemStep x i) a := by
  constructor
  · simp [systemStep, UartApbBridge.step, htakes, h]
  · intro j
    exact h

/-- The number of the register that an address selects. -/
def Selects (r : ℕ) (a : BitVec 8) (q : Fin r) : Prop := (a.setWidth (log2Ceil r)).toNat = q.val

theorem regSel_step {a : BitVec 8} {q : Fin (n j)} (h : Addressed x a) (hq : Selects (n j) a q)
    (r : Fin (n j)) : ((systemStep x i).slaves j).regSel r = (r == q) := by
  have hsel : regSelectInt (n j) (x.bridge.masters j).apbCmdOut = q.val := by
    rw [regSelectInt, h.paddr j]
    exact hq
  change (r.val == regSelectInt (n j) (x.bridge.masters j).apbCmdOut) = (r == q)
  rw [hsel, Bool.eq_iff_iff, beq_iff_eq, beq_iff_eq, Fin.ext_iff]

/-- The control bits `k` cycles after the start of a read. -/
def readControl : ℕ → Control
  | 0 => ⟨.setup, true, false, false, false, true, true⟩
  | 1 => ⟨.access, true, true, false, false, false, false⟩
  | 2 => ⟨.access, true, true, false, false, true, false⟩
  | 3 => ⟨.access, true, true, false, false, true, true⟩
  | _ => ⟨.idle, false, false, false, true, true, true⟩

/-- The lane reads register `q`: its enable is high in the third cycle, the data are there one cycle
later. -/
structure Reading (x : System N (log2Ceil p) n) (j : Fin N) (k : ℕ) (q : Fin (n j)) : Prop where
  control : control x j = readControl k
  regSel : ∀ r, (x.slaves j).regSel r = (r == q)
  regRenSig : ∀ r, (x.slaves j).regRenSig r = (k == 2 && r == q)
  regWenOut : ∀ r, (x.slaves j).regWenOut r = false
  prdata : k = 3 → (x.slaves j).prdata = registers x j q
  data : k = 4 → (x.bridge.masters j).slaveResponseData = registers x j q

section Lane

variable {a : BitVec 8} {q : Fin (n j)} {k : ℕ} {d : BitVec 32}

theorem reading_zero (h : Rests x j) (ha : Addressed x a) (hq : Selects (n j) a q)
    (hreset : i.reset = false) (hread : x.bridge.slaveDoRead j = true)
    (hwrite : x.bridge.slaveDoWrite j = false) : Reading (systemStep x i) j 0 q := by
  refine ⟨?_, fun r => regSel_step ha hq r, fun r => ?_, fun r => ?_, nofun, nofun⟩
  · rw [control_step hreset, hread, hwrite]
    simp [Control.next, readControl, h.apbMasterState, h.psel, h.pready, h.slaveResponsePending]
  · simp [regRenSig_step, h.psel]
  · simp [regWenOut_step, h.psel]

/-- The only register whose enable is high is read. -/
theorem readData_eq {r : ℕ} {b : ComponentRegisterBlock.State r} {q : Fin r}
    {f : Fin r → BitVec 32} (h : ∀ k, b.regRenSig k = (k == q)) : readData b f = f q := by
  have hfold (l : List (Fin r)) (d : BitVec 32) :
      l.foldl (fun d k => if b.regRenSig k then f k else d) d = if q ∈ l then f q else d := by
    induction l generalizing d with
    | nil => rfl
    | cons k l ih =>
      rw [List.foldl_cons, ih, h k]
      by_cases hk : k = q
      · subst hk
        simp
      · simp [hk, Ne.symm hk]
  rw [readData, hfold, if_pos (List.mem_finRange q)]

/-- **One cycle of a read.** -/
theorem Reading.step (h : Reading x j k q) (hk : k < 4) (ha : Addressed x a)
    (hq : Selects (n j) a q) (hreset : i.reset = false)
    (hread : x.bridge.slaveDoRead j = false) (hwrite : x.bridge.slaveDoWrite j = false) :
    Reading (systemStep x i) j (k + 1) q ∧ registers (systemStep x i) j = registers x j := by
  have hc := h.control
  have hregisters : registers (systemStep x i) j = registers x j := by
    funext r
    rw [registers_step, hc]
    interval_cases k <;> simp [readControl]
  refine ⟨⟨?_, fun r => regSel_step ha hq r, fun r => ?_, fun r => ?_, fun h3 => ?_, fun h4 => ?_⟩,
    hregisters⟩
  · rw [control_step hreset, hread, hwrite, hc]
    interval_cases k <;> simp [Control.next, readControl]
  · rw [regRenSig_step, hc, h.regSel]
    interval_cases k <;> simp [readControl]
  · rw [regWenOut_step, hc]
    interval_cases k <;> simp [readControl]
  · obtain rfl : k = 2 := by omega
    rw [hregisters]
    exact readData_eq (f := (x.slaves j).regWdataOut) (by simpa using h.regRenSig)
  · obtain rfl : k = 3 := by omega
    have hdone : ((x.bridge.masters j).apbMasterState == .access &&
        (x.slaves j).preadyR) = true := by
      have h₁ := congrArg Control.apbMasterState hc
      have h₂ := congrArg Control.preadyR hc
      simp only [UartApbBridge.control, readControl] at h₁ h₂
      simp [h₁, h₂]
    rw [hregisters, ← h.prdata rfl]
    change (if (x.bridge.masters j).apbMasterState == .access && (x.slaves j).preadyR
      then (x.slaves j).prdata else _) = _
    rw [hdone, if_pos rfl]

theorem Reading.done (h : Reading x j 4 q) (hreset : i.reset = false)
    (hread : x.bridge.slaveDoRead j = false) (hwrite : x.bridge.slaveDoWrite j = false)
    (hclear : x.bridge.clearResponsePending = true) :
    Rests (systemStep x i) j ∧ registers (systemStep x i) j = registers x j :=
  rests_of_answered h.control rfl rfl rfl hreset hread hwrite hclear

/-- The control bits `k` cycles after the start of a write. -/
def writeControl : ℕ → Control
  | 0 => ⟨.setup, true, false, true, false, true, true⟩
  | 1 => ⟨.access, true, true, true, false, true, true⟩
  | _ => ⟨.idle, false, false, true, true, true, true⟩

/-- The lane writes `d` to register `q`: its enable is high in the third cycle. -/
structure Writing (x : System N (log2Ceil p) n) (j : Fin N) (k : ℕ) (q : Fin (n j))
    (d : BitVec 32) : Prop where
  control : control x j = writeControl k
  regSel : ∀ r, (x.slaves j).regSel r = (r == q)
  regRenSig : ∀ r, (x.slaves j).regRenSig r = false
  regWenOut : ∀ r, (x.slaves j).regWenOut r = (k == 2 && r == q)
  pwdata : k < 2 → (x.bridge.masters j).apbCmdOut.pwdata = d

theorem writing_zero (h : Rests x j) (ha : Addressed x a) (hq : Selects (n j) a q)
    (hreset : i.reset = false) (hread : x.bridge.slaveDoRead j = false)
    (hwrite : x.bridge.slaveDoWrite j = true) (hd : x.bridge.writeData = d) :
    Writing (systemStep x i) j 0 q d := by
  refine ⟨?_, fun r => regSel_step ha hq r, fun r => ?_, fun r => ?_, fun _ => ?_⟩
  · rw [control_step hreset, hread, hwrite]
    simp [Control.next, writeControl, h.apbMasterState, h.psel, h.pready, h.slaveResponsePending]
  · simp [regRenSig_step, h.psel]
  · simp [regWenOut_step, h.psel]
  · have hidle : (x.bridge.masters j).apbMasterState = .idle := h.apbMasterState
    simp [systemStep, UartApbBridge.step, masterStep, hidle, hd]

/-- **One cycle of a write.** -/
theorem Writing.step (h : Writing x j k q d) (hk : k < 2) (ha : Addressed x a)
    (hq : Selects (n j) a q) (hreset : i.reset = false)
    (hread : x.bridge.slaveDoRead j = false) (hwrite : x.bridge.slaveDoWrite j = false) :
    Writing (systemStep x i) j (k + 1) q d ∧ registers (systemStep x i) j =
      if k = 1 then Function.update (registers x j) q d else registers x j := by
  have hc := h.control
  refine ⟨⟨?_, fun r => regSel_step ha hq r, fun r => ?_, fun r => ?_, fun hlt => ?_⟩, ?_⟩
  · rw [control_step hreset, hread, hwrite, hc]
    interval_cases k <;> simp [Control.next, writeControl]
  · rw [regRenSig_step, hc]
    interval_cases k <;> simp [writeControl]
  · rw [regWenOut_step, hc, h.regSel]
    interval_cases k <;> simp [writeControl]
  · obtain rfl : k = 0 := by omega
    have hsetup : (x.bridge.masters j).apbMasterState = .setup := by
      have h₁ := congrArg Control.apbMasterState hc
      exact h₁
    rw [← h.pwdata (by decide)]
    simp [systemStep, UartApbBridge.step, masterStep, hsetup]
  · funext r
    rw [registers_step, hc, h.regSel, h.pwdata hk]
    interval_cases k
    · simp [writeControl]
    · by_cases hr : r = q
      · subst hr
        simp [writeControl]
      · simp [writeControl, hr]

theorem Writing.done (h : Writing x j 2 q d) (hreset : i.reset = false)
    (hread : x.bridge.slaveDoRead j = false) (hwrite : x.bridge.slaveDoWrite j = false)
    (hclear : x.bridge.clearResponsePending = true) :
    Rests (systemStep x i) j ∧ registers (systemStep x i) j = registers x j :=
  rests_of_answered h.control rfl rfl rfl hreset hread hwrite hclear

end Lane

end RmiiEthernet.UartApbBridge
