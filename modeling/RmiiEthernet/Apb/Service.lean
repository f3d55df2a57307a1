import RmiiEthernet.Apb.Lanes
import RmiiEthernet.Apb.Words

/-!
# One cycle of the bridge with its slaves

`Phase` lists the states in which the bridge, its masters, the slaves and the serialiser can be
together, with what they owe: the registers may be one write behind the host, an enable may still
have to come, and the bytes of the answer are on their way. Every cycle conserves this
(`Phase.step`) if the host begins a transaction only when no byte is owed.
-/

namespace RmiiEthernet.UartApbBridge

open Sync Utils Apb ComponentRegisterBlock RegisterMap

/-- The bridge with `2 ^ S` slaves, slave `j` with `2 ^ R j` registers. -/
abbrev Mapped (S p : ℕ) (R : Fin (2 ^ S) → ℕ) := System (2 ^ S) (log2Ceil p) fun j => 2 ^ R j

variable {S p : ℕ} {R : Fin (2 ^ S) → ℕ} {x : Mapped S p R} {i : Rx} {a v : BitVec 32}

/-- The low byte of an address, which selects the register. -/
def lowByte (a : BitVec 32) : BitVec 8 := a.extractLsb' 0 8

/-- The enables that are high in a cycle are those of these transactions. -/
def Enables (x : Mapped S p R) (ts : List Transaction) : Prop :=
  ∀ j k, ((x.slaves j).regRenSig k).toNat = ts.countP (readsFrom j k) ∧
    ((x.slaves j).regWenOut k).toNat = ts.countP (writesTo j k)

/-! ## The lanes -/

theorem selects_registerOf (j : Fin (2 ^ S)) :
    Selects (2 ^ R j) (lowByte a) (registerOf (R j) a) := by
  rw [Selects, log2Ceil_two_pow]
  rfl

/-- No lane works. -/
structure Resting (x : Mapped S p R) : Prop where
  rests : ∀ j, Rests x j
  slaveDoRead : ∀ j, x.bridge.slaveDoRead j = false
  slaveDoWrite : ∀ j, x.bridge.slaveDoWrite j = false

theorem enables_of_rests (h : ∀ j, Rests x j) : Enables x [] := fun j k =>
  ⟨congrArg Bool.toNat ((h j).regRenSig k), congrArg Bool.toNat ((h j).regWenOut k)⟩

theorem registers_of_rests (h : ∀ j, Rests x j) : registers (systemStep x i) = registers x := by
  funext j
  exact registers_step_of_not_psel (h j).psel

theorem Resting.rests_step (h : Resting x) (hreset : i.reset = false) (j : Fin (2 ^ S)) :
    Rests (systemStep x i) j :=
  (h.rests j).step hreset (h.slaveDoRead j) (h.slaveDoWrite j)

theorem Resting.step (h : Resting x) (hreset : i.reset = false)
    (hstarts : startsRead x.bridge = false) (htakes : takesData x.bridge = false) :
    Resting (systemStep x i) := by
  refine ⟨h.rests_step hreset, fun j => ?_, fun j => ?_⟩
  · simp [systemStep, UartApbBridge.step, hstarts]
  · simp [systemStep, UartApbBridge.step, htakes]

/-! ## The state machine -/

/-- The address that has been taken. -/
structure Asked (x : Mapped S p R) (a : BitVec 32) (w : Bool) : Prop where
  isWriteOpR : x.bridge.isWriteOpR = w
  slaveAddrR : x.bridge.slaveAddrR = lowByte a
  activeSlaveR : x.bridge.activeSlaveR = (slaveOf S a).val

theorem asked_step (htakes : takesAddress x.bridge = true) (ha : x.bridge.rxBuffer = a) :
    Asked (systemStep x i) a (a.getLsbD 31) := by
  constructor
  · simp [systemStep, UartApbBridge.step, htakes, ha]
  · simp [systemStep, UartApbBridge.step, htakes, ha, lowByte]
  · simp [systemStep, UartApbBridge.step, htakes, slaveSelInt, ha, slaveOf, log2Ceil_two_pow]

theorem Asked.step {w : Bool} (h : Asked x a w) (htakes : takesAddress x.bridge = false) :
    Asked (systemStep x i) a w ∧ Addressed (systemStep x i) (lowByte a) := by
  refine ⟨⟨?_, ?_, ?_⟩, addressed_step h.slaveAddrR htakes⟩
  · simp [systemStep, UartApbBridge.step, htakes, h.isWriteOpR]
  · simp [systemStep, UartApbBridge.step, htakes, h.slaveAddrR]
  · simp [systemStep, UartApbBridge.step, htakes, h.activeSlaveR]

theorem Asked.activePending_eq {w : Bool} (h : Asked x a w) : activePending x.bridge =
    (control x (slaveOf S a)).slaveResponsePending := by
  rw [activePending, dif_pos (h.activeSlaveR ▸ (slaveOf S a).isLt)]
  simp only [h.activeSlaveR]
  rfl

theorem Asked.activeData_eq {w : Bool} (h : Asked x a w) : activeData x.bridge =
    (x.bridge.masters (slaveOf S a)).slaveResponseData := by
  rw [activeData, dif_pos (h.activeSlaveR ▸ (slaveOf S a).isLt)]
  simp only [h.activeSlaveR]

/-- The slave is asked to read. -/
theorem Asked.slaveDoRead_step {w : Bool} (h : Asked x a w) (hstarts : startsRead x.bridge = true)
    (j : Fin (2 ^ S)) : (systemStep x i).bridge.slaveDoRead j = (j == slaveOf S a) := by
  change (startsRead x.bridge && j.val == x.bridge.activeSlaveR) = _
  rw [hstarts, h.activeSlaveR, Bool.true_and, Bool.eq_iff_iff, beq_iff_eq, beq_iff_eq, Fin.ext_iff]

theorem Asked.slaveDoWrite_step {w : Bool} (h : Asked x a w) (htakes : takesData x.bridge = true)
    (j : Fin (2 ^ S)) : (systemStep x i).bridge.slaveDoWrite j = (j == slaveOf S a) := by
  change (takesData x.bridge && j.val == x.bridge.activeSlaveR) = _
  rw [htakes, h.activeSlaveR, Bool.true_and, Bool.eq_iff_iff, beq_iff_eq, beq_iff_eq, Fin.ext_iff]

/-- The state machine waits for the response. -/
structure Waits (x : Mapped S p R) (a : BitVec 32) (w : Bool) : Prop where
  fsmState : x.bridge.fsmState = .waitForResponse
  asked : Asked x a w
  addressed : Addressed x (lowByte a)
  clearResponsePending : x.bridge.clearResponsePending = true

section Waits

variable {w : Bool}

theorem Waits.takesAddress (h : Waits x a w) : takesAddress x.bridge = false := by
  simp [UartApbBridge.takesAddress, h.fsmState]

theorem Waits.startsRead (h : Waits x a w) : startsRead x.bridge = false := by
  simp [UartApbBridge.startsRead, h.fsmState]

theorem Waits.takesData (h : Waits x a w) : takesData x.bridge = false := by
  simp [UartApbBridge.takesData, h.fsmState]

theorem Waits.answers_eq (h : Waits x a w) : answers x.bridge =
    (control x (slaveOf S a)).slaveResponsePending := by
  simp [answers, h.fsmState, h.asked.activePending_eq]

theorem Waits.doRead_step (h : Waits x a w) (j : Fin (2 ^ S)) :
    (systemStep x i).bridge.slaveDoRead j = false := by
  simp [systemStep, UartApbBridge.step, h.startsRead]

theorem Waits.doWrite_step (h : Waits x a w) (j : Fin (2 ^ S)) :
    (systemStep x i).bridge.slaveDoWrite j = false := by
  simp [systemStep, UartApbBridge.step, h.takesData]

theorem Waits.writeData_step (h : Waits x a w) :
    (systemStep x i).bridge.writeData = x.bridge.writeData := by
  simp [systemStep, UartApbBridge.step, h.takesData]

/-- It goes on waiting. -/
theorem Waits.step (h : Waits x a w) (hreset : i.reset = false)
    (hpending : (control x (slaveOf S a)).slaveResponsePending = false) :
    Waits (systemStep x i) a w := by
  obtain ⟨hasked, haddressed⟩ := h.asked.step h.takesAddress (i := i)
  refine ⟨?_, hasked, haddressed, rfl⟩
  simp [systemStep, UartApbBridge.step, hreset, advance, h.fsmState, h.asked.activePending_eq,
    hpending]

/-- It takes the response. -/
theorem Waits.idle (h : Waits x a w) (hreset : i.reset = false)
    (hpending : (control x (slaveOf S a)).slaveResponsePending = true) :
    (systemStep x i).bridge.fsmState = .idle := by
  simp [systemStep, UartApbBridge.step, hreset, advance, h.fsmState, h.asked.activePending_eq,
    hpending]

end Waits

/-! ## One lane at work -/

section Lane

variable {k : ℕ}

theorem enables_of_reading (h : Reading x (slaveOf S a) k (registerOf _ a))
    (hothers : ∀ j ≠ slaveOf S a, Rests x j) :
    Enables x (if k = 2 then [.read a] else []) := by
  intro j r
  by_cases hj : slaveOf S a = j
  · subst hj
    rw [h.regRenSig, h.regWenOut]
    by_cases hk : k = 2
    · subst hk
      simp [readsFrom, writesTo, selects, Bool.beq_comm, Bool.toNat, Bool.cond_eq_ite]
    · simp [hk]
  · rw [(hothers j (Ne.symm hj)).regRenSig, (hothers j (Ne.symm hj)).regWenOut]
    split <;> simp [readsFrom, writesTo, selects, hj]

theorem enables_of_writing (h : Writing x (slaveOf S a) k (registerOf _ a) v)
    (hothers : ∀ j ≠ slaveOf S a, Rests x j) :
    Enables x (if k = 2 then [.write a v] else []) := by
  intro j r
  by_cases hj : slaveOf S a = j
  · subst hj
    rw [h.regRenSig, h.regWenOut]
    by_cases hk : k = 2
    · subst hk
      simp [readsFrom, writesTo, selects, Bool.beq_comm, Bool.toNat, Bool.cond_eq_ite]
    · simp [hk]
  · rw [(hothers j (Ne.symm hj)).regRenSig, (hothers j (Ne.symm hj)).regWenOut]
    split <;> simp [readsFrom, writesTo, selects, hj]

/-- Only the registers of the slave at work can change. -/
theorem registers_of_lane {m : Fin (2 ^ R (slaveOf S a)) → BitVec 32}
    (h : registers (systemStep x i) (slaveOf S a) = m) (hothers : ∀ j ≠ slaveOf S a, Rests x j) :
    registers (systemStep x i) = Function.update (registers x) (slaveOf S a) m :=
  Function.eq_update_iff.mpr ⟨h, fun j hj => registers_step_of_not_psel (hothers j hj).psel⟩

theorem others_step (hothers : ∀ j ≠ slaveOf S a, Rests x j) (hreset : i.reset = false)
    (hread : ∀ j, x.bridge.slaveDoRead j = false) (hwrite : ∀ j, x.bridge.slaveDoWrite j = false) :
    ∀ j ≠ slaveOf S a, Rests (systemStep x i) j :=
  fun j hj => (hothers j hj).step hreset (hread j) (hwrite j)

/-- A cycle in which the lane at work leaves its registers alone. -/
theorem registers_of_lane_eq
    (h : registers (systemStep x i) (slaveOf S a) = registers x (slaveOf S a))
    (hothers : ∀ j ≠ slaveOf S a, Rests x j) : registers (systemStep x i) = registers x := by
  rw [registers_of_lane h hothers, Function.update_eq_self]

/-- The lane at work comes to rest. -/
theorem rests_of_lane (h : Rests (systemStep x i) (slaveOf S a))
    (hothers : ∀ j ≠ slaveOf S a, Rests (systemStep x i) j) (j : Fin (2 ^ S)) :
    Rests (systemStep x i) j := by
  by_cases hj : j = slaveOf S a
  · exact hj ▸ h
  · exact hothers j hj

end Lane

/-! ## What is owed -/

/-- What the bridge still owes: the transactions that the registers have not seen, those whose
enable has not come, the bytes, and the number of cycles after which none will be owed. -/
structure Owed where
  todo : List Transaction
  enables : List Transaction
  bytes : List (BitVec 8)
  cycles : ℕ

/-- One cycle conserves what is owed, with the transactions `ts` that a byte completes in it. -/
structure Conserves (x : Mapped S p R) (i : Rx) (ts : List Transaction) (o o' : Owed) : Prop where
  todo : ∃ done, o.todo ++ ts = done ++ o'.todo ∧
    registers (systemStep x i) = run apply (registers x) done
  enables : ∃ now, o.enables ++ ts = now ++ o'.enables ∧ Enables x now
  bytes : o.bytes ++ (RegisterMap.answers (run apply (registers x) o.todo) ts).flatMap bytesOf =
    takenByte x.bridge ++ o'.bytes
  cycles : 2 ≤ p → i.uartRxValid = false → o'.cycles ≤ o.cycles - 1

/-- A transaction is served, from the cycle in which its last word is there: whether the registers
have seen it, whether its enable has come, and the number of cycles to the last byte. -/
inductive Serving (x : Mapped S p R) :
    Transaction → List Transaction → List Transaction → ℕ → Prop
  | readAddress (a : BitVec 32) (hbit : a.getLsbD 31 = false) (hfsm : x.bridge.fsmState = .idle)
      (hrx : x.bridge.rxValid = true) (hbuffer : x.bridge.rxBuffer = a) (hlanes : Resting x) :
      Serving x (.read a) [] [.read a] (4 * bytePeriod p + 9)
  | readStart (a : BitVec 32) (hfsm : x.bridge.fsmState = .start)
      (hasked : Asked x a false) (hlanes : Resting x) :
      Serving x (.read a) [] [.read a] (4 * bytePeriod p + 8)
  | readAsked (a : BitVec 32) (hwaits : Waits x a false) (hrests : ∀ j, Rests x j)
      (hread : ∀ j, x.bridge.slaveDoRead j = (j == slaveOf S a))
      (hwrite : ∀ j, x.bridge.slaveDoWrite j = false) :
      Serving x (.read a) [] [.read a] (4 * bytePeriod p + 7)
  | reading (a : BitVec 32) (k : ℕ) (hk : k < 5) (hwaits : Waits x a false)
      (hread : ∀ j, x.bridge.slaveDoRead j = false) (hwrite : ∀ j, x.bridge.slaveDoWrite j = false)
      (hlane : Reading x (slaveOf S a) k (registerOf _ a))
      (hothers : ∀ j ≠ slaveOf S a, Rests x j) :
      Serving x (.read a) [] (if k < 3 then [.read a] else []) (4 * bytePeriod p + (6 - k))
  | data (a v : BitVec 32) (hfsm : x.bridge.fsmState = .waitForWriteData) (hasked : Asked x a true)
      (hrx : x.bridge.rxValid = true) (hbuffer : x.bridge.rxBuffer = v) (hlanes : Resting x) :
      Serving x (.write a v) [.write a v] [.write a v] (4 * bytePeriod p + 6)
  | writeAsked (a v : BitVec 32) (hwaits : Waits x a true) (hdata : x.bridge.writeData = v)
      (hrests : ∀ j, Rests x j) (hread : ∀ j, x.bridge.slaveDoRead j = false)
      (hwrite : ∀ j, x.bridge.slaveDoWrite j = (j == slaveOf S a)) :
      Serving x (.write a v) [.write a v] [.write a v] (4 * bytePeriod p + 5)
  | writing (a v : BitVec 32) (k : ℕ) (hk : k < 3) (hwaits : Waits x a true)
      (hdata : x.bridge.writeData = v) (hread : ∀ j, x.bridge.slaveDoRead j = false)
      (hwrite : ∀ j, x.bridge.slaveDoWrite j = false)
      (hlane : Writing x (slaveOf S a) k (registerOf _ a) v)
      (hothers : ∀ j ≠ slaveOf S a, Rests x j) :
      Serving x (.write a v) (if k < 2 then [.write a v] else []) [.write a v]
        (4 * bytePeriod p + (4 - k))

/-- The states of the bridge with its slaves when the host has sent the bytes `g` of a
transaction. -/
inductive Phase (x : Mapped S p R) : List (BitVec 8) → Owed → Prop
  | idle (d q : List (BitVec 8)) (n : ℕ) (hassembles : Assembles x.bridge d)
      (hrx : x.bridge.rxValid = false) (hfsm : x.bridge.fsmState = .idle) (hlanes : Resting x)
      (hsends : Sends x.bridge q n) (hd : d ≠ [] → q = []) : Phase x d ⟨[], [], q, n⟩
  | writeAddress (a : BitVec 32) (hbit : a.getLsbD 31 = true) (hassembles : Assembles x.bridge [])
      (hrx : x.bridge.rxValid = true) (hbuffer : x.bridge.rxBuffer = a)
      (hfsm : x.bridge.fsmState = .idle) (hlanes : Resting x) (hsends : Sends x.bridge [] 0) :
      Phase x (bytesOf a) ⟨[], [], [], 0⟩
  | writeStart (a : BitVec 32) (d : List (BitVec 8)) (hd : d.length < 2)
      (hassembles : Assembles x.bridge d) (hfsm : x.bridge.fsmState = .start)
      (hasked : Asked x a true) (hlanes : Resting x) (hsends : Sends x.bridge [] 0) :
      Phase x (bytesOf a ++ d) ⟨[], [], [], 0⟩
  | writeData (a : BitVec 32) (d : List (BitVec 8)) (hassembles : Assembles x.bridge d)
      (hrx : x.bridge.rxValid = false) (hfsm : x.bridge.fsmState = .waitForWriteData)
      (hasked : Asked x a true) (hlanes : Resting x)
      (hsends : Sends x.bridge [] 0) : Phase x (bytesOf a ++ d) ⟨[], [], [], 0⟩
  | serving (t : Transaction) (todo enables : List Transaction) (n : ℕ)
      (hserving : Serving x t todo enables n) (hassembles : Assembles x.bridge [])
      (hsends : Sends x.bridge [] 0) :
      Phase x [] ⟨todo, enables, bytesOf (answer (registers x) t), n⟩

/-! ## One cycle -/

section Step

variable {t : Transaction} {todo todo' enables enables' : List Transaction} {n n' : ℕ}

/-- The inputs of the bridge in a cycle. -/
def bridgeInputs (x : Mapped S p R) (i : Rx) : Inputs (2 ^ S) :=
  ⟨i, fun j => apbRspOut (x.slaves j)⟩

/-- A serialiser that owes nothing stays so. -/
theorem still_step (hsends : Sends x.bridge [] 0) (hregular : AxiUartTx.Regular x.bridge.uartTx)
    (hreset : i.reset = false) (hanswers : answers x.bridge = false) :
    Sends (systemStep x i).bridge [] 0 ∧ takenByte x.bridge = [] := by
  obtain ⟨q', n', hnext, hq, -⟩ := hsends.step (i := bridgeInputs x i) hregular hreset hanswers
  obtain ⟨htaken, rfl⟩ := List.append_eq_nil_iff.mp hq.symm
  obtain ⟨rfl, -⟩ := hnext.still_of_nil
  exact ⟨hnext, htaken⟩

/-- A cycle in which no byte is received and none is owed by the serialiser. -/
structure Undisturbed (x : Mapped S p R) (i : Rx) : Prop where
  assembles : Assembles x.bridge []
  sends : Sends x.bridge [] 0
  regular : AxiUartTx.Regular x.bridge.uartTx
  reset : i.reset = false
  valid : i.uartRxValid = false

/-- The transaction is served on. -/
theorem phase_serving (h : Undisturbed x i) (hnext : Serving (systemStep x i) t todo' enables' n')
    (hanswers : answers x.bridge = false)
    (hanswer : answer (registers (systemStep x i)) t = answer (registers x) t)
    (htodo : ∃ done, todo = done ++ todo' ∧
      registers (systemStep x i) = run apply (registers x) done)
    (henables : ∃ now, enables = now ++ enables' ∧ Enables x now) (hn : n' ≤ n - 1) :
    ∃ o', Phase (systemStep x i) [] o' ∧
      Conserves x i [] ⟨todo, enables, bytesOf (answer (registers x) t), n⟩ o' := by
  obtain ⟨hsends', htaken⟩ := still_step h.sends h.regular h.reset hanswers
  obtain ⟨hassembles', -⟩ := h.assembles.wait (i := bridgeInputs x i) h.reset h.valid
  refine ⟨_, .serving t todo' enables' n' hnext hassembles' hsends', ?_⟩
  refine ⟨by simpa using htodo, by simpa using henables, ?_, fun _ _ => hn⟩
  simp [htaken, hanswer]

/-- The registers and the enables have not changed. -/
theorem phase_waiting (h : Undisturbed x i) (hnext : Serving (systemStep x i) t todo enables n')
    (hanswers : answers x.bridge = false) (hrests : ∀ j, Rests x j) (hn : n' ≤ n - 1) :
    ∃ o', Phase (systemStep x i) [] o' ∧
      Conserves x i [] ⟨todo, enables, bytesOf (answer (registers x) t), n⟩ o' := by
  have hregisters := registers_of_rests hrests (i := i)
  exact phase_serving h hnext hanswers (by rw [hregisters]) ⟨[], rfl, hregisters⟩
    ⟨[], rfl, enables_of_rests hrests⟩ hn

/-- The transaction has been served, and its answer is handed over. -/
theorem phase_answered {w : Bool} (h : Undisturbed x i) (hwaits : Waits x a w)
    (hpending : (control x (slaveOf S a)).slaveResponsePending = true)
    (hanswer : (if x.bridge.isWriteOpR then x.bridge.writeData else activeData x.bridge) =
      answer (registers x) t)
    (hrests : ∀ j, Rests (systemStep x i) j)
    (hregisters : registers (systemStep x i) = registers x) (henables : Enables x enables)
    (hn : 4 * bytePeriod p + 2 ≤ n) :
    ∃ o', Phase (systemStep x i) [] o' ∧
      Conserves x i [] ⟨[], enables, bytesOf (answer (registers x) t), n⟩ o' := by
  have htaken : takenByte x.bridge = [] := by
    obtain ⟨-, -, -, huart, -⟩ := h.sends.still_of_nil
    simp [takenByte, huart]
  obtain ⟨hassembles', hrx'⟩ := h.assembles.wait (i := bridgeInputs x i) h.reset h.valid
  have hsends' := h.sends.answer (i := bridgeInputs x i) (hwaits.answers_eq.trans hpending)
  rw [hanswer] at hsends'
  refine ⟨_, .idle [] _ _ hassembles' hrx' (hwaits.idle h.reset hpending)
    ⟨hrests, hwaits.doRead_step, hwaits.doWrite_step⟩ hsends' (fun h => absurd rfl h), ?_⟩
  refine ⟨⟨[], rfl, hregisters⟩, ⟨enables, by simp, henables⟩, ?_, fun _ _ => ?_⟩
  · simp [htaken]
  · simp only
    omega

/-- One cycle of a slave's read. -/
theorem phase_reading {k : ℕ} (h : Undisturbed x i) (hk : k < 5) (hwaits : Waits x a false)
    (hread : ∀ j, x.bridge.slaveDoRead j = false) (hwrite : ∀ j, x.bridge.slaveDoWrite j = false)
    (hlane : Reading x (slaveOf S a) k (registerOf _ a))
    (hothers : ∀ j ≠ slaveOf S a, Rests x j) :
    ∃ o', Phase (systemStep x i) [] o' ∧
      Conserves x i [] ⟨[], if k < 3 then [.read a] else [],
        bytesOf (answer (registers x) (.read a)), 4 * bytePeriod p + (6 - k)⟩ o' := by
  have henables := enables_of_reading hlane hothers
  have hothers' := others_step hothers h.reset hread hwrite
  by_cases hlast : k = 4
  · -- the data are there
    subst hlast
    have hpending : (control x (slaveOf S a)).slaveResponsePending = true := by
      rw [hlane.control]
      rfl
    obtain ⟨hrests, hlane'⟩ := hlane.done h.reset (hread _) (hwrite _) hwaits.clearResponsePending
    refine phase_answered h hwaits hpending ?_ (rests_of_lane hrests hothers')
      (registers_of_lane_eq hlane' hothers) henables (by omega)
    rw [hwaits.asked.isWriteOpR, hwaits.asked.activeData_eq]
    exact hlane.data rfl
  · have hpending : (control x (slaveOf S a)).slaveResponsePending = false := by
      rw [hlane.control]
      interval_cases k <;> first | rfl | contradiction
    obtain ⟨hnext, hlane'⟩ := hlane.step (by omega) hwaits.addressed
      (selects_registerOf (slaveOf S a)) h.reset (hread _) (hwrite _)
    have hregisters := registers_of_lane_eq hlane' hothers
    refine phase_serving h (.reading a (k + 1) (by omega) (hwaits.step h.reset hpending)
      hwaits.doRead_step hwaits.doWrite_step hnext hothers') (hwaits.answers_eq.trans hpending)
      (by rw [hregisters]) ⟨[], rfl, hregisters⟩ ⟨_, ?_, henables⟩ (by omega)
    interval_cases k <;> rfl

/-- One cycle of a slave's write. -/
theorem phase_writing {k : ℕ} (h : Undisturbed x i) (hk : k < 3) (hwaits : Waits x a true)
    (hdata : x.bridge.writeData = v) (hread : ∀ j, x.bridge.slaveDoRead j = false)
    (hwrite : ∀ j, x.bridge.slaveDoWrite j = false)
    (hlane : Writing x (slaveOf S a) k (registerOf _ a) v)
    (hothers : ∀ j ≠ slaveOf S a, Rests x j) :
    ∃ o', Phase (systemStep x i) [] o' ∧
      Conserves x i [] ⟨if k < 2 then [.write a v] else [], [.write a v],
        bytesOf (answer (registers x) (.write a v)), 4 * bytePeriod p + (4 - k)⟩ o' := by
  have henables := enables_of_writing hlane hothers
  have hothers' := others_step hothers h.reset hread hwrite
  by_cases hlast : k = 2
  · -- the slave has answered
    subst hlast
    have hpending : (control x (slaveOf S a)).slaveResponsePending = true := by
      rw [hlane.control]
      rfl
    obtain ⟨hrests, hlane'⟩ := hlane.done h.reset (hread _) (hwrite _) hwaits.clearResponsePending
    refine phase_answered h hwaits hpending ?_ (rests_of_lane hrests hothers')
      (registers_of_lane_eq hlane' hothers) henables (by omega)
    rw [hwaits.asked.isWriteOpR, hdata]
    rfl
  · have hpending : (control x (slaveOf S a)).slaveResponsePending = false := by
      rw [hlane.control]
      interval_cases k <;> first | rfl | contradiction
    obtain ⟨hnext, hlane'⟩ := hlane.step (by omega) hwaits.addressed
      (selects_registerOf (slaveOf S a)) h.reset (hread _) (hwrite _)
    have hregisters := registers_of_lane hlane' hothers
    refine phase_serving h (.writing a v (k + 1) (by omega) (hwaits.step h.reset hpending)
      (hwaits.writeData_step.trans hdata) hwaits.doRead_step hwaits.doWrite_step hnext hothers')
      (hwaits.answers_eq.trans hpending) rfl
      ⟨if k = 1 then [.write a v] else [], ?_, ?_⟩ ⟨[], rfl, ?_⟩ (by omega)
    · interval_cases k <;> rfl
    · rw [hregisters]
      split
      · rfl
      · exact Function.update_eq_self _ _
    · rwa [if_neg hlast] at henables

/-- **One cycle of a transaction** in which no byte is received. -/
theorem Serving.step (h : Serving x t todo enables n) (hquiet : Undisturbed x i) :
    ∃ o', Phase (systemStep x i) [] o' ∧
      Conserves x i [] ⟨todo, enables, bytesOf (answer (registers x) t), n⟩ o' := by
  have hreset := hquiet.reset
  cases h with
  | readAddress a hbit hfsm hrx hbuffer hlanes =>
    have hasked := asked_step (i := i) (x := x) (by simp [takesAddress, hfsm, hrx]) hbuffer
    rw [hbit] at hasked
    have hfsm' : (systemStep x i).bridge.fsmState = .start := by
      simp [systemStep, UartApbBridge.step, hreset, advance, hfsm, hrx]
    have hlanes' := hlanes.step hreset (by simp [startsRead, hfsm]) (by simp [takesData, hfsm])
    exact phase_waiting hquiet (.readStart a hfsm' hasked hlanes') (by simp [answers, hfsm])
      hlanes.rests (by omega)
  | readStart a hfsm hasked hlanes =>
    obtain ⟨hasked', haddressed⟩ := hasked.step (i := i) (by simp [takesAddress, hfsm])
    have hstarts : startsRead x.bridge = true := by simp [startsRead, hfsm, hasked.isWriteOpR]
    have hwaits : Waits (systemStep x i) a false := by
      refine ⟨?_, hasked', haddressed, rfl⟩
      simp [systemStep, UartApbBridge.step, hreset, advance, hfsm, hasked.isWriteOpR]
    have hwrite (j : Fin (2 ^ S)) : (systemStep x i).bridge.slaveDoWrite j = false := by
      simp [systemStep, UartApbBridge.step, takesData, hfsm]
    exact phase_waiting hquiet (.readAsked a hwaits (hlanes.rests_step hreset)
      (hasked.slaveDoRead_step hstarts) hwrite) (by simp [answers, hfsm]) hlanes.rests (by omega)
  | readAsked a hwaits hrests hread hwrite =>
    have hpending := (hrests (slaveOf S a)).slaveResponsePending
    have hlane := reading_zero (hrests (slaveOf S a)) hwaits.addressed
      (selects_registerOf (slaveOf S a)) hreset (by simp [hread]) (hwrite _)
    have hothers (j : Fin (2 ^ S)) (hj : j ≠ slaveOf S a) : Rests (systemStep x i) j :=
      (hrests j).step hreset (by simp [hread, hj]) (hwrite j)
    exact phase_waiting hquiet (.reading a 0 (by omega) (hwaits.step hreset hpending)
      hwaits.doRead_step hwaits.doWrite_step hlane hothers) (hwaits.answers_eq.trans hpending)
      hrests (by omega)
  | reading a k hk hwaits hread hwrite hlane hothers =>
    exact phase_reading hquiet hk hwaits hread hwrite hlane hothers
  | data a v hfsm hasked hrx hbuffer hlanes =>
    obtain ⟨hasked', haddressed⟩ := hasked.step (i := i) (by simp [takesAddress, hfsm])
    have htakes : takesData x.bridge = true := by simp [takesData, hfsm, hrx]
    have hwaits : Waits (systemStep x i) a true := by
      refine ⟨?_, hasked', haddressed, rfl⟩
      simp [systemStep, UartApbBridge.step, hreset, advance, hfsm, hrx]
    have hread (j : Fin (2 ^ S)) : (systemStep x i).bridge.slaveDoRead j = false := by
      simp [systemStep, UartApbBridge.step, startsRead, hfsm]
    have hdata : (systemStep x i).bridge.writeData = v := by
      simp [systemStep, UartApbBridge.step, htakes, hbuffer]
    exact phase_waiting hquiet (.writeAsked a v hwaits hdata (hlanes.rests_step hreset) hread
      (hasked.slaveDoWrite_step htakes)) (by simp [answers, hfsm]) hlanes.rests (by omega)
  | writeAsked a v hwaits hdata hrests hread hwrite =>
    have hpending := (hrests (slaveOf S a)).slaveResponsePending
    have hlane := writing_zero (hrests (slaveOf S a)) hwaits.addressed
      (selects_registerOf (slaveOf S a)) hreset (hread _) (by simp [hwrite]) hdata
    have hothers (j : Fin (2 ^ S)) (hj : j ≠ slaveOf S a) : Rests (systemStep x i) j :=
      (hrests j).step hreset (hread j) (by simp [hwrite, hj])
    exact phase_waiting hquiet (.writing a v 0 (by omega) (hwaits.step hreset hpending)
      (hwaits.writeData_step.trans hdata) hwaits.doRead_step hwaits.doWrite_step hlane hothers)
      (hwaits.answers_eq.trans hpending) hrests (by omega)
  | writing a v k hk hwaits hdata hread hwrite hlane hothers =>
    exact phase_writing hquiet hk hwaits hdata hread hwrite hlane hothers

/-! ## The host's side -/

variable {d : List (BitVec 8)}

/-- The word is not complete. -/
theorem Assembles.more (h : Assembles x.bridge d) (hreset : i.reset = false)
    (hmore : i.uartRxValid = true → d.length < 3) :
    Assembles (systemStep x i).bridge (d ++ received x i) ∧
      (systemStep x i).bridge.rxValid = false := by
  cases hvalid : i.uartRxValid with
  | false =>
    rw [received, hvalid, if_neg Bool.false_ne_true, List.append_nil]
    exact h.wait (i := bridgeInputs x i) hreset hvalid
  | true =>
    rw [received, hvalid, if_pos rfl]
    exact h.byte (i := bridgeInputs x i) hreset hvalid (hmore hvalid)

theorem host_address_more (hmore : i.uartRxValid = true → d.length < 3) :
    run hostStep d (received x i) = d ++ received x i ∧
      collect hostStep hostEmit d (received x i) = [] := by
  cases hvalid : i.uartRxValid with
  | false => simp [received, hvalid]
  | true =>
    obtain ⟨hstep, hemit⟩ := host_address (hmore hvalid) i.uartRxData
    simp [received, hvalid, hstep, hemit]

theorem host_data_more (a : BitVec 32) (hmore : i.uartRxValid = true → d.length < 3) :
    run hostStep (bytesOf a ++ d) (received x i) = bytesOf a ++ (d ++ received x i) ∧
      collect hostStep hostEmit (bytesOf a ++ d) (received x i) = [] := by
  cases hvalid : i.uartRxValid with
  | false => simp [received, hvalid]
  | true =>
    obtain ⟨hstep, hemit⟩ := host_data a (hmore hvalid) i.uartRxData
    simp [received, hvalid, hstep, hemit]

/-- Nothing happens but on the host's side. -/
theorem conserves_of_still {n : ℕ} (hrests : ∀ j, Rests x j) (htaken : takenByte x.bridge = []) :
    Conserves x i [] ⟨[], [], [], n⟩ ⟨[], [], [], 0⟩ :=
  ⟨⟨[], rfl, registers_of_rests hrests⟩, ⟨[], rfl, enables_of_rests hrests⟩, by simp [htaken],
    fun _ _ => Nat.zero_le _⟩

theorem idle_step (hreset : i.reset = false) (hfsm : x.bridge.fsmState = .idle)
    (hrx : x.bridge.rxValid = false) (hlanes : Resting x) :
    (systemStep x i).bridge.fsmState = .idle ∧ Resting (systemStep x i) := by
  refine ⟨?_, hlanes.step hreset ?_ ?_⟩
  · simp [systemStep, UartApbBridge.step, hreset, advance, hfsm, hrx]
  · simp [startsRead, hfsm]
  · simp [takesData, hfsm]

/-- A cycle without the last byte of an address. -/
theorem phase_collecting {q : List (BitVec 8)} (hassembles : Assembles x.bridge d)
    (hrx : x.bridge.rxValid = false) (hfsm : x.bridge.fsmState = .idle) (hlanes : Resting x)
    (hsends : Sends x.bridge q n) (hd : d ≠ [] → q = [])
    (hregular : AxiUartTx.Regular x.bridge.uartTx) (hreset : i.reset = false)
    (hhost : i.uartRxValid = true → d = [] → q = [])
    (hmore : i.uartRxValid = true → d.length < 3) :
    ∃ o', Phase (systemStep x i) (run hostStep d (received x i)) o' ∧
      Conserves x i (collect hostStep hostEmit d (received x i)) ⟨[], [], q, n⟩ o' := by
  obtain ⟨hfsm', hlanes'⟩ := idle_step (i := i) hreset hfsm hrx hlanes
  obtain ⟨hassembles', hrx'⟩ := hassembles.more hreset hmore
  obtain ⟨hrun, hcollect⟩ := host_address_more (x := x) hmore
  obtain ⟨q', n', hsends', hq, hn⟩ := hsends.step (i := bridgeInputs x i) hregular hreset
    (by simp [answers, hfsm])
  rw [hrun, hcollect]
  refine ⟨_, .idle _ q' n' hassembles' hrx' hfsm' hlanes' hsends' fun hne => ?_, ?_⟩
  · have hnil : q = [] := by
      by_cases hg : d = []
      · refine hhost ?_ hg
        by_contra hvalid
        simp [hg, received, hvalid] at hne
      · exact hd hg
    exact (List.append_eq_nil_iff.mp (hq.symm.trans hnil)).2
  · exact ⟨⟨[], rfl, registers_of_rests hlanes.rests⟩,
      ⟨[], rfl, enables_of_rests hlanes.rests⟩, by simpa using hq, fun hp _ => hn hp⟩

/-- The last byte of an address: a read begins, or the data are waited for. -/
theorem phase_address {b₀ b₁ b₂ : BitVec 8} (hassembles : Assembles x.bridge [b₀, b₁, b₂])
    (hrx : x.bridge.rxValid = false) (hfsm : x.bridge.fsmState = .idle) (hlanes : Resting x)
    (hsends : Sends x.bridge [] 0) (hregular : AxiUartTx.Regular x.bridge.uartTx)
    (hreset : i.reset = false) (hvalid : i.uartRxValid = true) :
    ∃ o', Phase (systemStep x i) (run hostStep [b₀, b₁, b₂] (received x i)) o' ∧
      Conserves x i (collect hostStep hostEmit [b₀, b₁, b₂] (received x i)) ⟨[], [], [], 0⟩ o' := by
  obtain ⟨hfsm', hlanes'⟩ := idle_step (i := i) hreset hfsm hrx hlanes
  obtain ⟨hsends', htaken⟩ := still_step (i := i) hsends hregular hreset (by simp [answers, hfsm])
  obtain ⟨hassembles', hrx', hbuffer⟩ := hassembles.last (i := bridgeInputs x i) hreset hvalid
  rw [received, hvalid, if_pos rfl, run_cons, run_nil, collect_cons, collect_nil,
    List.append_nil]
  cases hbit : (word b₀ b₁ b₂ i.uartRxData).getLsbD 31 with
  | true =>
    obtain ⟨hstep, hemit⟩ := host_writeAddress hbit
    rw [hstep, hemit]
    exact ⟨_, .writeAddress _ hbit hassembles' hrx' hbuffer hfsm' hlanes' hsends',
      conserves_of_still hlanes.rests htaken⟩
  | false =>
    obtain ⟨hstep, hemit⟩ := host_read hbit
    have hregisters := registers_of_rests hlanes.rests (i := i)
    rw [hstep, hemit]
    refine ⟨_, .serving _ _ _ _ (.readAddress _ hbit hfsm' hrx' hbuffer hlanes') hassembles'
      hsends', ⟨[_], rfl, hregisters⟩, ⟨[], rfl, enables_of_rests hlanes.rests⟩, ?_,
      fun _ h => ?_⟩
    · simp [htaken, hregisters]
    · simp [hvalid] at h

/-- **One cycle of the bridge** with its slaves. -/
theorem Phase.step {g : List (BitVec 8)} {o : Owed} (h : Phase x g o)
    (hregular : AxiUartTx.Regular x.bridge.uartTx) (hreset : i.reset = false)
    (hhost : i.uartRxValid = true → g = [] → o.bytes = []) :
    ∃ o', Phase (systemStep x i) (run hostStep g (received x i)) o' ∧
      Conserves x i (collect hostStep hostEmit g (received x i)) o o' := by
  cases h with
  | idle _ q n hassembles hrx hfsm hlanes hsends hd =>
    by_cases hmore : i.uartRxValid = true → g.length < 3
    · exact phase_collecting hassembles hrx hfsm hlanes hsends hd hregular hreset hhost hmore
    · obtain ⟨hvalid, hlength⟩ := Classical.not_imp.mp hmore
      obtain ⟨b₀, b₁, b₂, rfl⟩ := hassembles.exists_eq hlength
      obtain rfl := hd (List.cons_ne_nil _ _)
      obtain ⟨rfl, -⟩ := hsends.still_of_nil
      exact phase_address hassembles hrx hfsm hlanes hsends hregular hreset hvalid
  | writeAddress a hbit hassembles hrx hbuffer hfsm hlanes hsends =>
    obtain ⟨hsends', htaken⟩ := still_step (i := i) hsends hregular hreset (by simp [answers, hfsm])
    obtain ⟨hassembles', -⟩ := hassembles.more hreset (fun _ => by simp)
    obtain ⟨hrun, hcollect⟩ := host_data_more (x := x) (i := i) (d := []) a (fun _ => by simp)
    rw [List.append_nil] at hrun hcollect
    rw [hrun, hcollect]
    have hasked := asked_step (i := i) (x := x) (by simp [takesAddress, hfsm, hrx]) hbuffer
    rw [hbit] at hasked
    refine ⟨_, .writeStart a _ ?_ hassembles' ?_ hasked (hlanes.step hreset ?_ ?_) hsends',
      conserves_of_still hlanes.rests htaken⟩
    · rw [received]
      split <;> simp
    · simp [systemStep, UartApbBridge.step, hreset, advance, hfsm, hrx]
    · simp [startsRead, hfsm]
    · simp [takesData, hfsm]
  | writeStart a d hd hassembles hfsm hasked hlanes hsends =>
    obtain ⟨hsends', htaken⟩ := still_step (i := i) hsends hregular hreset (by simp [answers, hfsm])
    obtain ⟨hassembles', hrx'⟩ := hassembles.more hreset (fun _ => by omega)
    obtain ⟨hrun, hcollect⟩ := host_data_more (x := x) (i := i) (d := d) a (fun _ => by omega)
    rw [hrun, hcollect]
    obtain ⟨hasked', -⟩ := hasked.step (i := i) (by simp [takesAddress, hfsm])
    refine ⟨_, .writeData a _ hassembles' hrx' ?_ hasked' (hlanes.step hreset ?_ ?_) hsends',
      conserves_of_still hlanes.rests htaken⟩
    · simp [systemStep, UartApbBridge.step, hreset, advance, hfsm, hasked.isWriteOpR]
    · simp [startsRead, hasked.isWriteOpR]
    · simp [takesData, hfsm]
  | writeData a d hassembles hrx hfsm hasked hlanes hsends =>
    obtain ⟨hsends', htaken⟩ := still_step (i := i) hsends hregular hreset (by simp [answers, hfsm])
    obtain ⟨hasked', -⟩ := hasked.step (i := i) (by simp [takesAddress, hfsm])
    have hfsm' : (systemStep x i).bridge.fsmState = .waitForWriteData := by
      simp [systemStep, UartApbBridge.step, hreset, advance, hfsm, hrx]
    have hlanes' := hlanes.step hreset (by simp [startsRead, hfsm]) (by simp [takesData, hrx])
    by_cases hmore : i.uartRxValid = true → d.length < 3
    · obtain ⟨hassembles', hrx'⟩ := hassembles.more hreset hmore
      obtain ⟨hrun, hcollect⟩ := host_data_more (x := x) a hmore
      rw [hrun, hcollect]
      exact ⟨_, .writeData a _ hassembles' hrx' hfsm' hasked' hlanes' hsends',
        conserves_of_still hlanes.rests htaken⟩
    · -- the last byte of the data
      obtain ⟨hvalid, hlength⟩ := Classical.not_imp.mp hmore
      obtain ⟨b₀, b₁, b₂, rfl⟩ := hassembles.exists_eq hlength
      obtain ⟨hassembles', hrx', hbuffer⟩ :=
        hassembles.last (i := bridgeInputs x i) hreset hvalid
      obtain ⟨hstep, hemit⟩ := host_write a b₀ b₁ b₂ i.uartRxData
      rw [received, hvalid, if_pos rfl, run_cons, run_nil, collect_cons, collect_nil,
        List.append_nil, hstep, hemit]
      refine ⟨_, .serving _ _ _ _ (.data a _ hfsm' hasked' hrx' hbuffer hlanes') hassembles'
        hsends', ⟨[], rfl, registers_of_rests hlanes.rests⟩,
        ⟨[], rfl, enables_of_rests hlanes.rests⟩, ?_, fun _ h => ?_⟩
      · simp [htaken, answer, bridgeInputs]
      · simp [hvalid] at h
  | serving t todo enables n hserving hassembles hsends =>
    have hvalid : i.uartRxValid = false := by
      by_contra hne
      exact List.cons_ne_nil _ _ (hhost (by simpa using hne) rfl)
    rw [received, hvalid, if_neg Bool.false_ne_true]
    exact hserving.step ⟨hassembles, hsends, hregular, hreset, hvalid⟩

end Step

/-! ## The bounds -/

theorem Serving.le {t : Transaction} {todo enables : List Transaction} {n : ℕ}
    (h : Serving x t todo enables n) :
    todo.length ≤ 1 ∧ enables.length ≤ 1 ∧ 0 < n ∧ n ≤ 4 * bytePeriod p + 9 := by
  cases h with
  | readAddress | readStart | readAsked | data | writeAsked =>
    refine ⟨?_, ?_, ?_, ?_⟩ <;> simp
  | reading a k hk =>
    refine ⟨by simp, ?_, by omega, by omega⟩
    split <;> simp
  | writing a v k hk =>
    refine ⟨?_, by simp, by omega, by omega⟩
    split <;> simp

/-- At most one transaction is being served, and for a bounded number of cycles. -/
theorem Phase.le {g : List (BitVec 8)} {o : Owed} (h : Phase x g o) :
    o.todo.length ≤ 1 ∧ o.enables.length ≤ 1 ∧ o.cycles ≤ 4 * bytePeriod p + 9 := by
  cases h with
  | idle d q n hassembles hrx hfsm hlanes hsends =>
    exact ⟨by simp, by simp, hsends.le.trans (by simp)⟩
  | writeAddress | writeStart | writeData => simp
  | serving t todo enables n hserving =>
    obtain ⟨htodo, henables, -, hn⟩ := hserving.le
    exact ⟨htodo, henables, hn⟩

/-- When no byte is owed, nothing is. -/
theorem Phase.settled {g : List (BitVec 8)} {o : Owed} (h : Phase x g o) (ho : o.bytes = []) :
    o.todo = [] ∧ o.enables = [] := by
  cases h with
  | idle | writeAddress | writeStart | writeData => exact ⟨rfl, rfl⟩
  | serving => exact absurd ho (List.cons_ne_nil _ _)

theorem Phase.bytes_eq_nil {g : List (BitVec 8)} {o : Owed} (h : Phase x g o)
    (ho : o.cycles = 0) : o.bytes = [] := by
  cases h with
  | idle d q n hassembles hrx hfsm hlanes hsends =>
    obtain rfl : n = 0 := ho
    exact hsends.eq_nil
  | writeAddress | writeStart | writeData => rfl
  | serving t todo enables n hserving =>
    obtain ⟨-, -, hpos, -⟩ := hserving.le
    exact absurd ho hpos.ne'

theorem Phase.cycles_eq_zero {g : List (BitVec 8)} {o : Owed} (h : Phase x g o)
    (ho : o.bytes = []) : o.cycles = 0 := by
  cases h with
  | idle d q n hassembles hrx hfsm hlanes hsends =>
    obtain rfl : q = [] := ho
    exact hsends.still_of_nil.1
  | writeAddress | writeStart | writeData => rfl
  | serving => exact absurd ho (List.cons_ne_nil _ _)

/-- Nothing is owed at first. -/
theorem phase_powerUp (h : SystemPowerUp x) : Phase x [] ⟨[], [], [], 0⟩ := by
  have hbridge := h.bridge
  have hrests (j : Fin (2 ^ S)) : Rests x j :=
    ⟨hbridge.apbMasterState j, hbridge.psel j, hbridge.slaveResponsePending j,
      (h.slaves j).pready, (h.slaves j).preadyR, (h.slaves j).regRenSig, (h.slaves j).regWenOut⟩
  exact .idle [] [] 0 ⟨hbridge.rxCounterU, by simp, nofun⟩ hbridge.rxValid hbridge.fsmState
    ⟨hrests, hbridge.slaveDoRead, hbridge.slaveDoWrite⟩
    (.still hbridge.txValid hbridge.txValidL hbridge.uartTxValid hbridge.txCounterU)
    (fun h => absurd rfl h)

end RmiiEthernet.UartApbBridge
