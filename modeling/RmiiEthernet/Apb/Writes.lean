import RmiiEthernet.Apb.Bridge
import RmiiEthernet.Sync.Run
import Mathlib.Data.List.Chain

/-!
# What is written over a bus

`accesses` lists the writes of a run of bus cycles. If each of them comes behind a cycle with its
address, as the setup phase of APB has it (`SetUp`), the register block stores them one after the
other, each in the register that its address reaches (`regWdataOut_run`), whatever is read besides.
The masters of `uart_apb_bridge` keep to that in every run without a reset (`setUp_bus`).
-/

namespace RmiiEthernet.ComponentRegisterBlock

open Sync Utils Apb

/-- The writes of some cycles, with their addresses. -/
def accesses (cs : List Cmd) : List (BitVec 8 × BitVec 32) :=
  (cs.filter fun c => writes c).map fun c => (c.paddr, c.pwdata)

/-- A write comes behind a cycle with its address. -/
def SetUp (cs : List Cmd) : Prop :=
  (∀ c ∈ cs.head?, writes c = false) ∧
    cs.IsChain fun c c' => writes c' = true → c.paddr = c'.paddr

instance (cs : List Cmd) : Decidable (SetUp cs) := inferInstanceAs (Decidable (_ ∧ _))

section Block

variable {n : ℕ} {k : Fin n}

/-- The register that an address reaches, if there is one. -/
def reaches (k : Fin n) (a : BitVec 8) : Bool := k.val == (a.setWidth (log2Ceil n)).toNat

/-- The content of a register after some writes. -/
def stored (k : Fin n) (d : BitVec 32) (ws : List (BitVec 8 × BitVec 32)) : BitVec 32 :=
  ws.foldl (fun d w => if reaches k w.1 then w.2 else d) d

theorem stored_append (d : BitVec 32) (ws vs : List (BitVec 8 × BitVec 32)) :
    stored k d (ws ++ vs) = stored k (stored k d ws) vs := List.foldl_append

/-- Writes to other registers. -/
theorem stored_of_not_reaches {ws : List (BitVec 8 × BitVec 32)}
    (h : ∀ w ∈ ws, reaches k w.1 = false) (d : BitVec 32) : stored k d ws = d := by
  induction ws with
  | nil => rfl
  | cons w ws ih =>
    rw [stored, List.foldl_cons, h w (by simp), if_neg Bool.false_ne_true]
    exact ih fun v hv => h v (by simp [hv])

theorem accesses_append (cs ds : List Cmd) :
    accesses (cs ++ ds) = accesses cs ++ accesses ds := by
  rw [accesses, List.filter_append, List.map_append]
  rfl

/-- The inputs of the block in one cycle: the bus, and what the registers read back. -/
abbrev BlockInputs (n : ℕ) := Cmd × (Fin n → BitVec 32)

/-- One clock edge of the block, with its inputs as one. -/
def blockStep (s : State n) (i : BlockInputs n) : State n := step s i.1 i.2

theorem SetUp.prefix {cs ds : List Cmd} (h : SetUp (cs ++ ds)) : SetUp cs := by
  obtain ⟨hhead, hchain⟩ := h
  refine ⟨fun c hc => hhead c ?_, hchain.left_of_append⟩
  cases cs with
  | nil => cases hc
  | cons d cs => exact hc

/-- The register of a write has been selected in the cycle before. -/
theorem regSel_of_setUp {s : State n} {is : List (BlockInputs n)} {i : BlockInputs n}
    (h : SetUp ((is ++ [i]).map Prod.fst)) (hw : writes i.1 = true) :
    (run blockStep s is).regSel k = reaches k i.1.paddr := by
  obtain ⟨hhead, hchain⟩ := h
  rcases List.eq_nil_or_concat is with rfl | ⟨is, j, rfl⟩
  · exact absurd (hhead i.1 rfl) (by simp [hw])
  · rw [List.concat_eq_append] at hchain ⊢
    simp only [List.map_append, List.append_assoc, List.singleton_append] at hchain
    have hlast : j.1.paddr = i.1.paddr :=
      (List.isChain_cons_cons.mp hchain.right_of_append).1 hw
    rw [run_concat, reaches, ← hlast]
    rfl

/-- **The registers after a run** hold what has been written to them last. -/
theorem regWdataOut_run (s : State n) {is : List (BlockInputs n)} (h : SetUp (is.map Prod.fst)) :
    (run blockStep s is).regWdataOut k =
      stored k (s.regWdataOut k) (accesses (is.map Prod.fst)) := by
  induction is using List.reverseRecOn with
  | nil => rfl
  | append_singleton is i ih =>
    have hbefore : SetUp (is.map Prod.fst) := by
      rw [List.map_append] at h
      exact h.prefix
    have hstep : (run blockStep s (is ++ [i])).regWdataOut k =
        if writes i.1 && (run blockStep s is).regSel k then i.1.pwdata
        else (run blockStep s is).regWdataOut k := by
      rw [run_concat]
      rfl
    rw [hstep, ih hbefore, List.map_append, accesses_append, stored_append]
    cases hw : writes i.1 with
    | false => simp [accesses, hw, stored]
    | true =>
      rw [regSel_of_setUp h hw]
      simp [accesses, hw, stored]

end Block

end RmiiEthernet.ComponentRegisterBlock

namespace RmiiEthernet.UartApbBridge

open Sync Utils Apb ComponentRegisterBlock

section Bridge

variable {N p : ℕ} {s : State N (log2Ceil p)} {i : Inputs N} {j : Fin N}

/-- While a master works, the state machine waits for it and the address stands still. -/
structure Attends (s : State N (log2Ceil p)) (j : Fin N) : Prop where
  waits : (s.masters j).apbMasterState ≠ .idle ∨ s.slaveDoRead j = true ∨ s.slaveDoWrite j = true →
    s.fsmState = .waitForResponse ∧ s.activeSlaveR = j.val
  paddr : (s.masters j).apbMasterState ≠ .idle → (s.masters j).apbCmdOut.paddr = s.slaveAddrR
  pending : (s.masters j).slaveResponsePending = true →
    (s.masters j).apbMasterState = .idle ∧ s.slaveDoRead j = false ∧ s.slaveDoWrite j = false
  cleared : s.clearResponsePending = false → (s.masters j).slaveResponsePending = false

theorem attends_powerUp (h : PowerUp s) : Attends s j where
  waits hbusy := by simp [h.apbMasterState j, h.slaveDoRead j, h.slaveDoWrite j] at hbusy
  paddr hbusy := absurd (h.apbMasterState j) hbusy
  pending hpending := by simp [h.slaveResponsePending j] at hpending
  cleared _ := h.slaveResponsePending j

/-- A master that works goes on, and so does what it was asked for. -/
theorem busy_before (hreset : i.reset = false)
    (hbusy : ((step s i).masters j).apbMasterState ≠ .idle) :
    (s.masters j).apbMasterState ≠ .idle ∨ s.slaveDoRead j = true ∨ s.slaveDoWrite j = true := by
  by_contra hrest
  simp only [not_or, Bool.not_eq_true, not_not] at hrest
  simp [step, masterStep, hreset, hrest] at hbusy

theorem Attends.step (h : Attends s j) (hreset : i.reset = false) :
    Attends (UartApbBridge.step s i) j := by
  have hwaiting (hw : s.fsmState = .waitForResponse) : takesAddress s = false := by
    simp [takesAddress, hw]
  have hgoes : (s.masters j).apbMasterState ≠ .idle ∨ s.slaveDoRead j = true ∨
      s.slaveDoWrite j = true → advance s = .waitForResponse := by
    intro hbusy
    obtain ⟨hfsm, hactive⟩ := h.waits hbusy
    have hnone : (s.masters j).slaveResponsePending = false := by
      by_contra hpending
      obtain ⟨h₁, h₂, h₃⟩ := h.pending (by simpa using hpending)
      simp [h₁, h₂, h₃] at hbusy
    simp [advance, hfsm, activePending, hactive, hnone]
  refine ⟨fun hbusy => ?_, fun hbusy => ?_, fun hpending => ?_, fun hclear => ?_⟩
  · rcases hbusy with hbusy | hread | hwrite
    · have hbefore := busy_before hreset hbusy
      obtain ⟨hfsm, hactive⟩ := h.waits hbefore
      simp [UartApbBridge.step, hreset, hgoes hbefore, hwaiting hfsm, hactive]
    · simp only [UartApbBridge.step, startsRead, Bool.and_eq_true, beq_iff_eq,
        Bool.not_eq_true'] at hread
      simp [UartApbBridge.step, hreset, advance, takesAddress, hread]
    · simp only [UartApbBridge.step, takesData, Bool.and_eq_true, beq_iff_eq] at hwrite
      simp [UartApbBridge.step, hreset, advance, takesAddress, hwrite]
  · obtain ⟨hfsm, -⟩ := h.waits (busy_before hreset hbusy)
    simp [UartApbBridge.step, masterStep, hwaiting hfsm]
  · have hdone : (s.masters j).apbMasterState = .access ∧ (i.apbRspIn j).pready = true := by
      cases hclear : s.clearResponsePending with
      | true => simpa [UartApbBridge.step, masterStep, hclear] using hpending
      | false => simpa [UartApbBridge.step, masterStep, h.cleared hclear] using hpending
    obtain ⟨hfsm, -⟩ := h.waits (.inl (by simp [hdone.1]))
    simp [UartApbBridge.step, masterStep, hreset, hdone, startsRead, takesData, hfsm]
  · simp [UartApbBridge.step] at hclear

/-- What a master puts on its bus in a run. -/
def cmds (j : Fin N) (s : State N (log2Ceil p)) (is : List (Inputs N)) : List Cmd :=
  collect step (fun s _ => [(s.masters j).apbCmdOut]) s is

theorem Attends.isChain {is : List (Inputs N)} (h : Attends s j)
    (hreset : ∀ i ∈ is, i.reset = false) :
    (cmds j s is).IsChain fun c c' => writes c' = true → c.paddr = c'.paddr := by
  induction is generalizing s with
  | nil => exact .nil
  | cons i is ih =>
    refine List.isChain_cons.mpr ⟨?_, ih (h.step (hreset i (by simp))) fun k hk =>
      hreset k (by simp [hk])⟩
    intro c hc hwrites
    cases is with
    | nil => cases hc
    | cons k is =>
      obtain rfl : ((UartApbBridge.step s i).masters j).apbCmdOut = c := by simpa using hc
      -- an access is left over from the cycle before
      have hbusy : (s.masters j).apbMasterState ≠ .idle := by
        intro hidle
        simp [writes, UartApbBridge.step, masterStep, hidle] at hwrites
      rw [h.paddr hbusy]
      rfl

/-- **Every write of the bridge is set up**, whatever the host sends and the slaves answer. -/
theorem setUp_bus {is : List (Inputs N)} (hs : PowerUp s) (hreset : ∀ i ∈ is, i.reset = false) :
    SetUp (cmds j s is) := by
  refine ⟨fun c hc => ?_, (attends_powerUp hs).isChain hreset⟩
  cases is with
  | nil => cases hc
  | cons i is =>
    obtain rfl : (s.masters j).apbCmdOut = c := by simpa [cmds] using hc
    simp [writes, hs.psel j]

end Bridge

end RmiiEthernet.UartApbBridge
