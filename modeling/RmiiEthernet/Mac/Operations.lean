import RmiiEthernet.Driver.MdioComp
import RmiiEthernet.Mac.Circuit
import RmiiEthernet.Mdio.Phases

/-!
# The operations that the host starts

While `mdio` works on an operation, the control register says neither that the interface is ready
nor that there is a response. All that is left of it is the bit the host has written, and it is the
one that `mdio_comp` takes for an answer (`early_report`).

The register itself tells the truth: once an operation is taken, a response comes only behind its
end, in every run without a reset (`exists_done`).
-/

namespace RmiiEthernet.RmiiMacComp

open Sync Utils

variable {n : ℕ} {s : State (Mdio.counterBits n)} {i : Inputs}

/-! ## The control register -/

/-- The last bit of the list is bit 0 of the word. -/
theorem getLsbD_padBits (bs : List Bool) {k : ℕ} (hk : k < 32) :
    (padBits bs).getLsbD k = bs.reverse.getD k false := by
  induction bs using List.reverseRecOn generalizing k with
  | nil => simp [padBits]
  | append_singleton bs b ih =>
    have hlast : padBits (bs ++ [b]) = (padBits bs).shiftConcat b := by
      rw [padBits, List.foldl_append]
      rfl
    rw [hlast, BitVec.getLsbD_shiftConcat, List.reverse_append, List.reverse_singleton,
      List.singleton_append]
    cases k with
    | zero => simp
    | succ k => simpa [hk] using ih (by omega)

/-- The word in which `mdio_comp` looks for its bits. -/
theorem regRdata_control : regRdata s i regNumMdioControl =
    padBits [mdioReady s, s.responseReceived, writeNotRead s] := rfl

theorem getBit_control :
    Driver.getBit (regRdata s i regNumMdioControl) 1 = s.responseReceived := by
  rw [Driver.getBit_eq_getLsbD, regRdata_control, getLsbD_padBits _ (by omega)]
  rfl

/-! ## An operation in progress -/

/-- An operation is in progress, and the response to the one before is gone. -/
structure Running (s : State (Mdio.counterBits n)) : Prop where
  opInProgress : s.mdio.opInProgress = true
  opDone : s.mdio.opDone = false
  responseReceived : s.responseReceived = false

/-- The operation does not end in a cycle, nor is it given up. -/
def Unfinished (s : State (Mdio.counterBits n)) : Prop :=
  reset s = false ∧ s.mdio.fsmState ≠ .done

/-- While an operation is in progress the register holds the bit of the host only. -/
theorem Running.regRdata_control (h : Running s) :
    regRdata s i regNumMdioControl = if writeNotRead s then 1 else 0 := by
  have hready : mdioReady s = false := by simp [mdioReady, Mdio.ready, h.opInProgress]
  rw [RmiiMacComp.regRdata_control, hready, h.responseReceived]
  cases writeNotRead s <;> rfl

/-- The operation is taken in the cycle that clears the response. -/
theorem running_of_taken (hreset : reset s = false) (hsend : s.sendMsg = true)
    (hready : mdioReady s = true) : Running (step s i) := by
  have haccepts : Mdio.accepts s.mdio (mdioInputs s i) = true := by
    simp only [Mdio.accepts, mdioInputs, hsend, Bool.true_and]
    exact hready
  refine ⟨Mdio.opInProgress_accepted hreset haccepts, ?_, ?_⟩
  · obtain ⟨hidle, -⟩ := Mdio.idle_of_accepts haccepts
    simp [step, Mdio.step, Mdio.opFinishedComb, hidle]
  · simp [step, hsend]

theorem Running.step (h : Running s) (hs : Unfinished s) : Running (step s i) := by
  obtain ⟨hreset, hdone⟩ := hs
  have hcomb : Mdio.opFinishedComb s.mdio = false := by simpa [Mdio.opFinishedComb] using hdone
  refine ⟨?_, ?_, ?_⟩
  · simp [RmiiMacComp.step, Mdio.step, mdioInputs, hreset, hcomb, h.opInProgress]
  · simp [RmiiMacComp.step, Mdio.step, hcomb]
  · simp [RmiiMacComp.step, h.opDone, h.responseReceived]

/-- An operation goes on until it ends. -/
theorem Running.run (h : Running s) {is : List Inputs}
    (hs : Always RmiiMacComp.step (fun s _ => Unfinished s) s is) :
    Running (run RmiiMacComp.step s is) :=
  run_invariant (fun _ _ h hs => h.step hs) h hs

theorem Running.exists_done (h : Running s) {is : List Inputs}
    (hreset : Always RmiiMacComp.step (fun s _ => reset s = false) s is)
    (hresponse : (RmiiEthernet.Sync.run RmiiMacComp.step s is).responseReceived = true) :
    ∃ js, js <+: is ∧ (RmiiEthernet.Sync.run RmiiMacComp.step s js).mdio.fsmState = .done := by
  induction is generalizing s with
  | nil =>
    rw [run_nil, h.responseReceived] at hresponse
    cases hresponse
  | cons i is ih =>
    by_cases hdone : s.mdio.fsmState = .done
    · exact ⟨[], List.nil_prefix, hdone⟩
    · obtain ⟨js, hjs, hstate⟩ := ih (h.step ⟨hreset.1, hdone⟩) hreset.2 hresponse
      exact ⟨i :: js, List.prefix_cons_inj i |>.mpr hjs, hstate⟩

/-- **A response is not early**: behind the cycle in which an operation is taken there is none
before the state machine of `mdio` has come to its end, whatever the host does but a reset. -/
theorem exists_done (hsend : s.sendMsg = true) (hready : mdioReady s = true) {is : List Inputs}
    (hreset : Always step (fun s _ => reset s = false) s (i :: is))
    (hresponse : (run step s (i :: is)).responseReceived = true) :
    ∃ js, js <+: is ∧ (run step s (i :: js)).mdio.fsmState = .done :=
  (running_of_taken hreset.1 hsend hready).exists_done hreset.2 hresponse

/-! ## What the driver makes of it -/

section Driver

open RmiiEthernet.Driver RmiiEthernet.Driver.MdioComp

variable {σ : Type*} (c : RegComp σ) (op : Op) (x : σ)

/-- A status in which only the bit of the host is set ends the call. -/
theorem observed_of_status_eq_one (h : ∀ k < 2, op.status c x k = 1#32) :
    op.observed c x = (true, [1#32, 1#32]) := by
  have hbit : getBit 1#32 1 = false := rfl
  have hnext : (upToNonzero 10 fun k => op.status c x (k + 1)) = [1#32] := by
    rw [upToNonzero, h 1 (by omega)]
    simp
  obtain ⟨hresult, hpolled⟩ := observed_eq c op x
  rw [h 0 (by omega), hbit, hnext] at hpolled
  refine Prod.ext (hresult.mpr (.inr ?_)) hpolled
  rw [hnext]
  exact ⟨1#32, List.mem_singleton_self _, by decide⟩

/-- **The driver is early.** In a time in which an operation is in progress and the register says
that it is a write, two polls are enough for a call to say that the operation is complete, without
a response. -/
theorem early_report (hreset : reset s = false) (hsend : s.sendMsg = true)
    (hready : mdioReady s = true) {is : List Inputs}
    (his : Always step (fun s _ => Unfinished s ∧ writeNotRead s = true) (step s i) is)
    (hpolls : ∀ k < 2, ∃ js j, js ++ [j] <+: is ∧
      op.status c x k = regRdata (run step (step s i) js) j regNumMdioControl) :
    (op.observed c x).1 = true ∧ ∀ v ∈ (op.observed c x).2, getBit v 1 = false := by
  have hone : ∀ k < 2, op.status c x k = 1#32 := fun k hk => by
    obtain ⟨js, j, ⟨ks, rfl⟩, hstatus⟩ := hpolls k hk
    obtain ⟨hbefore, hpoll, -⟩ := (always_append _ _ _).mp ((always_append _ _ _).mp his).1
    have hrunning : Running (run step (step s i) js) :=
      (running_of_taken hreset hsend hready).run (hbefore.mono fun _ _ h => h.1)
    rw [hstatus, hrunning.regRdata_control, hpoll.2, if_pos rfl]
    rfl
  rw [observed_of_status_eq_one c op x hone]
  simp [show getBit 1#32 1 = false from rfl]

end Driver

end RmiiEthernet.RmiiMacComp
