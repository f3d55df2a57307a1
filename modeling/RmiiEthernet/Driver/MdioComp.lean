import RmiiEthernet.Driver.RegInterface

/-!
# The driver of the management interface

`mdio_comp` starts an operation by writing the control register and then polls it. The first value
polled has to have the bit `response_received`; of the later ones any bit will do, also those that
say that the interface is ready or that the operation is a write.

`faithful_iff` says for which values a call tells the truth: for those in which the first that is
not zero behind the first poll has the bit.
-/

namespace RmiiEthernet.Driver

variable {σ : Type*}

/-- `reg_mdio_comp_control`. -/
def regMdioCompControl : BitVec 32 := 1

/-- `reg_mdio_comp_phy_addr`. -/
def regMdioCompPhyAddr : BitVec 32 := 3

/-- `reg_mdio_comp_reg_addr`. -/
def regMdioCompRegAddr : BitVec 32 := 4

/-- `reg_mdio_comp_write_data`. -/
def regMdioCompWriteData : BitVec 32 := 5

/-- `reg_mdio_comp_read_data`. -/
def regMdioCompReadData : BitVec 32 := 6

namespace MdioComp

/-! ## The functions -/

section Functions

variable (c : RegComp σ)

/-- The loop of `wait_for_op_complete`. -/
def waitLoop : ℕ → Bool → σ → Bool × σ
  | 0, finished, s => (finished, s)
  | timeout + 1, finished, s =>
    if finished then (finished, s)
    else
      -- `finished` is the word itself, not its bit 1
      let r := c.regRead regMdioCompControl s
      waitLoop timeout (r.1 != 0#32) r.2

/-- `wait_for_op_complete`: the first poll looks at bit 1, and ten more may follow. -/
def waitForOpComplete (s : σ) : Bool × σ :=
  let r := c.regRead regMdioCompControl s
  waitLoop c 10 (getBit r.1 1) r.2

/-- `mdio_read`; `returnData` is what the pointer points to, if it is not null. -/
def mdioRead (phyAddress regAddress : BitVec 16) (returnData : Option (BitVec 16)) (s : σ) :
    Bool × Option (BitVec 16) × σ :=
  let s := c.regWrite regMdioCompPhyAddr (phyAddress.setWidth 32) s
  let s := c.regWrite regMdioCompRegAddr (regAddress.setWidth 32) s
  let s := c.regWrite regMdioCompControl 0 s
  let complete := waitForOpComplete c s
  if complete.1 && returnData.isSome then
    let r := c.regRead regMdioCompReadData complete.2
    (complete.1, some ((r.1 &&& 0xFFFF).setWidth 16), r.2)
  else (complete.1, returnData, complete.2)

/-- `mdio_write`. -/
def mdioWrite (phyAddress regAddress writeData : BitVec 16) (s : σ) : Bool × σ :=
  let s := c.regWrite regMdioCompPhyAddr (phyAddress.setWidth 32) s
  let s := c.regWrite regMdioCompRegAddr (regAddress.setWidth 32) s
  let s := c.regWrite regMdioCompWriteData (writeData.setWidth 32) s
  let s := c.regWrite regMdioCompControl 1 s
  waitForOpComplete c s

end Functions

/-- A call of one of the two functions. -/
inductive Op
  | read (phyAddress regAddress : BitVec 16) (returnData : Option (BitVec 16))
  | write (phyAddress regAddress writeData : BitVec 16)

namespace Op

variable (c : RegComp σ)

/-- What the call returns, and the state it leaves. -/
def call : Op → σ → Bool × σ
  | .read phyAddress regAddress returnData, s =>
    let r := mdioRead c phyAddress regAddress returnData s
    (r.1, r.2.2)
  | .write phyAddress regAddress writeData, s => mdioWrite c phyAddress regAddress writeData s

/-- The state in which the operation has been started and the first poll is due. -/
def started : Op → σ → σ
  | .read phyAddress regAddress _, s =>
    c.regWrite regMdioCompControl 0 <|
      c.regWrite regMdioCompRegAddr (regAddress.setWidth 32) <|
        c.regWrite regMdioCompPhyAddr (phyAddress.setWidth 32) s
  | .write phyAddress regAddress writeData, s =>
    c.regWrite regMdioCompControl 1 <|
      c.regWrite regMdioCompWriteData (writeData.setWidth 32) <|
        c.regWrite regMdioCompRegAddr (regAddress.setWidth 32) <|
          c.regWrite regMdioCompPhyAddr (phyAddress.setWidth 32) s

/-- The values that the polls of the call can find, one after the other. -/
def status (op : Op) (s : σ) (k : ℕ) : BitVec 32 := c.reads regMdioCompControl k (op.started c s)

/-- The result of the call and the values that it has polled. -/
def observed (op : Op) (s : σ) : Bool × List (BitVec 32) :=
  let r := op.call (c.watching regMdioCompControl) (s, [])
  (r.1, r.2.2)

end Op

/-- **What a caller relies on**: the call says that the operation is complete if and only if a value
that it polled had `response_received` set, and it polls eleven times at most. -/
def Faithful (c : RegComp σ) (op : Op) (s : σ) : Prop :=
  ((op.observed c s).1 = true ↔ ∃ v ∈ (op.observed c s).2, getBit v 1 = true) ∧
    (op.observed c s).2.length ≤ 11

/-! ## The loop -/

/-- The values up to the first that is not zero, `n` at most. -/
def upToNonzero : ℕ → (ℕ → BitVec 32) → List (BitVec 32)
  | 0, _ => []
  | n + 1, v => v 0 :: if v 0 = 0#32 then upToNonzero n fun k => v (k + 1) else []

/-- The first of `n` values that is not zero, if there is one, has `response_received`. -/
def FirstResponds (n : ℕ) (v : ℕ → BitVec 32) : Prop :=
  ∀ k < n, (∀ j < k, v j = 0#32) → v k ≠ 0#32 → getBit (v k) 1 = true

theorem length_upToNonzero_le (n : ℕ) (v : ℕ → BitVec 32) : (upToNonzero n v).length ≤ n := by
  induction n generalizing v with
  | zero => exact Nat.le_refl 0
  | succ n ih =>
    rw [upToNonzero, List.length_cons]
    split
    · exact Nat.succ_le_succ (ih _)
    · exact Nat.succ_le_succ (Nat.zero_le n)

theorem firstResponds_succ_iff (n : ℕ) (v : ℕ → BitVec 32) :
    FirstResponds (n + 1) v ↔
      if v 0 = 0#32 then FirstResponds n (fun k => v (k + 1)) else getBit (v 0) 1 = true := by
  split
  · next hzero =>
    constructor
    · intro h k hk hbefore
      refine h (k + 1) (by omega) fun j hj => ?_
      cases j with
      | zero => exact hzero
      | succ j => exact hbefore j (by omega)
    · intro h k hk hbefore hne
      cases k with
      | zero => exact absurd hzero hne
      | succ k => exact h k (by omega) (fun j hj => hbefore (j + 1) (by omega)) hne
  · next hne =>
    constructor
    · intro h
      exact h 0 (Nat.succ_pos n) (by simp) hne
    · intro h k _ hbefore _
      cases k with
      | zero => exact h
      | succ k => exact absurd (hbefore 0 (Nat.succ_pos k)) hne

/-- The loop ends with the first value that is not zero; whether that value answers the question is
another matter. -/
theorem firstResponds_iff (n : ℕ) (v : ℕ → BitVec 32) :
    ((∃ x ∈ upToNonzero n v, x ≠ 0#32) ↔ ∃ x ∈ upToNonzero n v, getBit x 1 = true) ↔
      FirstResponds n v := by
  induction n generalizing v with
  | zero => simp [upToNonzero, FirstResponds]
  | succ n ih =>
    rw [firstResponds_succ_iff, upToNonzero]
    split
    · next hzero =>
      have hbit : getBit 0#32 1 = false := rfl
      rw [← ih]
      simp [hzero, hbit]
    · next hne => simp [hne]

theorem waitLoop_watching (c : RegComp σ) (n : ℕ) (s : σ) (l : List (BitVec 32)) :
    let v := fun k => c.reads regMdioCompControl k s
    let r := waitLoop (c.watching regMdioCompControl) n false (s, l)
    (r.1 = true ↔ ∃ x ∈ upToNonzero n v, x ≠ 0#32) ∧ r.2.2 = l ++ upToNonzero n v := by
  induction n generalizing s l with
  | zero => simp [waitLoop, upToNonzero]
  | succ n ih =>
    intro v r
    have hr : r = waitLoop (c.watching regMdioCompControl) n (v 0 != 0#32)
        ((c.regRead regMdioCompControl s).2, l ++ [v 0]) := by
      simp only [r, waitLoop, Bool.false_eq_true, if_false, RegComp.regRead_watching]
      rfl
    by_cases hzero : v 0 = 0#32
    · have hloop := ih (c.regRead regMdioCompControl s).2 (l ++ [v 0])
      rw [hr, hzero, bne_self_eq_false, upToNonzero, if_pos hzero, hzero]
      rw [hzero] at hloop
      refine ⟨hloop.1.trans ?_, hloop.2.trans ?_⟩
      · simp [v, RegComp.reads]
      · simp [v, RegComp.reads]
    · have hdone : r = (true, (c.regRead regMdioCompControl s).2, l ++ [v 0]) := by
        rw [hr, bne_iff_ne.mpr hzero]
        cases n <;> rfl
      rw [hdone, upToNonzero, if_neg hzero]
      simp [hzero]

/-! ## The calls -/

section Calls

variable (c : RegComp σ)

theorem waitLoop_watching_fst (a : BitVec 32) (n : ℕ) (b : Bool) (x : σ × List (BitVec 32)) :
    (waitLoop (c.watching a) n b x).1 = (waitLoop c n b x.1).1 ∧
      (waitLoop (c.watching a) n b x).2.1 = (waitLoop c n b x.1).2 := by
  induction n generalizing b x with
  | zero => exact ⟨rfl, rfl⟩
  | succ n ih =>
    cases b with
    | true => exact ⟨rfl, rfl⟩
    | false => exact ih _ _

/-- A read fetches the data only if there is a place for them. -/
theorem call_read (phyAddress regAddress : BitVec 16) (returnData : Option (BitVec 16)) (s : σ) :
    let op : Op := .read phyAddress regAddress returnData
    let w := waitForOpComplete c (op.started c s)
    op.call c s = (w.1, if w.1 && returnData.isSome then (c.regRead regMdioCompReadData w.2).2
      else w.2) := by
  intro op w
  simp only [op, Op.call, mdioRead]
  split
  · next h => rw [if_pos (show (w.1 && returnData.isSome) = true from h)]; rfl
  · next h => rw [if_neg (show ¬(w.1 && returnData.isSome) = true from h)]; rfl

/-- Watching the control register does not change a call. -/
theorem call_watching (op : Op) (s : σ) (l : List (BitVec 32)) :
    (op.call (c.watching regMdioCompControl) (s, l)).1 = (op.call c s).1 ∧
      (op.call (c.watching regMdioCompControl) (s, l)).2.1 = (op.call c s).2 := by
  have hwait (x : σ × List (BitVec 32)) :
      (waitForOpComplete (c.watching regMdioCompControl) x).1 = (waitForOpComplete c x.1).1 ∧
        (waitForOpComplete (c.watching regMdioCompControl) x).2.1 = (waitForOpComplete c x.1).2 :=
    waitLoop_watching_fst c _ _ _ _
  cases op with
  | write p a d => exact hwait _
  | read p a d =>
    obtain ⟨h₁, h₂⟩ := hwait ((Op.read p a d).started (c.watching regMdioCompControl) (s, l))
    have hstarted : ((Op.read p a d).started (c.watching regMdioCompControl) (s, l)).1 =
        (Op.read p a d).started c s := rfl
    rw [hstarted] at h₁ h₂
    rw [call_read, call_read]
    refine ⟨h₁, ?_⟩
    rw [h₁, ← h₂]
    split <;> rfl

theorem waitForOpComplete_watching (s : σ) (l : List (BitVec 32)) :
    let v := fun k => c.reads regMdioCompControl k s
    let r := waitForOpComplete (c.watching regMdioCompControl) (s, l)
    (r.1 = true ↔ getBit (v 0) 1 = true ∨ ∃ x ∈ upToNonzero 10 fun k => v (k + 1), x ≠ 0#32) ∧
      r.2.2 = l ++ v 0 :: if getBit (v 0) 1 then [] else upToNonzero 10 fun k => v (k + 1) := by
  intro v r
  have hr : r = waitLoop (c.watching regMdioCompControl) 10 (getBit (v 0) 1)
      ((c.regRead regMdioCompControl s).2, l ++ [v 0]) := by
    simp only [r, waitForOpComplete, RegComp.regRead_watching]
    rfl
  cases hbit : getBit (v 0) 1 with
  | true =>
    rw [hr, hbit]
    simp [waitLoop]
  | false =>
    obtain ⟨h₁, h₂⟩ := waitLoop_watching c 10 (c.regRead regMdioCompControl s).2 (l ++ [v 0])
    rw [hr, hbit]
    refine ⟨h₁.trans ?_, h₂.trans ?_⟩
    · simp [v, RegComp.reads]
    · simp [v, RegComp.reads]

/-- What a call returns and polls depends on the values that the polls find, and on nothing else. -/
theorem observed_eq (op : Op) (s : σ) :
    ((op.observed c s).1 = true ↔ getBit (op.status c s 0) 1 = true ∨
        ∃ x ∈ upToNonzero 10 fun k => op.status c s (k + 1), x ≠ 0#32) ∧
      (op.observed c s).2 = op.status c s 0 ::
        if getBit (op.status c s 0) 1 then []
        else upToNonzero 10 fun k => op.status c s (k + 1) := by
  cases op with
  | write p a d => exact waitForOpComplete_watching c ((Op.write p a d).started c s) []
  | read p a d =>
    have h := waitForOpComplete_watching c ((Op.read p a d).started c s) []
    have hne : regMdioCompReadData ≠ regMdioCompControl := by decide
    -- the read of the data is not a poll
    have hr : (Op.read p a d).observed c s =
        ((waitForOpComplete (c.watching regMdioCompControl) ((Op.read p a d).started c s, [])).1,
          (waitForOpComplete (c.watching regMdioCompControl)
            ((Op.read p a d).started c s, [])).2.2) := by
      rw [Op.observed, call_read]
      refine Prod.ext rfl ?_
      dsimp only
      split
      · rw [RegComp.regRead_watching_of_ne c hne]
        rfl
      · rfl
    rw [hr]
    exact h

/-- The values that the polls of a call find answer its question: the first one says that the
operation is complete, or the next one that is not zero does. -/
def Answered (v : ℕ → BitVec 32) : Prop :=
  getBit (v 0) 1 = true ∨ FirstResponds 10 fun k => v (k + 1)

/-- **When the driver tells the truth.** A call is faithful exactly if the first value polled has
`response_received`, or the first of the next ten that is not zero has it, if there is one. -/
theorem faithful_iff (op : Op) (s : σ) : Faithful c op s ↔ Answered (op.status c s) := by
  obtain ⟨hresult, hpolled⟩ := observed_eq c op s
  have hlength : (op.observed c s).2.length ≤ 11 := by
    rw [hpolled, List.length_cons]
    split
    · simp
    · exact Nat.succ_le_succ (length_upToNonzero_le 10 _)
  rw [Faithful, Answered, hresult, and_iff_left hlength, hpolled]
  cases hbit : getBit (op.status c s 0) 1 with
  | true => simp [hbit]
  | false =>
    rw [← firstResponds_iff]
    simp [hbit]

end Calls

/-- A component with one value in all its registers. -/
def constant (v : BitVec 32) : RegComp Unit := ⟨⟨fun _ s => (v, s), fun _ _ s => s⟩, 0⟩

/-- While a write is in progress the control register reads 1, and the second poll ends the call. -/
theorem not_faithful : ¬ ∀ (σ : Type) (c : RegComp σ) (op : Op) (s : σ), Faithful c op s := by
  intro h
  have hearly : ((Op.write 0 0 0).observed (constant 1) ()).1 = true := rfl
  obtain ⟨v, hv, hbit⟩ := (h Unit (constant 1) (.write 0 0 0) ()).1.mp hearly
  have hpolled : ((Op.write 0 0 0).observed (constant 1) ()).2 = [1, 1] := rfl
  rw [hpolled] at hv
  simp only [List.mem_cons, List.not_mem_nil, or_false, or_self] at hv
  subst hv
  exact absurd hbit (by decide)

end MdioComp

end RmiiEthernet.Driver
