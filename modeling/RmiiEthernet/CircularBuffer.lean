import RmiiEthernet.Sync.Ring

/-!
# The circular buffer

`circular_buffer` is a ring of `2 ^ D` rows between a read and a write pointer with one bit more
than the address. It does not guard its writes: a write into the full buffer goes to the row under
the read pointer, which is what its user relies on when it reads that row in the same cycle
(`Holds.step_shift`).
-/

namespace RmiiEthernet.CircularBuffer

open Sync

variable {D : ℕ} {α : Type*}

/-! ## The circuit -/

/-- The input ports in one cycle. -/
structure Inputs (α : Type*) where
  sreset : Bool
  writeData : α
  writeEn : Bool
  readEn : Bool

/-- The registers and the memory. -/
structure State (D : ℕ) (α : Type*) where
  buffers : BitVec D → α
  readPointer : BitVec (D + 1)
  writePointer : BitVec (D + 1)

namespace State

variable (s : State D α)

/-- `read_address`: the pointer without its top bit. -/
def readAddress : BitVec D := s.readPointer.setWidth D

/-- `write_address`: the pointer without its top bit. -/
def writeAddress : BitVec D := s.writePointer.setWidth D

/-- The pointers are equal, the top bits included. -/
def emptySig : Bool := s.writePointer == s.readPointer

/-- The addresses are equal, the top bits are not. -/
def fullSig : Bool :=
  s.readAddress == s.writeAddress && s.readPointer.getLsbD D != s.writePointer.getLsbD D

/-- The memory is read without a clock. -/
def readData : α := s.buffers s.readAddress

end State

/-- One clock edge. -/
def step (s : State D α) (i : Inputs α) : State D α where
  -- p_write
  buffers := if i.writeEn then write s.buffers s.writeAddress i.writeData else s.buffers
  writePointer :=
    if i.sreset then 0 else if i.writeEn then s.writePointer + 1 else s.writePointer
  -- p_read
  readPointer :=
    if i.sreset then 0
    else if i.readEn && !s.emptySig then s.readPointer + 1
    else s.readPointer

/-! ## What it holds -/

/-- The words `l` stand in the buffer, the oldest first. -/
structure Holds (s : State D α) (l : List α) : Prop where
  window : Window s.buffers s.readAddress l
  pointers : s.writePointer = s.readPointer + BitVec.ofNat (D + 1) l.length
  fits : l.length ≤ 2 ^ D

variable {s : State D α} {l : List α} {i : Inputs α}

theorem Holds.empty_iff (h : Holds s l) : s.emptySig = true ↔ l = [] := by
  rw [State.emptySig, beq_iff_eq, h.pointers, ptr_eq_iff _ h.fits, List.length_eq_zero_iff]

theorem Holds.full_iff (h : Holds s l) : s.fullSig = true ↔ l.length = 2 ^ D := by
  rw [← ptr_full_iff s.readPointer h.fits, ← h.pointers]
  simp [State.fullSig, State.readAddress, State.writeAddress]

theorem Holds.readData {x : α} (h : Holds s (x :: l)) : s.readData = x := h.window.1

theorem holds_nil_iff : Holds s [] ↔ s.writePointer = s.readPointer := by
  constructor
  · intro h
    simpa using h.pointers
  · intro h
    exact ⟨trivial, by simpa using h, by simp⟩

/-! ## One cycle -/

theorem holds_step_sreset (hr : i.sreset = true) : Holds (step s i) [] := by
  rw [holds_nil_iff]
  simp [step, hr]

theorem Holds.step_quiet (h : Holds s l) (hr : i.sreset = false) (hw : i.writeEn = false)
    (hread : i.readEn = false) : Holds (step s i) l := by
  have hstep : step s i = s := by simp [step, hr, hw, hread]
  rwa [hstep]

theorem Holds.writeAddress (h : Holds s l) :
    s.writeAddress = s.readAddress + BitVec.ofNat D l.length := by
  rw [State.writeAddress, h.pointers, setWidth_add_ofNat]
  rfl

theorem Holds.step_write (h : Holds s l) (hr : i.sreset = false) (hw : i.writeEn = true)
    (hread : i.readEn = false) (hl : l.length < 2 ^ D) : Holds (step s i) (l ++ [i.writeData]) := by
  refine ⟨?_, ?_, by simpa using Nat.succ_le_of_lt hl⟩
  · have hwin := h.window.push i.writeData hl
    rw [← h.writeAddress] at hwin
    simpa [State.readAddress, step, hr, hw, hread] using hwin
  · rw [List.length_append, List.length_singleton]
    simp [step, hr, hw, hread, h.pointers, BitVec.ofNat_add, BitVec.add_assoc]

/-- A read and a write of the full buffer in one cycle: the written word takes the row of the
word that is read. -/
theorem Holds.step_shift {x : α} (h : Holds s (x :: l)) (hr : i.sreset = false)
    (hw : i.writeEn = true) (hread : i.readEn = true) (hl : l.length + 1 = 2 ^ D) :
    Holds (step s i) (l ++ [i.writeData]) := by
  have hempty : s.emptySig = false := by
    by_contra he
    simpa using h.empty_iff.mp (by simpa using he)
  have haddr : s.writeAddress = s.readAddress + 1 + BitVec.ofNat D l.length := by
    rw [h.writeAddress, List.length_cons, add_ofNat_succ]
  have hread' : (step s i).readPointer = s.readPointer + 1 := by simp [step, hr, hread, hempty]
  refine ⟨?_, ?_, by simp [hl]⟩
  · have hwin := h.window.2.push i.writeData (by omega)
    rw [← haddr] at hwin
    rw [State.readAddress, hread', setWidth_add_one]
    simpa [step, hw, State.readAddress] using hwin
  · have hwrite : (step s i).writePointer = s.writePointer + 1 := by simp [step, hr, hw]
    rw [hwrite, hread', h.pointers, List.length_append, List.length_singleton, List.length_cons,
      BitVec.add_assoc, BitVec.add_assoc]
    congr 1
    exact BitVec.add_comm _ _

end RmiiEthernet.CircularBuffer
