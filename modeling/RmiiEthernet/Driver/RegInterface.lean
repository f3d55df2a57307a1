import Mathlib.Data.BitVec

/-!
# Registers as the host sees them

`reg_interface` reads and writes registers by address. What is behind it is a machine with states
`σ` that moves on at every access, so that a register can be read twice with two values.
`RegInterface.watching` writes down what is read at one address and changes nothing else.
-/

namespace RmiiEthernet.Driver

variable {σ : Type*}

/-- `reg_interface`. -/
structure RegInterface (σ : Type*) where
  read (address : BitVec 32) (s : σ) : BitVec 32 × σ
  write (address data : BitVec 32) (s : σ) : σ

/-- `reg_comp`: the registers of a component stand from an offset on. -/
structure RegComp (σ : Type*) where
  regInterface : RegInterface σ
  offset : BitVec 32

namespace RegComp

variable (c : RegComp σ)

/-- `reg_write`. -/
def regWrite (address data : BitVec 32) (s : σ) : σ :=
  c.regInterface.write (c.offset + address) data s

/-- `reg_read`. -/
def regRead (address : BitVec 32) (s : σ) : BitVec 32 × σ :=
  c.regInterface.read (c.offset + address) s

end RegComp

/-- `utils::get_bit`. -/
def getBit (value : BitVec 32) (index : ℕ) : Bool := (value >>> index) &&& 1 != 0

theorem getBit_eq_getLsbD (value : BitVec 32) (index : ℕ) :
    getBit value index = value.getLsbD index := by
  have hone : ∀ i, ((value >>> index) &&& 1#32).getLsbD i =
      (decide (i = 0) && value.getLsbD index) := fun i => by
    rcases Nat.eq_zero_or_pos i with rfl | hi
    · simp
    · simp [hi.ne']
  cases hb : value.getLsbD index with
  | false =>
    have hzero : (value >>> index) &&& 1#32 = 0#32 := by
      apply BitVec.eq_of_getLsbD_eq
      intro i _
      simp [hone, hb]
    change ((value >>> index) &&& 1#32 != 0#32) = false
    simp [hzero]
  | true =>
    change ((value >>> index) &&& 1#32 != 0#32) = true
    rw [bne_iff_ne]
    intro hzero
    simpa [hzero, hb] using hone 0

/-! ## What a call writes -/

/-- `utils::COMP_NUM_TO_OFFSET`. -/
def compNumToOffset (compNum : BitVec 32) : BitVec 32 := compNum <<< 8

/-- An interface that lists what it is asked to write. -/
def RegInterface.listing : RegInterface (List (BitVec 32 × BitVec 32)) where
  read _ ws := (0, ws)
  write address data ws := ws ++ [(address, data)]

/-- The component of a number, behind such an interface. -/
def RegComp.listing (compNum : BitVec 32) : RegComp (List (BitVec 32 × BitVec 32)) :=
  ⟨.listing, compNumToOffset compNum⟩

/-- The low eight bits of an address are those of the register. -/
theorem extractLsb'_offset (compNum address : BitVec 32) :
    (compNumToOffset compNum + address).extractLsb' 0 8 = address.extractLsb' 0 8 := by
  apply BitVec.eq_of_toNat_eq
  simp only [compNumToOffset, BitVec.extractLsb'_toNat, BitVec.toNat_add, BitVec.toNat_shiftLeft]
  omega

/-! ## What is read at one address -/

/-- The interface with a list of the values read at an address. -/
def RegInterface.watching (r : RegInterface σ) (a : BitVec 32) :
    RegInterface (σ × List (BitVec 32)) where
  read address x :=
    let v := r.read address x.1
    (v.1, v.2, if address = a then x.2 ++ [v.1] else x.2)
  write address data x := (r.write address data x.1, x.2)

namespace RegComp

variable (c : RegComp σ) (address : BitVec 32)

/-- The component with a list of the values read from a register. -/
def watching : RegComp (σ × List (BitVec 32)) :=
  ⟨c.regInterface.watching (c.offset + address), c.offset⟩

/-- What reading a register again and again finds, from a state on. -/
def reads : ℕ → σ → BitVec 32
  | 0, s => (c.regRead address s).1
  | k + 1, s => reads k (c.regRead address s).2

variable {address}

@[simp] theorem regWrite_watching (a d : BitVec 32) (s : σ) (l : List (BitVec 32)) :
    (c.watching address).regWrite a d (s, l) = (c.regWrite a d s, l) := rfl

@[simp] theorem regRead_watching (s : σ) (l : List (BitVec 32)) :
    (c.watching address).regRead address (s, l) =
      ((c.regRead address s).1, (c.regRead address s).2, l ++ [(c.regRead address s).1]) := by
  simp [watching, RegInterface.watching, regRead]

theorem regRead_watching_of_ne {a : BitVec 32} (h : a ≠ address) (s : σ)
    (l : List (BitVec 32)) : (c.watching address).regRead a (s, l) =
      ((c.regRead a s).1, (c.regRead a s).2, l) := by
  have hne : c.offset + a ≠ c.offset + address := fun e => h ((BitVec.add_right_inj _).mp e)
  simp [watching, RegInterface.watching, regRead, hne]

end RegComp

end RmiiEthernet.Driver
