import RmiiEthernet.Ethernet.Fcs

/-!
# The format of a frame

An Ethernet II frame is the address of the receiver, the address of the sender, the Ethertype, the
payload and the check sequence of all of these. `frame` puts one together and `Checked` is what a
receiver can ask of any bytes; a frame that was put together is checked (`checked_frame`).
-/

namespace RmiiEthernet.EthernetFrame

open EthernetFcs

/-- The bytes of an address in the order of transmission. -/
def macBytes (a : BitVec 48) : List Byte :=
  [a.extractLsb' 40 8, a.extractLsb' 32 8, a.extractLsb' 24 8, a.extractLsb' 16 8,
    a.extractLsb' 8 8, a.extractLsb' 0 8]

/-- The header of a frame. -/
def header (dst src : BitVec 48) (arp : Bool) : List Byte :=
  macBytes dst ++ macBytes src ++ [0x08, if arp then 0x06 else 0x00]

/-- A frame: header, payload, and the CRC-32 of both. -/
def frame (dst src : BitVec 48) (arp : Bool) (payload : List Byte) : List Byte :=
  header dst src arp ++ payload ++ fcsBytes (header dst src arp ++ payload)

/-- The last four bytes are the CRC-32 of the rest. -/
def Checked (f : List Byte) : Prop :=
  f.drop (f.length - 4) = fcsBytes (f.take (f.length - 4))

instance (f : List Byte) : Decidable (Checked f) := inferInstanceAs (Decidable (_ = _))

theorem macBytes_injective : Function.Injective macBytes := by
  intro a b h
  simp only [macBytes, List.cons.injEq, and_true] at h
  obtain ⟨h₅, h₄, h₃, h₂, h₁, h₀⟩ := h
  have hbyte (k : ℕ) (hk : k < 6) : a.extractLsb' (8 * k) 8 = b.extractLsb' (8 * k) 8 := by
    interval_cases k <;> assumption
  apply BitVec.eq_of_getLsbD_eq
  intro k hk
  have := congrArg (·.getLsbD (k % 8)) (hbyte (k / 8) (by omega))
  simpa [Nat.mod_lt, Nat.div_add_mod] using this

@[simp] theorem length_macBytes (a : BitVec 48) : (macBytes a).length = 6 := rfl

@[simp] theorem length_header (dst src : BitVec 48) (arp : Bool) :
    (header dst src arp).length = 14 := rfl

@[simp] theorem length_fcsBytes (m : List Byte) : (fcsBytes m).length = 4 := rfl

/-- The circuit's register after a frame tells whether it is checked. -/
theorem circuitRegister_eq_crcVerify_iff {f : List Byte} (hf : 4 ≤ f.length) :
    circuitRegister f = crcVerify ↔ Checked f := by
  have hlen : (f.drop (f.length - 4)).length = 4 := by
    rw [List.length_drop]
    omega
  rw [Checked, ← verify_iff _ _ hlen, List.take_append_drop]

/-- Bytes in front of a checked frame that change the register are noticed. -/
theorem not_checked_append {m f : List Byte} (hm : circuitRegister m ≠ crcInitVal)
    (hf : 4 ≤ f.length) (h : Checked f) : ¬ Checked (m ++ f) := by
  intro h'
  rw [← circuitRegister_eq_crcVerify_iff hf] at h
  rw [← circuitRegister_eq_crcVerify_iff (by simp; omega), ← h] at h'
  apply hm
  rw [← circuitRegister_nil]
  exact (circuitRegister_append_inj m [] f).mp h'

theorem length_frame (dst src : BitVec 48) (arp : Bool) (payload : List Byte) :
    (frame dst src arp payload).length = payload.length + 18 := by
  simp [frame]
  omega

theorem checked_frame (dst src : BitVec 48) (arp : Bool) (payload : List Byte) :
    Checked (frame dst src arp payload) := by
  have hlen : (frame dst src arp payload).length - 4 = (header dst src arp ++ payload).length := by
    simp [length_frame]
    omega
  rw [Checked, hlen, frame, List.drop_left, List.take_left]

end RmiiEthernet.EthernetFrame
