import RmiiEthernet.Apb.RegisterMap
import RmiiEthernet.Driver.RegInterface

/-!
# The driver of the MAC

`rmii_mac_comp` gives the MAC an address in two registers. It copies the first four bytes of the
address into one word and the other two into another one; the driver runs on a little-endian host,
so that the first byte of each is the least significant one.
-/

namespace RmiiEthernet.Driver.RmiiMacComp

open RegisterMap

variable {σ : Type*}

/-- `reg_num_src_mac_upper`. -/
def regNumSrcMacUpper : BitVec 32 := 8

/-- `reg_num_src_mac_lower`. -/
def regNumSrcMacLower : BitVec 32 := 9

/-- `reg_num_dst_mac_upper`. -/
def regNumDstMacUpper : BitVec 32 := 10

/-- `reg_num_dst_mac_lower`. -/
def regNumDstMacLower : BitVec 32 := 11

section Functions

variable (c : RegComp σ) (mac : Vector (BitVec 8) 6)

/-- `lower`, behind `memcpy`. -/
def lowerWord : BitVec 32 := word mac[0] mac[1] mac[2] mac[3]

/-- `upper`, which has been zero. -/
def upperWord : BitVec 32 := word mac[4] mac[5] 0 0

/-- What the two functions have in common. -/
def setMac (upperReg lowerReg : BitVec 32) (s : σ) : σ :=
  let s := c.regWrite lowerReg (lowerWord mac) s
  c.regWrite upperReg (upperWord mac) s

/-- `set_destination_mac`. -/
def setDestinationMac (s : σ) : σ := setMac c mac regNumDstMacUpper regNumDstMacLower s

/-- `set_source_mac`. -/
def setSourceMac (s : σ) : σ := setMac c mac regNumSrcMacUpper regNumSrcMacLower s

end Functions

end RmiiEthernet.Driver.RmiiMacComp
