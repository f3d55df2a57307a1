import RmiiEthernet.Ethernet.Fcs

/-!
# The format of a datagram

What `udp_ip_framer` sends for a payload: an IPv4 header without options, a UDP header without a
checksum, and the payload. The header checksum is the complement of the sum of the configured
initial value and the total length.
-/

namespace RmiiEthernet.Udp

open EthernetFcs

/-- The configuration of the sender. -/
structure Config where
  sourcePort : BitVec 16
  destinationPort : BitVec 16
  srcAddress : BitVec 32
  destinationAddress : BitVec 32
  ipChecksumInit : BitVec 16

/-- The bytes of a word in the order of transmission. -/
def bytes16 (w : BitVec 16) : List Byte := [w.extractLsb' 8 8, w.extractLsb' 0 8]

/-- The bytes of an address in the order of transmission. -/
def bytes32 (w : BitVec 32) : List Byte :=
  [w.extractLsb' 24 8, w.extractLsb' 16 8, w.extractLsb' 8 8, w.extractLsb' 0 8]

section Headers

variable (cfg : Config) (n : ℕ)

/-- The total length for `n` bytes of payload. -/
def ipLength : BitVec 16 := BitVec.ofNat 16 (n + 28)

/-- The length field of the UDP header. -/
def udpLength : BitVec 16 := BitVec.ofNat 16 (n + 8)

/-- The header checksum, from the sum of the fixed fields and the length. -/
def ipChecksum : BitVec 16 := ~~~(cfg.ipChecksumInit + ipLength n)

/-- The IPv4 header, without options. -/
def ipHeader : List Byte :=
  [0x45, 0x00] ++ bytes16 (ipLength n) ++ [0, 0, 0, 0, 0x80, 0x11] ++ bytes16 (ipChecksum cfg n) ++
    bytes32 cfg.srcAddress ++ bytes32 cfg.destinationAddress

/-- The UDP header; its checksum is not used. -/
def udpHeader : List Byte :=
  bytes16 cfg.sourcePort ++ bytes16 cfg.destinationPort ++ bytes16 (udpLength n) ++ [0, 0]

/-- The two headers. -/
def headers : List Byte := ipHeader cfg n ++ udpHeader cfg n

end Headers

/-- **The datagram** for a payload. -/
def datagram (cfg : Config) (q : List Byte) : List Byte := headers cfg q.length ++ q

@[simp] theorem length_headers (cfg : Config) (n : ℕ) : (headers cfg n).length = 28 := rfl

end RmiiEthernet.Udp
