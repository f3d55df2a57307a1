import RmiiEthernet.Sync.Packet
import RmiiEthernet.Udp.Format

/-!
# The UDP deframer

`udp_ip_deframer` reads IPv4 packets byte by byte. It checks the version, the protocol, the address
and the port of the receiver as they arrive, skips the options, and passes what follows the UDP
header; a packet that fails a check is discarded and counted.

`Follows` is the state after the first bytes of a datagram for the configured receiver, and
`follows_run` says what comes of a stream of such datagrams: the payloads, one cycle late, and
nothing is discarded.
-/

namespace RmiiEthernet.UdpDeframer

open Sync EthernetFcs Udp

/-! ## The circuit -/

/-- `fsm_state_t`. -/
inductive FsmState
  | idle
  | ipDscp | ipLen1 | ipLen2 | ipId1 | ipId2 | ipFlags1 | ipFlags2 | ipTtl | ipProtocol
  | ipHdrChecksum1 | ipHdrChecksum2
  | ipSrcIp1 | ipSrcIp2 | ipSrcIp3 | ipSrcIp4
  | ipDstIp1 | ipDstIp2 | ipDstIp3 | ipDstIp4
  | ipOptions
  | srcPort1 | srcPort2 | dstPort1 | dstPort2
  | length1 | length2 | checksum1 | checksum2
  | data
  | discard
  deriving DecidableEq

/-- The input ports in one cycle. The source port is not read. -/
structure Inputs where
  reset : Bool := false
  enableIn : Bool := true
  destinationPortIn : BitVec 16
  destinationAddressIn : BitVec 32
  broadcastAddressIn : BitVec 32
  sAxisTdata : Byte := 0
  sAxisTvalid : Bool := false
  sAxisTlast : Bool := false

/-- The registers. -/
structure State where
  dstIpAddressRx : BitVec 32
  dstPortRx : BitVec 16
  deframerState : FsmState
  wordsRemainingCount : BitVec 6
  deframedTdata : Byte
  deframedTvalid : Bool
  deframedTlast : Bool
  validPacketsCountU : BitVec 16
  droppedPacketsCountU : BitVec 16
  dropMask : BitVec 8
  deriving DecidableEq

/-- `C_IP_VERSION`. -/
def ipVersion : BitVec 4 := 4

/-- `C_IP_UDP_PROTOCOL`. -/
def ipUdpProtocol : Byte := 0x11

/-- The states in which a byte goes into `dst_ip_address_rx`. -/
def FsmState.takesAddress : FsmState → Bool
  | .ipDstIp1 | .ipDstIp2 | .ipDstIp3 | .ipDstIp4 => true
  | _ => false

/-- The shift of the address register. -/
def shiftIn (r : BitVec 32) (b : Byte) : BitVec 32 := r.extractLsb' 0 24 ++ b

section Signals

variable (s : State) (i : Inputs)

/-- `dst_ip_address_match`: the own address or the broadcast address. -/
def dstIpAddressMatch : Bool :=
  s.dstIpAddressRx == i.destinationAddressIn || s.dstIpAddressRx == i.broadcastAddressIn

/-- `dst_port_match`. -/
def dstPortMatch : Bool := s.dstPortRx == i.destinationPortIn

/-- `idle_out`. -/
def idleOut : Bool := s.deframerState == .idle

/-- The first byte of a packet has the version that is understood. -/
def versionMatch : Bool := i.sAxisTdata.extractLsb' 4 4 == ipVersion

/-- The next state when a byte arrives. -/
def advance : FsmState :=
  match s.deframerState with
  | .idle => if i.enableIn then if versionMatch i then .ipDscp else .discard else .idle
  | .ipDscp => .ipLen1
  | .ipLen1 => .ipLen2
  | .ipLen2 => .ipId1
  | .ipId1 => .ipId2
  | .ipId2 => .ipFlags1
  | .ipFlags1 => .ipFlags2
  | .ipFlags2 => .ipTtl
  | .ipTtl => .ipProtocol
  | .ipProtocol => if i.sAxisTdata == ipUdpProtocol then .ipHdrChecksum1 else .discard
  | .ipHdrChecksum1 => .ipHdrChecksum2
  | .ipHdrChecksum2 => .ipSrcIp1
  | .ipSrcIp1 => .ipSrcIp2
  | .ipSrcIp2 => .ipSrcIp3
  | .ipSrcIp3 => .ipSrcIp4
  | .ipSrcIp4 => .ipDstIp1
  | .ipDstIp1 => .ipDstIp2
  | .ipDstIp2 => .ipDstIp3
  | .ipDstIp3 => .ipDstIp4
  | .ipDstIp4 => if s.wordsRemainingCount == 0#6 then .srcPort1 else .ipOptions
  | .ipOptions => if s.wordsRemainingCount == 1#6 then .srcPort1 else .ipOptions
  | .srcPort1 => if dstIpAddressMatch s i then .srcPort2 else .discard
  | .srcPort2 => .dstPort1
  | .dstPort1 => .dstPort2
  | .dstPort2 => .length1
  | .length1 => if dstPortMatch s i then .length2 else .discard
  | .length2 => .checksum1
  | .checksum1 => .checksum2
  | .checksum2 => if i.sAxisTlast then .idle else .data
  | .data => if i.sAxisTlast then .idle else .data
  | .discard => if i.sAxisTlast then .idle else .discard

/-- The bit of `drop_mask` for a check that fails. -/
def dropBit : BitVec 8 :=
  match s.deframerState with
  | .idle => if i.enableIn && !versionMatch i then 1 else 0
  | .ipProtocol => if i.sAxisTdata == ipUdpProtocol then 0 else 2
  | .srcPort1 => if dstIpAddressMatch s i then 0 else 4
  | .length1 => if dstPortMatch s i then 0 else 8
  | _ => 0

/-- A byte of the payload arrives. -/
def deframes : Bool := i.sAxisTvalid && s.deframerState == .data

/-- The last byte of a packet that is not wanted arrives. -/
def drops : Bool := i.sAxisTvalid && s.deframerState == .discard && i.sAxisTlast

/-- One clock edge. -/
def step : State where
  dstIpAddressRx :=
    if i.sAxisTvalid && s.deframerState.takesAddress then shiftIn s.dstIpAddressRx i.sAxisTdata
    else s.dstIpAddressRx
  dstPortRx :=
    if i.sAxisTvalid && s.deframerState == .dstPort1 then
      i.sAxisTdata ++ s.dstPortRx.extractLsb' 0 8
    else if i.sAxisTvalid && s.deframerState == .dstPort2 then
      s.dstPortRx.extractLsb' 8 8 ++ i.sAxisTdata
    else s.dstPortRx
  deframerState := if i.reset then .idle else if i.sAxisTvalid then advance s i else s.deframerState
  wordsRemainingCount :=
    if i.sAxisTvalid && s.deframerState == .idle && i.enableIn && versionMatch i then
      i.sAxisTdata.extractLsb' 0 4 ++ 0#2 - 20
    else if i.sAxisTvalid && s.deframerState == .ipOptions then s.wordsRemainingCount - 1
    else s.wordsRemainingCount
  deframedTdata := if !i.reset && deframes s i then i.sAxisTdata else 0
  deframedTvalid := !i.reset && deframes s i
  deframedTlast := !i.reset && (deframes s i && i.sAxisTlast)
  validPacketsCountU :=
    if i.reset then 0
    else if deframes s i && i.sAxisTlast then s.validPacketsCountU + 1
    else s.validPacketsCountU
  droppedPacketsCountU :=
    if i.reset then 0
    else if drops s i then s.droppedPacketsCountU + 1
    else s.droppedPacketsCountU
  dropMask :=
    if i.reset then 0 else if i.sAxisTvalid then s.dropMask ||| dropBit s i else s.dropMask

end Signals

/-- A state that a reset leads to. -/
def AfterReset (s : State) : Prop := ∃ s₀ i, i.reset = true ∧ s = step s₀ i

/-! ## What happens at the ports -/

/-- The beat that arrives in a cycle. -/
def arrived (_ : State) (i : Inputs) : List (Byte × Bool) :=
  if i.sAxisTvalid then [(i.sAxisTdata, i.sAxisTlast)] else []

/-- The beat in the output register. -/
def output (s : State) : List (Byte × Bool) :=
  if s.deframedTvalid then [(s.deframedTdata, s.deframedTlast)] else []

/-- The beat shown in a cycle. -/
def shown (s : State) (_ : Inputs) : List (Byte × Bool) := output s

/-- No reset, enabled, and the receiver of the datagrams of `cfg` on the ports. -/
def Steady (cfg : Config) (_ : State) (i : Inputs) : Prop :=
  i.reset = false ∧ i.enableIn = true ∧ i.destinationPortIn = cfg.destinationPort ∧
    i.destinationAddressIn = cfg.destinationAddress

/-! ## Datagrams for the receiver -/

/-- The state after `n` bytes of a datagram for the receiver. -/
def stateAt : ℕ → FsmState
  | 0 => .idle
  | 1 => .ipDscp
  | 2 => .ipLen1
  | 3 => .ipLen2
  | 4 => .ipId1
  | 5 => .ipId2
  | 6 => .ipFlags1
  | 7 => .ipFlags2
  | 8 => .ipTtl
  | 9 => .ipProtocol
  | 10 => .ipHdrChecksum1
  | 11 => .ipHdrChecksum2
  | 12 => .ipSrcIp1
  | 13 => .ipSrcIp2
  | 14 => .ipSrcIp3
  | 15 => .ipSrcIp4
  | 16 => .ipDstIp1
  | 17 => .ipDstIp2
  | 18 => .ipDstIp3
  | 19 => .ipDstIp4
  | 20 => .srcPort1
  | 21 => .srcPort2
  | 22 => .dstPort1
  | 23 => .dstPort2
  | 24 => .length1
  | 25 => .length2
  | 26 => .checksum1
  | 27 => .checksum2
  | _ => .data

/-- What comes of one byte after the bytes `f` of a datagram. -/
def payloadBy (f : List Byte) (b : Byte × Bool) : List (Byte × Bool) :=
  if 28 ≤ f.length then [b] else []

/-- **The registers after the bytes `f` of a datagram** for the receiver. -/
structure Follows (cfg : Config) (s : State) (f : List Byte) : Prop where
  state : s.deframerState = stateAt f.length
  words : 1 ≤ f.length → f.length ≤ 19 → s.wordsRemainingCount = 0#6
  address : f.length ≤ 20 → ∃ r, s.dstIpAddressRx = (f.drop 16).foldl shiftIn r
  port : f.length = 24 → s.dstPortRx = cfg.destinationPort
  portHigh : f.length = 23 → s.dstPortRx.extractLsb' 8 8 = cfg.destinationPort.extractLsb' 8 8
  dropped : s.droppedPacketsCountU = 0

section Cycle

variable {cfg : Config} {s : State} {i : Inputs} {f q : List Byte} {n : ℕ}

theorem stateAt_of_le (h : 28 ≤ n) : stateAt n = .data := by
  obtain ⟨n, rfl⟩ := Nat.exists_eq_add_of_le' h
  rfl

theorem takesAddress_stateAt (n : ℕ) : (stateAt n).takesAddress = decide (16 ≤ n ∧ n ≤ 19) := by
  by_cases hn : n < 28
  · interval_cases n <;> rfl
  · rw [stateAt_of_le (by omega)]
    simp [FsmState.takesAddress]
    omega

theorem extractLsb_append_extractLsb (w : BitVec 16) :
    (w.extractLsb' 8 8 ++ w.extractLsb' 0 8 : BitVec 16) = w := by
  ext k hk
  simp only [← BitVec.getLsbD_eq_getElem, BitVec.getLsbD_append, BitVec.getLsbD_extractLsb']
  split
  · simp [*]
  · simp [show k - 8 < 8 by omega, show 8 + (k - 8) = k by omega]

theorem getLsbD_shiftIn (r : BitVec 32) (b : Byte) {k : ℕ} (hk : k < 32) :
    (shiftIn r b).getLsbD k = if k < 8 then b.getLsbD k else r.getLsbD (k - 8) := by
  simp only [shiftIn, BitVec.getLsbD_append, BitVec.getLsbD_extractLsb']
  split
  · rfl
  · simp [show k - 8 < 24 by omega]

/-- Four bytes push everything else out of the address register. -/
theorem foldl_shiftIn (r a : BitVec 32) : (bytes32 a).foldl shiftIn r = a := by
  ext k hk
  simp only [bytes32, List.foldl_cons, List.foldl_nil, ← BitVec.getLsbD_eq_getElem]
  rw [getLsbD_shiftIn _ _ hk, getLsbD_shiftIn _ _ (by omega), getLsbD_shiftIn _ _ (by omega),
    getLsbD_shiftIn _ _ (by omega)]
  simp only [BitVec.getLsbD_extractLsb']
  grind

/-- In the header, the next byte leads to the next state. -/
theorem Follows.advance_header (h : Follows cfg s f) (hi : Steady cfg s i)
    (hf : f = (headers cfg n).take f.length) (hlt : f.length < 28)
    (hb : (headers cfg n)[f.length]? = some i.sAxisTdata) (hl : i.sAxisTlast = false) :
    advance s i = stateAt (f.length + 1) := by
  obtain ⟨-, hen, hport, haddr⟩ := hi
  have hstate := h.state
  have hwords := h.words
  have haddress : f.length = 20 → s.dstIpAddressRx = cfg.destinationAddress := by
    intro hlen
    obtain ⟨r, hr⟩ := h.address hlen.le
    rw [hr, hf, hlen]
    exact foldl_shiftIn r _
  have hport' := h.port
  have hversion : f.length = 0 → versionMatch i = true := by
    intro hlen
    rw [hlen] at hb
    rw [versionMatch, ← Option.some.inj hb]
    rfl
  have hprotocol : f.length = 9 → i.sAxisTdata = ipUdpProtocol := by
    intro hlen
    rw [hlen] at hb
    exact (Option.some.inj hb).symm
  clear hf hb
  generalize f.length = k at *
  interval_cases k <;> simp_all [advance, stateAt, dstIpAddressMatch, dstPortMatch]

theorem Follows.deframes_eq (h : Follows cfg s f) (hv : i.sAxisTvalid = true) :
    deframes s i = decide (28 ≤ f.length) := by
  rw [deframes, hv, Bool.true_and, h.state]
  by_cases hlen : 28 ≤ f.length
  · simp [stateAt_of_le hlen, hlen]
  · generalize f.length = k at *
    interval_cases k <;> rfl

theorem Follows.drops_eq (h : Follows cfg s f) : drops s i = false := by
  have hstate : stateAt f.length ≠ .discard := by
    by_cases hlen : 28 ≤ f.length
    · simp [stateAt_of_le hlen]
    · generalize f.length = k at *
      interval_cases k <;> simp [stateAt]
  simp [drops, h.state, hstate]

/-- A byte of the headers. -/
theorem Follows.step_header (h : Follows cfg s f) (hi : Steady cfg s i)
    (hv : i.sAxisTvalid = true) (hl : i.sAxisTlast = false)
    (hf : f = (headers cfg n).take f.length) (hlt : f.length < 28)
    (hb : (headers cfg n)[f.length]? = some i.sAxisTdata) :
    Follows cfg (step s i) (f ++ [i.sAxisTdata]) := by
  have hlen : (f ++ [i.sAxisTdata]).length = f.length + 1 := by simp
  have hstate : (step s i).deframerState = stateAt (f.length + 1) := by
    simp [step, hi.1, hv, h.advance_header hi hf hlt hb hl]
  refine ⟨by rw [hlen]; exact hstate, fun _ hle => ?_, fun hle => ?_, fun heq => ?_, fun heq => ?_,
    by simp [step, hi.1, h.drops_eq, h.dropped]⟩
  · rw [hlen] at hle
    by_cases hzero : f.length = 0
    · rw [hzero] at hb
      have hbyte : i.sAxisTdata = 0x45 := (Option.some.inj hb).symm
      have hidle : s.deframerState = .idle := by rw [h.state, hzero]; rfl
      simp [step, hv, hidle, hi.2.1, versionMatch, hbyte, ipVersion]
    · have hne : s.deframerState ≠ .idle ∧ s.deframerState ≠ .ipOptions := by
        rw [h.state]
        generalize f.length = k at *
        interval_cases k <;> simp [stateAt] at *
      simp [step, hne, h.words (by omega) (by omega)]
  · rw [hlen] at hle
    obtain ⟨r, hr⟩ := h.address (by omega)
    by_cases hshift : 16 ≤ f.length
    · refine ⟨r, ?_⟩
      have htakes : s.deframerState.takesAddress = true := by
        rw [h.state, takesAddress_stateAt]
        simp
        omega
      rw [List.drop_append_of_le_length hshift, List.foldl_append, ← hr]
      simp [step, hv, htakes]
    · have hnone : (f ++ [i.sAxisTdata]).drop 16 = [] := List.drop_eq_nil_of_le (by omega)
      exact ⟨(step s i).dstIpAddressRx, by rw [hnone]; rfl⟩
  · rw [hlen] at heq
    have hlow : i.sAxisTdata = cfg.destinationPort.extractLsb' 0 8 := by
      rw [show f.length = 23 by omega] at hb
      exact (Option.some.inj hb).symm
    have hport : s.deframerState = .dstPort2 := by rw [h.state, show f.length = 23 by omega]; rfl
    have hhigh := h.portHigh (by omega)
    simp only [step, hv, hport, hhigh, hlow]
    exact extractLsb_append_extractLsb _
  · rw [hlen] at heq
    have hhigh : i.sAxisTdata = cfg.destinationPort.extractLsb' 8 8 := by
      rw [show f.length = 22 by omega] at hb
      exact (Option.some.inj hb).symm
    have hport : s.deframerState = .dstPort1 := by rw [h.state, show f.length = 22 by omega]; rfl
    rw [← hhigh]
    simp only [step, hv, hport]
    exact BitVec.extractLsb'_append_eq_left

/-- A byte of the payload. -/
theorem Follows.step_data (h : Follows cfg s f) (hi : Steady cfg s i) (hv : i.sAxisTvalid = true)
    (hlen : 28 ≤ f.length) :
    Follows cfg (step s i) (cutStep f (i.sAxisTdata, i.sAxisTlast)) := by
  have hdata : s.deframerState = .data := by rw [h.state, stateAt_of_le hlen]
  have hdropped : (step s i).droppedPacketsCountU = 0 := by
    simp [step, hi.1, h.drops_eq, h.dropped]
  cases hl : i.sAxisTlast with
  | false =>
    have hlong : 28 ≤ (cutStep f (i.sAxisTdata, false)).length := by
      simp [cutStep]
      omega
    refine ⟨?_, by omega, by omega, by omega, by omega, hdropped⟩
    rw [stateAt_of_le hlong]
    simp [step, hi.1, hv, advance, hdata, hl]
  | true =>
    refine ⟨?_, by simp [cutStep], fun _ => ⟨_, rfl⟩, by simp [cutStep], by simp [cutStep],
      hdropped⟩
    simp [step, hi.1, hv, advance, hdata, hl, cutStep, stateAt]

/-- A cycle in which nothing arrives. -/
theorem Follows.step_quiet (h : Follows cfg s f) (hi : Steady cfg s i)
    (hv : i.sAxisTvalid = false) : Follows cfg (step s i) f := by
  refine ⟨?_, fun h₁ h₂ => ?_, fun h₁ => ?_, fun h₁ => ?_, fun h₁ => ?_, ?_⟩
  · simpa [step, hi.1, hv] using h.state
  · simpa [step, hv] using h.words h₁ h₂
  · simpa [step, hv] using h.address h₁
  · simpa [step, hv] using h.port h₁
  · simpa [step, hv] using h.portHigh h₁
  · simp [step, hi.1, h.drops_eq, h.dropped]

/-- The byte that arrives continues a datagram. -/
def Continues (cfg : Config) (f : List Byte) (b : Byte × Bool) : Prop :=
  ∃ q, q ≠ [] ∧ f ++ [b.1] <+: datagram cfg q ∧ (b.2 = true → f ++ [b.1] = datagram cfg q)

/-- **One cycle**: a byte of a datagram, or none. -/
theorem Follows.step (h : Follows cfg s f) (hi : Steady cfg s i)
    (hb : ∀ b ∈ arrived s i, Continues cfg f b) :
    Follows cfg (step s i) (run cutStep f (arrived s i)) ∧
      output (UdpDeframer.step s i) = collect cutStep payloadBy f (arrived s i) := by
  cases hv : i.sAxisTvalid with
  | false =>
    have hnone : arrived s i = [] := by simp [arrived, hv]
    rw [hnone]
    exact ⟨h.step_quiet hi hv, by simp [output, UdpDeframer.step, deframes, hv]⟩
  | true =>
    have hone : arrived s i = [(i.sAxisTdata, i.sAxisTlast)] := by simp [arrived, hv]
    rw [hone] at hb ⊢
    obtain ⟨q, hq, hpre, hlast⟩ := hb _ (List.mem_singleton_self _)
    refine ⟨?_, ?_⟩
    · rw [run_cons, run_nil]
      by_cases hlen : 28 ≤ f.length
      · exact h.step_data hi hv hlen
      · have hpos := List.length_pos_of_ne_nil hq
        have hl : i.sAxisTlast = false := by
          by_contra hl
          have := congrArg List.length (hlast (by simpa using hl))
          simp [datagram] at this
          omega
        have hheader : f ++ [i.sAxisTdata] <+: headers cfg q.length :=
          List.prefix_of_prefix_length_le hpre (List.prefix_append _ _) (by simp; omega)
        obtain ⟨rest, hrest⟩ := hheader
        rw [hl, cutStep, if_neg (by simp)]
        refine h.step_header (n := q.length) hi hv hl ?_ (by omega) ?_
        · rw [← hrest, List.append_assoc, List.take_left]
        · rw [← hrest, List.append_assoc, List.getElem?_append_right le_rfl]
          simp
    · have hd := h.deframes_eq (i := i) hv
      by_cases hlen : 28 ≤ f.length <;>
        simp [output, UdpDeframer.step, hi.1, hd, hlen, payloadBy]

theorem follows_afterReset (cfg : Config) (h : AfterReset s) :
    Follows cfg s [] ∧ output s = [] := by
  obtain ⟨s₀, i, hi, rfl⟩ := h
  refine ⟨⟨?_, by simp, fun _ => ⟨_, rfl⟩, by simp, by simp, ?_⟩, ?_⟩ <;>
    simp [UdpDeframer.step, hi, stateAt, output]

end Cycle

/-! ## Every run -/

section Runs

variable {cfg : Config} {s : State} {is : List Inputs} {ps : List (List Byte)}

/-- Nothing comes of the headers. -/
theorem collect_payloadBy_header {f l : List Byte} (h : f.length + l.length ≤ 28) :
    collect cutStep payloadBy f (l.map (·, false)) = [] ∧
      run cutStep f (l.map (·, false)) = f ++ l := by
  induction l generalizing f with
  | nil => simp
  | cons b l ih =>
    rw [List.length_cons] at h
    obtain ⟨h₁, h₂⟩ := ih (f := f ++ [b]) (by simp; omega)
    have hstep : cutStep f (b, false) = f ++ [b] := rfl
    have hnone : payloadBy f (b, false) = [] := if_neg (by omega)
    rw [List.map_cons, collect_cons, run_cons, hstep, hnone, h₁, h₂]
    simp

/-- What follows the headers is passed. -/
theorem collect_payloadBy_payload {f q : List Byte} (h : 28 ≤ f.length) :
    collect cutStep payloadBy f (beats q) = beats q ∧
      (q ≠ [] → run cutStep f (beats q) = []) := by
  induction q generalizing f with
  | nil => simp
  | cons b q ih =>
    have hone : payloadBy f (b, q.isEmpty) = [(b, q.isEmpty)] := if_pos h
    rw [beats_cons, collect_cons, run_cons, hone]
    cases q with
    | nil => simp [cutStep]
    | cons c q =>
      obtain ⟨h₁, h₂⟩ := ih (f := f ++ [b]) (by simp; omega)
      exact ⟨congrArg ((b, false) :: ·) h₁, fun _ => h₂ (by simp)⟩

/-- **What comes of datagrams**: their payloads. -/
theorem collect_payloadBy_datagrams (hps : ∀ q ∈ ps, q ≠ []) :
    collect cutStep payloadBy [] (ps.flatMap fun q => beats (datagram cfg q)) =
      ps.flatMap beats := by
  induction ps with
  | nil => rfl
  | cons q ps ih =>
    have hq := hps q (by simp)
    obtain ⟨h₁, h₂⟩ := collect_payloadBy_header (f := []) (l := headers cfg q.length) (by simp)
    obtain ⟨h₃, h₄⟩ := collect_payloadBy_payload (f := headers cfg q.length) (q := q) (by simp)
    rw [List.flatMap_cons, List.flatMap_cons, datagram, beats_append _ hq, List.append_assoc,
      collect_append, h₁, h₂, List.nil_append, List.nil_append, collect_append, h₃, h₄ hq,
      ih fun r hr => hps r (by simp [hr])]

/-- **Every run** in which datagrams for the receiver arrive: what should come of them is what was
shown, and then the beat in the output register. -/
theorem follows_run (hs : AfterReset s) (hsteady : Always step (Steady cfg) s is)
    (hps : ∀ q ∈ ps, q ≠ [])
    (harrived : collect step arrived s is <+: ps.flatMap fun q => beats (datagram cfg q)) :
    Follows cfg (run step s is) (openPacket (collect step arrived s is)) ∧
      collect cutStep payloadBy [] (collect step arrived s is) =
        collect step shown s is ++ output (run step s is) := by
  induction is using List.reverseRecOn with
  | nil =>
    obtain ⟨hfollows, hout⟩ := follows_afterReset cfg hs
    simpa [hout] using hfollows
  | append_singleton is i ih =>
    rw [always_append] at hsteady
    rw [collect_concat] at harrived ⊢
    obtain ⟨hfollows, hout⟩ := ih hsteady.1 ((List.prefix_append _ _).trans harrived)
    have hcontinues : ∀ b ∈ arrived (run step s is) i,
        Continues cfg (openPacket (collect step arrived s is)) b := by
      intro b hb
      have hone : arrived (run step s is) i = [b] := by
        cases hv : i.sAxisTvalid <;> simp [arrived, hv] at hb ⊢
        exact hb.symm
      have hne : ∀ p ∈ ps.map (datagram cfg), p ≠ [] := by
        intro p hp
        obtain ⟨q, -, rfl⟩ := List.mem_map.mp hp
        exact List.cons_ne_nil _ _
      rw [hone, ← List.flatMap_map] at harrived
      obtain ⟨p, hp, hcont⟩ := exists_mem_of_concat_prefix hne harrived
      obtain ⟨q, hq, rfl⟩ := List.mem_map.mp hp
      exact ⟨q, hps q hq, hcont⟩
    obtain ⟨h₁, h₂⟩ := hfollows.step hsteady.2.1 hcontinues
    rw [run_concat, openPacket_append, collect_concat, collect_append, hout, h₂]
    exact ⟨h₁, rfl⟩

end Runs

end RmiiEthernet.UdpDeframer
