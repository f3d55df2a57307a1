import RmiiEthernet.CircularBuffer
import RmiiEthernet.Ethernet.Format
import RmiiEthernet.Sync.Packet
import Mathlib.Data.List.DropRight

/-!
# The Ethernet deframer

`ethernet_deframer` takes the bytes of received frames, compares the addresses and the Ethertype
as they come by, and passes the payload of the frames that match. The last four bytes of a frame
are its check sequence, so the payload goes through a `circular_buffer` of four rows: a byte leaves
it only when the fourth byte after it has arrived, and the byte that leaves when the last byte of
the frame arrives is the last one of the payload. An `ethernet_fcs` sees every byte, and its verdict
is ready in that very cycle.

* `stateAfter` is the state of the machine as a function of the bytes of the frame so far.
* `Follows` ties the registers to these bytes, `Follows.step` shows that one cycle keeps it.
-/

namespace RmiiEthernet.EthernetDeframer

open Sync EthernetFcs EthernetFrame

/-! ## The circuit -/

/-- `fsm_state_t`. -/
inductive FsmState
  | idle
  | destMac2 | destMac3 | destMac4 | destMac5 | destMac6
  | sourceMac1 | sourceMac2 | sourceMac3 | sourceMac4 | sourceMac5 | sourceMac6
  | ethertype1 | ethertype2
  | payloadAndFcs
  | discard
  deriving DecidableEq

/-- The input ports in one cycle. -/
structure Inputs where
  reset : Bool := false
  enableIn : Bool := true
  filterSourceMacIn : Bool := false
  sourceMacIn : BitVec 48 := 0
  destinationMacIn : BitVec 48
  sAxisTdata : Byte := 0
  sAxisTvalid : Bool := false
  sAxisTlast : Bool := false

/-- The registers. -/
structure State where
  deframerState : FsmState
  fcsReset : Bool
  fcs : EthernetFcs.State
  srcMac : BitVec 48
  dstMac : BitVec 48
  payloadFinished : Bool
  droppedPacketCountU : BitVec 16
  deframedTdataR1 : Byte
  deframedTvalidR1 : Bool
  fifo : CircularBuffer.State 2 Byte
  mAxisTdata : Byte
  mAxisTuser : Bool
  mAxisTvalid : Bool
  mAxisTlast : Bool

/-- `C_ETHERTYPE_IP_UPPER`. -/
def ethertypeIpUpper : Byte := 0x08

/-- `C_ETHERTYPE_IP_LOWER`. -/
def ethertypeIpLower : Byte := 0x00

/-- The states in which a byte goes into `src_mac`. -/
def FsmState.takesSource : FsmState → Bool
  | .sourceMac1 | .sourceMac2 | .sourceMac3 | .sourceMac4 | .sourceMac5 | .sourceMac6 => true
  | _ => false

/-- The states in which a byte goes into `dst_mac`. -/
def FsmState.takesDest : FsmState → Bool
  | .idle | .destMac2 | .destMac3 | .destMac4 | .destMac5 | .destMac6 => true
  | _ => false

/-- The shift of an address register. -/
def shiftIn (r : BitVec 48) (b : Byte) : BitVec 48 := r.extractLsb' 0 40 ++ b

section Signals

variable (s : State) (i : Inputs)

/-- `src_mac_match`: the address at the port, or the broadcast address. -/
def srcMacMatch : Bool := s.srcMac == i.sourceMacIn || s.srcMac == BitVec.allOnes 48

/-- `dst_mac_match`: the address at the port, or the broadcast address. -/
def dstMacMatch : Bool := s.dstMac == i.destinationMacIn || s.dstMac == BitVec.allOnes 48

/-- `fcs_matches`. -/
def fcsMatches : Bool := verifyOut s.fcs

/-- `idle_out`. -/
def idleOut : Bool := s.deframerState == .idle

/-- The next state when a byte arrives. -/
def advance : FsmState :=
  match s.deframerState with
  | .idle => if i.enableIn then .destMac2 else .idle
  | .destMac2 => .destMac3
  | .destMac3 => .destMac4
  | .destMac4 => .destMac5
  | .destMac5 => .destMac6
  | .destMac6 => .sourceMac1
  | .sourceMac1 => if dstMacMatch s i then .sourceMac2 else .discard
  | .sourceMac2 => .sourceMac3
  | .sourceMac3 => .sourceMac4
  | .sourceMac4 => .sourceMac5
  | .sourceMac5 => .sourceMac6
  | .sourceMac6 => .ethertype1
  | .ethertype1 =>
    if !srcMacMatch s i && i.filterSourceMacIn || i.sAxisTdata != ethertypeIpUpper then .discard
    else .ethertype2
  | .ethertype2 => if i.sAxisTdata != ethertypeIpLower then .discard else .payloadAndFcs
  | .payloadAndFcs => if i.sAxisTlast then .idle else .payloadAndFcs
  | .discard => if i.sAxisTlast then .idle else .discard

/-- A byte of the payload or of the check sequence arrives. -/
def deframes : Bool := i.sAxisTvalid && s.deframerState == .payloadAndFcs

/-- The last byte of a frame that is not wanted arrives. -/
def drops : Bool := i.sAxisTvalid && s.deframerState == .discard && i.sAxisTlast

/-- `deframed_tvalid_r6`: a byte leaves the full delay line when the next one comes. -/
def deframedTvalidR6 : Bool := s.fifo.fullSig && !s.fifo.emptySig && s.deframedTvalidR1

/-- One clock edge. -/
def step : State where
  srcMac :=
    if i.reset then 0
    else if i.sAxisTvalid && s.deframerState.takesSource then shiftIn s.srcMac i.sAxisTdata
    else s.srcMac
  dstMac :=
    if i.reset then 0
    else if i.sAxisTvalid && s.deframerState.takesDest then shiftIn s.dstMac i.sAxisTdata
    else s.dstMac
  fcs := EthernetFcs.step false s.fcs
    { reset := s.fcsReset || i.reset
      dataIn := i.sAxisTdata
      validIn := i.sAxisTvalid
      enCalcIn := i.sAxisTvalid }
  deframerState := if i.reset then .idle else if i.sAxisTvalid then advance s i else s.deframerState
  fcsReset := deframes s i && i.sAxisTlast || drops s i
  payloadFinished :=
    if i.reset then false
    else if i.sAxisTvalid && s.deframerState == .idle then false
    else deframes s i && i.sAxisTlast || s.payloadFinished
  droppedPacketCountU :=
    if i.reset then 0
    else if drops s i then s.droppedPacketCountU + 1
    else s.droppedPacketCountU
  deframedTdataR1 := if i.reset then 0 else if deframes s i then i.sAxisTdata else 0
  deframedTvalidR1 := !i.reset && deframes s i
  fifo := CircularBuffer.step s.fifo
    { sreset := s.payloadFinished
      writeData := s.deframedTdataR1
      writeEn := s.deframedTvalidR1
      readEn := s.fifo.fullSig && s.deframedTvalidR1 }
  mAxisTdata := if i.reset then 0 else s.fifo.readData
  mAxisTvalid := !i.reset && deframedTvalidR6 s
  mAxisTlast := !i.reset && s.payloadFinished
  mAxisTuser := !i.reset && (s.payloadFinished && !fcsMatches s)

end Signals

/-- The initial values of the registers that have one. -/
structure PowerUp (s : State) : Prop where
  deframerState : s.deframerState = .idle
  payloadFinished : s.payloadFinished = false
  droppedPacketCountU : s.droppedPacketCountU = 0
  deframedTvalidR1 : s.deframedTvalidR1 = false
  readPointer : s.fifo.readPointer = 0
  writePointer : s.fifo.writePointer = 0

/-- The state after the reset that follows power-up. -/
def AfterReset (s : State) : Prop := ∃ s₀ i, PowerUp s₀ ∧ i.reset = true ∧ s = step s₀ i

/-! ## What happens at the ports -/

/-- The beat that arrives in a cycle. -/
def arrived (_ : State) (i : Inputs) : List (Byte × Bool) :=
  if i.sAxisTvalid then [(i.sAxisTdata, i.sAxisTlast)] else []

/-- A beat of the output: a byte, `tlast` and `tuser`. -/
abbrev OutBeat := Byte × Bool × Bool

/-- The beat in the output register. -/
def output (s : State) : List OutBeat :=
  if s.mAxisTvalid then [(s.mAxisTdata, s.mAxisTlast, s.mAxisTuser)] else []

/-- The beat shown in a cycle. -/
def shown (s : State) (_ : Inputs) : List OutBeat := output s

/-- The configuration. -/
structure Config where
  filterSourceMac : Bool
  sourceMac : BitVec 48
  destinationMac : BitVec 48

/-- No reset, enabled, and the configuration `cfg` on the ports. -/
def Steady (cfg : Config) (_ : State) (i : Inputs) : Prop :=
  i.reset = false ∧ i.enableIn = true ∧ i.filterSourceMacIn = cfg.filterSourceMac ∧
    i.sourceMacIn = cfg.sourceMac ∧ i.destinationMacIn = cfg.destinationMac

instance (cfg : Config) (s : State) (i : Inputs) : Decidable (Steady cfg s i) :=
  inferInstanceAs (Decidable (_ ∧ _))

/-- The line the frames come from: the bytes of the frame in progress, and whether a frame ended
in the cycle before. -/
structure Line where
  frame : List Byte
  ended : Bool

/-- A byte on the line, or a cycle without one. -/
def Line.step (l : Line) (i : Inputs) : Line :=
  if i.sAxisTvalid then ⟨cutStep l.frame (i.sAxisTdata, i.sAxisTlast), i.sAxisTlast⟩
  else ⟨l.frame, false⟩

/-- A frame has at least 15 bytes, and there is an idle cycle after it. -/
def Line.Allows (l : Line) (i : Inputs) : Prop :=
  i.sAxisTvalid = true →
    l.ended = false ∧ (i.sAxisTlast = true → 15 ≤ (l.frame ++ [i.sAxisTdata]).length)

instance (l : Line) (i : Inputs) : Decidable (l.Allows i) :=
  inferInstanceAs (Decidable (_ → _))

/-! ## What the deframer is for -/

section Spec

variable (cfg : Config)

/-- The bytes are those of the address `a` or of the broadcast address. -/
def IsFor (a : BitVec 48) (m : List Byte) : Prop :=
  m = macBytes a ∨ m = macBytes (BitVec.allOnes 48)

instance (a : BitVec 48) (m : List Byte) : Decidable (IsFor a m) :=
  inferInstanceAs (Decidable (_ ∨ _))

/-- The destination of a frame is the configured address or the broadcast address. -/
def DestMatches (f : List Byte) : Prop := IsFor cfg.destinationMac (f.take 6)

/-- So is its source, if sources are filtered. -/
def SourceMatches (f : List Byte) : Prop :=
  cfg.filterSourceMac = true → IsFor cfg.sourceMac ((f.drop 6).take 6)

instance (f : List Byte) : Decidable (DestMatches cfg f) := inferInstanceAs (Decidable (IsFor _ _))

instance (f : List Byte) : Decidable (SourceMatches cfg f) := inferInstanceAs (Decidable (_ → _))

/-- The addresses and the Ethertype of a frame are those of `cfg`. -/
def Matches (f : List Byte) : Prop :=
  DestMatches cfg f ∧ SourceMatches cfg f ∧ (f.drop 12).take 2 = [0x08, 0x00]

instance (f : List Byte) : Decidable (Matches cfg f) := inferInstanceAs (Decidable (_ ∧ _ ∧ _))

/-- The payload of a frame: its bytes from the fourteenth on without the last four. -/
def payloadOf (f : List Byte) : List Byte := (f.drop 14).take (f.length - 18)

/-- **What comes of a frame**: nothing if it does not match; else its payload, and the
verdict on the check sequence with the last byte of it. -/
def deframed (f : List Byte) : List OutBeat :=
  if Matches cfg f then
    (beats (payloadOf f)).map fun b => (b.1, b.2, b.2 && !decide (Checked f))
  else []

/-- What comes of a frame in progress. -/
def deframing (f : List Byte) : List OutBeat :=
  if Matches cfg f then (payloadOf f).map (·, false, false) else []

/-- What comes of one byte `b.1` after the bytes `f` of the frame. -/
def deframedBy (f : List Byte) (b : Byte × Bool) : List OutBeat :=
  if Matches cfg f ∧ 18 ≤ f.length then
    [(f.getD (f.length - 4) 0, b.2, b.2 && !decide (Checked (f ++ [b.1])))]
  else []

end Spec

/-! ## The state of the machine -/

section StateAfter

variable (cfg : Config)

/-- The bytes so far do not rule a match out, as far as the machine has compared them. -/
def Admitted (f : List Byte) : Prop :=
  (7 ≤ f.length → DestMatches cfg f) ∧
    (13 ≤ f.length → SourceMatches cfg f ∧ f[12]? = some 0x08) ∧
    (14 ≤ f.length → f[13]? = some 0x00)

instance (f : List Byte) : Decidable (Admitted cfg f) := inferInstanceAs (Decidable (_ ∧ _ ∧ _))

/-- The state after `n` bytes that do not rule a match out. -/
def stateAt : ℕ → FsmState
  | 0 => .idle
  | 1 => .destMac2
  | 2 => .destMac3
  | 3 => .destMac4
  | 4 => .destMac5
  | 5 => .destMac6
  | 6 => .sourceMac1
  | 7 => .sourceMac2
  | 8 => .sourceMac3
  | 9 => .sourceMac4
  | 10 => .sourceMac5
  | 11 => .sourceMac6
  | 12 => .ethertype1
  | 13 => .ethertype2
  | _ => .payloadAndFcs

/-- The state of the machine after the bytes `f` of a frame. -/
def stateAfter (f : List Byte) : FsmState :=
  if Admitted cfg f then stateAt f.length else .discard

end StateAfter

section Parse

variable {cfg : Config} {f : List Byte} {b : Byte}

theorem matches_iff : Matches cfg f ↔ 14 ≤ f.length ∧ Admitted cfg f := by
  have htype : (f.drop 12).take 2 = [0x08, 0x00] ↔
      14 ≤ f.length ∧ f[12]? = some 0x08 ∧ f[13]? = some 0x00 := by
    constructor
    · intro h
      have h12 := congrArg (·[0]?) h
      have h13 := congrArg (·[1]?) h
      simp at h12 h13
      have := (List.getElem?_eq_some_iff.mp h13).1
      exact ⟨by omega, h12, h13⟩
    · rintro ⟨hlen, h12, h13⟩
      apply List.ext_getElem?
      intro k
      match k with
      | 0 => simpa using h12
      | 1 => simpa using h13
      | k + 2 => simp
  rw [Matches, htype]
  constructor
  · rintro ⟨h₁, h₂, h₃, h₄, h₅⟩
    exact ⟨h₃, fun _ => h₁, fun _ => ⟨h₂, h₄⟩, fun _ => h₅⟩
  · rintro ⟨hlen, h₁, h₂, h₃⟩
    obtain ⟨h₂, h₄⟩ := h₂ (by omega)
    exact ⟨h₁ (by omega), h₂, hlen, h₄, h₃ hlen⟩

theorem destMatches_append (hf : 6 ≤ f.length) :
    DestMatches cfg (f ++ [b]) ↔ DestMatches cfg f := by
  rw [DestMatches, DestMatches, List.take_append_of_le_length hf]

theorem sourceMatches_append (hf : 12 ≤ f.length) :
    SourceMatches cfg (f ++ [b]) ↔ SourceMatches cfg f := by
  rw [SourceMatches, SourceMatches, List.drop_append_of_le_length (by omega),
    List.take_append_of_le_length (by rw [List.length_drop]; omega)]

theorem getElem?_concat_of_le {k : ℕ} (hk : k ≤ f.length) (x : Byte) :
    (f ++ [b])[k]? = some x ↔ if k = f.length then b = x else f[k]? = some x := by
  split
  · next h => simp [h]
  · rw [List.getElem?_append_left (by omega)]

/-- What one more byte adds to the comparison. -/
theorem admitted_append : Admitted cfg (f ++ [b]) ↔ Admitted cfg f ∧
    (f.length = 6 → DestMatches cfg f) ∧
    (f.length = 12 → SourceMatches cfg f ∧ b = 0x08) ∧ (f.length = 13 → b = 0x00) := by
  unfold Admitted
  rw [List.length_append, List.length_singleton]
  constructor
  · rintro ⟨h₁, h₂, h₃⟩
    refine ⟨⟨fun h => ?_, fun h => ?_, fun h => ?_⟩, fun h => ?_, fun h => ?_, fun h => ?_⟩
    · exact (destMatches_append (by omega)).mp (h₁ (by omega))
    · have := h₂ (by omega)
      rwa [sourceMatches_append (by omega), getElem?_concat_of_le (by omega), if_neg (by omega)]
        at this
    · have := h₃ (by omega)
      rwa [getElem?_concat_of_le (by omega), if_neg (by omega)] at this
    · exact (destMatches_append (by omega)).mp (h₁ (by omega))
    · have := h₂ (by omega)
      rwa [sourceMatches_append (by omega), getElem?_concat_of_le (by omega), if_pos h.symm] at this
    · have := h₃ (by omega)
      rwa [getElem?_concat_of_le (by omega), if_pos h.symm] at this
  · rintro ⟨⟨h₁, h₂, h₃⟩, h₄, h₅, h₆⟩
    refine ⟨fun h => ?_, fun h => ?_, fun h => ?_⟩
    · rw [destMatches_append (by omega)]
      rcases Nat.eq_or_lt_of_le (show 6 ≤ f.length by omega) with he | hl
      · exact h₄ he.symm
      · exact h₁ hl
    · rw [sourceMatches_append (by omega), getElem?_concat_of_le (by omega)]
      split
      · next he => exact h₅ he.symm
      · exact h₂ (by omega)
    · rw [getElem?_concat_of_le (by omega)]
      split
      · next he => exact h₆ he.symm
      · exact h₃ (by omega)

end Parse

/-! ## The address registers -/

section Registers

variable {cfg : Config} {f : List Byte} {s : State} {i : Inputs}

theorem shiftIn_extract_zero (r : BitVec 48) (b : Byte) : (shiftIn r b).extractLsb' 0 8 = b := by
  apply BitVec.eq_of_getLsbD_eq
  intro k hk
  rw [shiftIn, BitVec.getLsbD_extractLsb', Nat.zero_add, BitVec.getLsbD_append]
  simp [hk]

theorem shiftIn_extract (r : BitVec 48) (b : Byte) {a : ℕ} (ha : a + 8 ≤ 40) :
    (shiftIn r b).extractLsb' (a + 8) 8 = r.extractLsb' a 8 := by
  apply BitVec.eq_of_getLsbD_eq
  intro k hk
  simp only [shiftIn, BitVec.getLsbD_extractLsb', BitVec.getLsbD_append, hk, decide_true,
    Bool.true_and, show ¬ a + 8 + k < 8 by omega, if_false, show a + 8 + k - 8 < 40 by omega]
  congr 1
  omega

theorem macBytes_shiftIn (r : BitVec 48) (b : Byte) :
    macBytes (shiftIn r b) = (macBytes r).tail ++ [b] := by
  simp only [macBytes, shiftIn_extract_zero]
  rw [shiftIn_extract r b (a := 32) (by omega), shiftIn_extract r b (a := 24) (by omega),
    shiftIn_extract r b (a := 16) (by omega), shiftIn_extract r b (a := 8) (by omega),
    shiftIn_extract r b (a := 0) (by omega)]
  rfl

theorem macBytes_foldl_shiftIn (r : BitVec 48) (m : List Byte) (hm : m.length = 6) :
    macBytes (m.foldl shiftIn r) = m := by
  match m, hm with
  | [a, b, c, d, e, g], _ =>
    simp only [List.foldl_cons, List.foldl_nil, macBytes_shiftIn]
    rfl

theorem isFor_iff {m : List Byte} (hm : m.length = 6) (r v : BitVec 48) :
    (m.foldl shiftIn r == v || m.foldl shiftIn r == BitVec.allOnes 48) = true ↔ IsFor v m := by
  have key (u : BitVec 48) : m.foldl shiftIn r = u ↔ m = macBytes u := by
    constructor
    · rintro rfl
      rw [macBytes_foldl_shiftIn r m hm]
    · intro h
      apply macBytes_injective
      rw [macBytes_foldl_shiftIn r m hm, h]
  rw [Bool.or_eq_true, beq_iff_eq, beq_iff_eq, key, key]
  rfl

/-- The machine and the address registers after the bytes `f` of a frame. -/
structure Parses (cfg : Config) (s : State) (f : List Byte) : Prop where
  state : s.deframerState = stateAfter cfg f
  dst : ∃ r, s.dstMac = (f.take 6).foldl shiftIn r
  src : Admitted cfg f → ∃ r, s.srcMac = ((f.drop 6).take 6).foldl shiftIn r

theorem Parses.dstMacMatch_iff (h : Parses cfg s f) (hi : Steady cfg s i) (hf : f.length = 6) :
    dstMacMatch s i = true ↔ DestMatches cfg f := by
  obtain ⟨r, hr⟩ := h.dst
  rw [dstMacMatch, hr, hi.2.2.2.2]
  exact isFor_iff (by simp [hf]) _ _

theorem Parses.srcMacMatch_iff (h : Parses cfg s f) (hi : Steady cfg s i) (hf : f.length = 12)
    (ha : Admitted cfg f) : srcMacMatch s i = true ↔ IsFor cfg.sourceMac ((f.drop 6).take 6) := by
  obtain ⟨r, hr⟩ := h.src ha
  rw [srcMacMatch, hr, hi.2.2.2.1]
  exact isFor_iff (by simp [hf]) _ _

theorem stateAt_of_le {n : ℕ} (hn : 14 ≤ n) : stateAt n = .payloadAndFcs := by
  obtain ⟨m, rfl⟩ := Nat.exists_eq_add_of_le' hn
  rfl

/-- The machine takes one more byte of a frame that goes on. -/
theorem Parses.advance_eq (h : Parses cfg s f) (hi : Steady cfg s i) (hl : i.sAxisTlast = false) :
    advance s i = stateAfter cfg (f ++ [i.sAxisTdata]) := by
  have hstate := h.state
  rw [stateAfter] at hstate ⊢
  by_cases ha : Admitted cfg f
  · rw [if_pos ha] at hstate
    have key : Admitted cfg (f ++ [i.sAxisTdata]) ↔ _ := admitted_append
    rw [and_iff_right ha] at key
    have hdst := h.dstMacMatch_iff hi
    have hsrc := fun hf => h.srcMacMatch_iff hi hf ha
    by_cases hlen : 14 ≤ f.length
    · rw [if_pos (key.mpr ⟨by omega, by omega, by omega⟩), advance, hstate, stateAt_of_le hlen,
        stateAt_of_le (by simp; omega)]
      simp [hl]
    · simp only [key, List.length_append, List.length_singleton]
      push Not at hlen
      generalize f.length = n at *
      interval_cases n
      all_goals simp [advance, hstate, stateAt, hi.2.1]
      · by_cases hd : DestMatches cfg f <;> simp [hd, hdst]
      · have hiff : (srcMacMatch s i = false ∧ i.filterSourceMacIn = true ∨
            ¬ i.sAxisTdata = ethertypeIpUpper) ↔ ¬ (SourceMatches cfg f ∧ i.sAxisTdata = 8) := by
          rw [SourceMatches, ← hsrc rfl, hi.2.2.1, ethertypeIpUpper]
          cases srcMacMatch s i <;> cases cfg.filterSourceMac <;> simp
        rw [if_congr hiff rfl rfl, ite_not]
        rfl
      · rfl
  · rw [if_neg ha] at hstate
    have hnot : ¬ Admitted cfg (f ++ [i.sAxisTdata]) := fun h => ha (admitted_append.mp h).1
    simp [advance, hstate, hl, hnot]

theorem takesDest_stateAt (n : ℕ) : (stateAt n).takesDest = decide (n < 6) := by
  by_cases hn : 14 ≤ n
  · simp [stateAt_of_le hn, FsmState.takesDest]
    omega
  · interval_cases n <;> rfl

theorem takesSource_stateAt (n : ℕ) : (stateAt n).takesSource = decide (6 ≤ n ∧ n < 12) := by
  by_cases hn : 14 ≤ n
  · simp [stateAt_of_le hn, FsmState.takesSource]
    omega
  · interval_cases n <;> rfl

theorem foldl_concat_take (r : BitVec 48) {m : List Byte} (hm : m.length < 6) (b : Byte) :
    ((m ++ [b]).take 6).foldl shiftIn r = shiftIn ((m.take 6).foldl shiftIn r) b := by
  rw [List.take_of_length_le (by simp; omega), List.take_of_length_le hm.le, List.foldl_append]
  rfl

theorem Parses.step (h : Parses cfg s f) (hi : Steady cfg s i) (hv : i.sAxisTvalid = true)
    (hl : i.sAxisTlast = false) : Parses cfg (step s i) (f ++ [i.sAxisTdata]) := by
  have hreset := hi.1
  have hstate := h.state
  rw [stateAfter] at hstate
  obtain ⟨r, hr⟩ := h.dst
  refine ⟨?_, ⟨r, ?_⟩, fun ha => ?_⟩
  · rw [← h.advance_eq hi hl]
    simp [EthernetDeframer.step, hreset, hv]
  · have htakes : s.deframerState.takesDest = decide (f.length < 6) := by
      rw [hstate]
      split
      · exact takesDest_stateAt _
      · next hadm =>
        have : ¬ f.length < 6 := fun hlen => hadm ⟨by omega, by omega, by omega⟩
        simp [this, FsmState.takesDest]
    simp only [EthernetDeframer.step, hreset, hv, htakes, hr]
    by_cases hlen : f.length < 6
    · simp [hlen, foldl_concat_take r hlen]
    · simp [hlen, List.take_append_of_le_length (Nat.le_of_not_lt hlen)]
  · have hadm : Admitted cfg f := (admitted_append.mp ha).1
    obtain ⟨r, hr⟩ := h.src hadm
    rw [if_pos hadm] at hstate
    refine ⟨if 6 ≤ f.length then r else s.srcMac, ?_⟩
    simp only [EthernetDeframer.step, hreset, hv, hstate, takesSource_stateAt]
    by_cases h6 : 6 ≤ f.length
    · rw [List.drop_append_of_le_length h6]
      by_cases h12 : f.length < 12
      · simp [h6, h12, hr, foldl_concat_take r (m := f.drop 6) (by rw [List.length_drop]; omega)]
      · rw [List.take_append_of_le_length (by rw [List.length_drop]; omega)]
        simp [h6, h12, hr]
    · rw [List.drop_of_length_le (by simp; omega)]
      simp [h6]

end Registers

/-! ## The delay line -/

section Delay

variable {cfg : Config} {f q : List Byte} {s : State} {i : Inputs}

/-- The byte in the register in front of the buffer. -/
def held (s : State) : List Byte := if s.deframedTvalidR1 then [s.deframedTdataR1] else []

/-- The beat on its way to the output register. -/
def leaving (s : State) : List OutBeat :=
  if deframedTvalidR6 s then
    [(s.fifo.readData, s.payloadFinished, s.payloadFinished && !fcsMatches s)]
  else []

theorem output_step (hi : i.reset = false) : output (step s i) = leaving s := by
  simp [output, leaving, step, hi]

theorem output_reset (hi : i.reset = true) : output (step s i) = [] ∧ leaving (step s i) = [] := by
  simp [output, leaving, deframedTvalidR6, step, hi]

theorem PowerUp.holds_nil (h : PowerUp s) : CircularBuffer.Holds s.fifo [] := by
  rw [CircularBuffer.holds_nil_iff, h.readPointer, h.writePointer]

theorem length_rtake_four (q : List Byte) : (q.rtake 4).length = min 4 q.length := by
  rw [List.rtake, List.length_drop]
  omega

theorem rtake_four_of_le (hq : 4 ≤ q.length) :
    q.rtake 4 = q.getD (q.length - 4) 0 :: q.rtake 3 := by
  rw [List.rtake, List.rtake, List.drop_eq_getElem_cons (by omega),
    List.getD_eq_getElem?_getD, List.getElem?_eq_getElem (by omega), Option.getD_some]
  congr 2
  omega

theorem rtake_of_le {n : ℕ} (hq : q.length ≤ n) : q.rtake n = q := by
  rw [List.rtake, Nat.sub_eq_zero_of_le hq, List.drop_zero]

/-- The buffer keeps the last four bytes. -/
theorem holds_step (h : CircularBuffer.Holds s.fifo (q.rtake 4)) (hp : s.payloadFinished = false) :
    CircularBuffer.Holds (step s i).fifo ((q ++ held s).rtake 4) := by
  have hfull := h.full_iff
  rw [length_rtake_four] at hfull
  simp only [step, hp]
  cases hv : s.deframedTvalidR1
  · simp only [held, hv, Bool.false_eq_true, if_false, List.append_nil, Bool.and_false]
    exact h.step_quiet rfl rfl rfl
  · simp only [held, hv, if_true, Bool.and_true, List.rtake_concat_succ]
    by_cases hq : 4 ≤ q.length
    · have hfull : s.fifo.fullSig = true := hfull.mpr (by simp [hq])
      rw [rtake_four_of_le hq] at h
      apply h.step_shift rfl rfl hfull
      rw [List.rtake, List.length_drop]
      simp
      omega
    · have hfull : s.fifo.fullSig = false := by
        rw [← Bool.not_eq_true, hfull]
        simp
        omega
      rw [rtake_of_le (by omega)] at h
      rw [rtake_of_le (by omega)]
      exact h.step_write rfl rfl hfull (by simp; omega)

/-- The bytes in the delay line after a cycle. -/
theorem holds_next (h : CircularBuffer.Holds s.fifo q) (i : Inputs) :
    CircularBuffer.Holds (step s i).fifo
      ((if s.payloadFinished then [] else q ++ held s).rtake 4) := by
  cases hp : s.payloadFinished with
  | true => exact CircularBuffer.holds_step_sreset hp
  | false =>
    apply holds_step _ hp
    rwa [rtake_of_le (show q.length ≤ 4 from h.fits)]

theorem leaving_eq (h : CircularBuffer.Holds s.fifo (q.rtake 4)) :
    leaving s =
      if s.deframedTvalidR1 = true ∧ 4 ≤ q.length then
        [(q.getD (q.length - 4) 0, s.payloadFinished, s.payloadFinished && !fcsMatches s)]
      else [] := by
  have hfull := h.full_iff
  have hempty := h.empty_iff
  rw [length_rtake_four] at hfull
  by_cases hq : 4 ≤ q.length
  · rw [rtake_four_of_le hq] at h hempty
    have hfull : s.fifo.fullSig = true := hfull.mpr (by simp [hq])
    have hempty : s.fifo.emptySig = false := by simpa [← Bool.not_eq_true] using hempty
    simp [leaving, deframedTvalidR6, hfull, hempty, hq, h.readData]
  · have hfull : s.fifo.fullSig = false := by
      rw [← Bool.not_eq_true, hfull]
      simp
      omega
    simp [leaving, deframedTvalidR6, hfull, hq]

/-! ## One cycle -/

/-- The bytes of a frame that go into the delay line. -/
def payloadAndFcs (cfg : Config) (f : List Byte) : List Byte :=
  if Matches cfg f then f.drop 14 else []

/-- The registers while the bytes `f` of a frame have arrived, `f = []` between frames. -/
structure Receives (cfg : Config) (s : State) (f : List Byte) : Prop extends Parses cfg s f where
  fcsReset : s.fcsReset = false
  crcReg : s.fcs.crcReg = circuitRegister f
  delay : ∃ q, q ++ held s = payloadAndFcs cfg f ∧ CircularBuffer.Holds s.fifo (q.rtake 4)
  unfinished : f ≠ [] → s.payloadFinished = false

/-- The registers in the cycle after a frame. -/
structure Ended (s : State) : Prop where
  state : s.deframerState = .idle
  fcsReset : s.fcsReset = true
  delay : s.payloadFinished = true ∨ held s = [] ∧ CircularBuffer.Holds s.fifo []

/-- The registers and the line the frames come from. -/
def Follows (cfg : Config) (s : State) (l : Line) : Prop :=
  if l.ended then l.frame = [] ∧ Ended s else Receives cfg s l.frame

theorem stateAt_eq_payload_iff (n : ℕ) : stateAt n = .payloadAndFcs ↔ 14 ≤ n := by
  refine ⟨fun h => ?_, stateAt_of_le⟩
  by_contra hn
  interval_cases n <;> cases h

theorem Parses.payload_iff (h : Parses cfg s f) :
    s.deframerState = .payloadAndFcs ↔ Matches cfg f := by
  rw [h.state, stateAfter, matches_iff]
  split
  · next ha => rw [stateAt_eq_payload_iff, and_iff_left ha]
  · next ha => simp [ha]

theorem Parses.deframes_eq (h : Parses cfg s f) (hv : i.sAxisTvalid = true) :
    deframes s i = decide (Matches cfg f) := by
  rw [deframes, hv, Bool.true_and, Bool.eq_iff_iff, beq_iff_eq, h.payload_iff, decide_eq_true_iff]

/-- A byte of a frame goes into the delay line when the header has matched. -/
theorem not_matches_nil : ¬ Matches cfg [] := fun hm => by simpa using (matches_iff.mp hm).1

theorem payloadAndFcs_append (b : Byte) : payloadAndFcs cfg (f ++ [b]) =
    payloadAndFcs cfg f ++ if Matches cfg f then [b] else [] := by
  unfold payloadAndFcs
  by_cases hm : Matches cfg f
  · obtain ⟨hlen, ha⟩ := matches_iff.mp hm
    have hm' : Matches cfg (f ++ [b]) := matches_iff.mpr
      ⟨by simp; omega, admitted_append.mpr ⟨ha, by omega, by omega, by omega⟩⟩
    rw [if_pos hm, if_pos hm', if_pos hm, List.drop_append_of_le_length hlen]
  · rw [if_neg hm, if_neg hm, List.append_nil]
    split
    · next hm' =>
      obtain ⟨hlen, ha⟩ := matches_iff.mp hm'
      have : ¬ 14 ≤ f.length := fun hlen => hm (matches_iff.mpr ⟨hlen, (admitted_append.mp ha).1⟩)
      rw [List.drop_of_length_le (by simp; omega)]
    · rfl

theorem Receives.holds_step (h : Receives cfg s f) :
    CircularBuffer.Holds (step s i).fifo ((payloadAndFcs cfg f).rtake 4) := by
  obtain ⟨q, hq, hfifo⟩ := h.delay
  cases hp : s.payloadFinished
  · rw [← hq]
    exact EthernetDeframer.holds_step hfifo hp
  · have hf : f = [] := by
      by_contra hf
      simp [h.unfinished hf] at hp
    have hnil : payloadAndFcs cfg f = [] := by
      simp [hf, payloadAndFcs]
    rw [hnil]
    exact CircularBuffer.holds_step_sreset hp

/-- A cycle in which no byte arrives. -/
theorem Receives.step_quiet (h : Receives cfg s f) (hi : Steady cfg s i)
    (hv : i.sAxisTvalid = false) : Receives cfg (step s i) f ∧ leaving (step s i) = [] := by
  have hreset := hi.1
  have hfcs := h.fcsReset
  refine ⟨⟨⟨?_, ?_, ?_⟩, ?_, ?_, ⟨payloadAndFcs cfg f, ?_, h.holds_step⟩, fun hf => ?_⟩, ?_⟩
  · simpa [step, hreset, hv] using h.state
  · simpa [step, hreset, hv] using h.dst
  · simpa [step, hreset, hv] using h.src
  · simp [step, hv, deframes, drops]
  · simpa [step, hreset, hv, hfcs, EthernetFcs.step] using h.crcReg
  · simp [held, step, deframes, hv]
  · simp [step, hreset, hv, deframes, h.unfinished hf]
  · simp [leaving, deframedTvalidR6, step, deframes, hv]

theorem crcReg_step (h : Receives cfg s f) (hi : Steady cfg s i) (hv : i.sAxisTvalid = true) :
    (step s i).fcs.crcReg = circuitRegister (f ++ [i.sAxisTdata]) := by
  simp [step, hi.1, hv, h.fcsReset, EthernetFcs.step, crcNext_circuitRegister h.crcReg]

theorem payloadFinished_step (h : Receives cfg s f) (hi : Steady cfg s i)
    (hv : i.sAxisTvalid = true) :
    (step s i).payloadFinished = (decide (Matches cfg f) && i.sAxisTlast) := by
  have hreset := hi.1
  have hd := h.deframes_eq hv
  simp only [step, hreset, hv, hd, Bool.false_eq_true, if_false, Bool.true_and]
  by_cases hidle : s.deframerState = .idle
  · have hm : ¬ Matches cfg f := by
      rw [← h.payload_iff, hidle]
      simp
    simp [hidle, hm]
  · have hf : f ≠ [] := by
      rintro rfl
      exact hidle (by rw [h.state]; rfl)
    simp [hidle, h.unfinished hf]

theorem getD_drop_header (h : 18 ≤ f.length) :
    (f.drop 14).getD (f.length - 14 - 4) 0 = f.getD (f.length - 4) 0 := by
  simp only [List.getD_eq_getElem?_getD, List.getElem?_drop]
  congr 3
  omega

/-- What leaves the delay line in the cycle after a byte. -/
theorem Receives.leaving_step (h : Receives cfg s f) (hi : Steady cfg s i)
    (hv : i.sAxisTvalid = true) :
    leaving (step s i) = deframedBy cfg f (i.sAxisTdata, i.sAxisTlast) := by
  have hvalid : (step s i).deframedTvalidR1 = decide (Matches cfg f) := by
    simp [step, hi.1, h.deframes_eq hv]
  rw [leaving_eq h.holds_step, hvalid, payloadFinished_step h hi hv, deframedBy]
  by_cases hm : Matches cfg f
  · obtain ⟨hlen, -⟩ := matches_iff.mp hm
    have hpay : payloadAndFcs cfg f = f.drop 14 := if_pos hm
    have hcheck : fcsMatches (step s i) = decide (Checked (f ++ [i.sAxisTdata])) := by
      rw [fcsMatches, verifyOut, crcReg_step h hi hv, Bool.eq_iff_iff, beq_iff_eq,
        decide_eq_true_iff]
      exact circuitRegister_eq_crcVerify_iff (by simp; omega)
    rw [hpay, List.length_drop, hcheck]
    by_cases h18 : 18 ≤ f.length
    · rw [if_pos ⟨by simpa using hm, by omega⟩, if_pos ⟨hm, h18⟩, getD_drop_header h18]
      simp [hm]
    · rw [if_neg (by omega), if_neg (by omega)]
  · simp [hm]

/-- A byte of a frame that goes on. -/
theorem Receives.step_byte (h : Receives cfg s f) (hi : Steady cfg s i)
    (hv : i.sAxisTvalid = true) (hl : i.sAxisTlast = false) :
    Receives cfg (step s i) (f ++ [i.sAxisTdata]) := by
  refine ⟨h.step hi hv hl, ?_, crcReg_step h hi hv,
    ⟨payloadAndFcs cfg f, ?_, h.holds_step⟩, fun _ => ?_⟩
  · simp [EthernetDeframer.step, drops, hl]
  · rw [payloadAndFcs_append]
    by_cases hm : Matches cfg f <;>
      simp [held, EthernetDeframer.step, hi.1, h.deframes_eq hv, hm]
  · rw [payloadFinished_step h hi hv, hl, Bool.and_false]

/-- The last byte of a frame. -/
theorem Receives.step_last (h : Receives cfg s f) (hi : Steady cfg s i)
    (hv : i.sAxisTvalid = true) (hl : i.sAxisTlast = true) (hlen : 14 ≤ f.length) :
    Ended (step s i) := by
  have hd := h.deframes_eq hv
  have hstate := h.state
  rw [stateAfter] at hstate
  by_cases hm : Matches cfg f
  · have hpay := h.payload_iff.mpr hm
    refine ⟨?_, ?_, .inl ?_⟩
    · simp [step, hi.1, hv, advance, hpay, hl]
    · simp [step, hd, hm, hl]
    · simp [payloadFinished_step h hi hv, hm, hl]
  · have hdiscard : s.deframerState = .discard := by
      rw [hstate, if_neg fun ha => hm (matches_iff.mpr ⟨hlen, ha⟩)]
    refine ⟨?_, ?_, .inr ⟨?_, ?_⟩⟩
    · simp [step, hi.1, hv, advance, hdiscard, hl]
    · simp [step, drops, hv, hdiscard, hl]
    · simp [held, step, hi.1, hd, hm]
    · have := h.holds_step (i := i)
      rwa [payloadAndFcs, if_neg hm] at this

/-- The cycle after a frame. -/
theorem Ended.step (h : Ended s) (hi : Steady cfg s i) (hv : i.sAxisTvalid = false) :
    Receives cfg (step s i) [] ∧ leaving (EthernetDeframer.step s i) = [] := by
  have hreset := hi.1
  have hadm : Admitted cfg [] := ⟨by simp, by simp, by simp⟩
  refine ⟨⟨⟨?_, ⟨_, rfl⟩, fun _ => ⟨_, rfl⟩⟩, ?_, ?_, ⟨[], ?_, ?_⟩, by simp⟩, ?_⟩
  · simp [EthernetDeframer.step, hreset, hv, h.state, stateAfter, hadm, stateAt]
  · simp [EthernetDeframer.step, hv, deframes, drops]
  · simp [EthernetDeframer.step, h.fcsReset, EthernetFcs.step, circuitRegister_nil]
  · simp [held, EthernetDeframer.step, deframes, hv, payloadAndFcs]
  · rcases h.delay with hp | ⟨hheld, hfifo⟩
    · exact CircularBuffer.holds_step_sreset hp
    · cases hp : s.payloadFinished
      · have := EthernetDeframer.holds_step (q := []) (i := i) hfifo hp
        rwa [hheld] at this
      · exact CircularBuffer.holds_step_sreset hp
  · simp [leaving, deframedTvalidR6, EthernetDeframer.step, deframes, hv]

end Delay

/-! ## Runs -/

section Runs

variable {cfg : Config} {f : List Byte} {b : Byte} {s : State} {i : Inputs} {is : List Inputs}

theorem Follows.step {l : Line} (h : Follows cfg s l) (hi : Steady cfg s i) (hl : l.Allows i) :
    Follows cfg (step s i) (l.step i) ∧
      leaving (EthernetDeframer.step s i) = (arrived s i).flatMap (deframedBy cfg l.frame) := by
  obtain ⟨f, ended⟩ := l
  simp only [Follows, Line.step, arrived, Line.Allows] at h hl ⊢
  cases ended
  · simp only [Bool.false_eq_true, if_false] at h
    cases hv : i.sAxisTvalid
    · simpa using h.step_quiet hi hv
    · have hleave := h.leaving_step hi hv
      cases hlast : i.sAxisTlast
      · rw [hlast] at hleave
        simpa [cutStep] using ⟨h.step_byte hi hv hlast, hleave⟩
      · have hlen := (hl hv).2 hlast
        rw [List.length_append, List.length_singleton] at hlen
        rw [hlast] at hleave
        simpa [cutStep] using ⟨h.step_last hi hv hlast (by omega), hleave⟩
  · obtain ⟨rfl, h⟩ := h
    have hv : i.sAxisTvalid = false := by
      by_contra hv
      simpa using (hl (by simpa using hv)).1
    simpa [hv] using h.step hi hv

/-- The deframer with the line the frames come from. -/
def lined (x : State × Line) (i : Inputs) : State × Line := (step x.1 i, x.2.step i)

/-- What is owed: the output register and what leaves the delay line. -/
def Owes (cfg : Config) (x : State × Line) (f : List Byte) (p : List OutBeat) : Prop :=
  Follows cfg x.1 x.2 ∧ f = x.2.frame ∧ p = output x.1 ++ leaving x.1

theorem owes_step (x : State × Line) (f : List Byte) (p : List OutBeat) (i : Inputs)
    (h : Owes cfg x f p) (hi : Steady cfg x.1 i ∧ x.2.Allows i) :
    ∃ p', Owes cfg (lined x i) (run cutStep f (arrived x.1 i)) p' ∧
      p ++ collect cutStep (deframedBy cfg) f (arrived x.1 i) = shown x.1 i ++ p' := by
  obtain ⟨h, rfl, rfl⟩ := h
  obtain ⟨h', hleave⟩ := h.step hi.1 hi.2
  have hout : output (step x.1 i) = leaving x.1 := output_step hi.1.1
  refine ⟨_, ⟨h', ?_, rfl⟩, ?_⟩
  · cases hv : i.sAxisTvalid <;> simp [arrived, hv, lined, Line.step]
  · rw [lined, hout, shown, List.append_assoc, hleave]
    cases hv : i.sAxisTvalid <;> simp [arrived, hv]

theorem owes_afterReset (h : AfterReset s) : Owes cfg (s, ⟨[], false⟩) [] [] := by
  obtain ⟨s₀, i, hp, hi, rfl⟩ := h
  have hadm : Admitted cfg [] := ⟨by simp, by simp, by simp⟩
  have hfifo : CircularBuffer.Holds (step s₀ i).fifo [] := by
    simpa [held, hp.payloadFinished, hp.deframedTvalidR1, List.rtake] using
      holds_next hp.holds_nil i
  refine ⟨⟨⟨?_, ⟨_, rfl⟩, fun _ => ⟨_, rfl⟩⟩, ?_, ?_, ⟨[], ?_, hfifo⟩, by simp⟩, rfl, ?_⟩
  · simp [step, hi, stateAfter, hadm, stateAt]
  · simp [step, deframes, drops, hp.deframerState]
  · simp [step, hi, EthernetFcs.step, circuitRegister_nil]
  · simp [held, step, hi, payloadAndFcs]
  · simp [output_reset hi]

/-! ### Frames -/

theorem matches_append (hf : 14 ≤ f.length) : Matches cfg (f ++ [b]) ↔ Matches cfg f := by
  rw [matches_iff, matches_iff, admitted_append, List.length_append]
  constructor
  · exact fun h => ⟨hf, h.2.1⟩
  · exact fun h => ⟨by omega, h.2, by omega, by omega, by omega⟩

theorem payloadOf_append (hf : 14 ≤ f.length) : payloadOf (f ++ [b]) =
    payloadOf f ++ if 18 ≤ f.length then [f.getD (f.length - 4) 0] else [] := by
  have hlen : (f ++ [b]).length - 18 ≤ (f.drop 14).length := by simp; omega
  rw [payloadOf, payloadOf, List.drop_append_of_le_length hf, List.take_append_of_le_length hlen,
    List.length_append, List.length_singleton]
  split
  · next h18 =>
    have hk : 14 + (f.length - 18) = f.length - 4 := by omega
    rw [show f.length + 1 - 18 = f.length - 18 + 1 by omega, List.take_add_one, List.getElem?_drop,
      hk, List.getD_eq_getElem?_getD, List.getElem?_eq_getElem (by omega)]
    rfl
  · rw [show f.length + 1 - 18 = 0 by omega, show f.length - 18 = 0 by omega]
    simp

theorem payloadOf_of_le (hf : f.length ≤ 18) : payloadOf f = [] := by
  simp [payloadOf, show f.length - 18 = 0 by omega]

/-- One more byte of a frame whose header does not match, or has only just arrived. -/
theorem payloadOf_append_of_not (hm : ¬ Matches cfg f) (hm' : Matches cfg (f ++ [b])) :
    payloadOf (f ++ [b]) = [] := by
  apply payloadOf_of_le
  have : ¬ 14 ≤ f.length := fun hlen => hm ((matches_append hlen).mp hm')
  simp
  omega

theorem deframing_append (f : List Byte) (b : Byte) :
    deframing cfg (f ++ [b]) = deframing cfg f ++ deframedBy cfg f (b, false) := by
  unfold deframing deframedBy
  by_cases hm : Matches cfg f
  · have hlen := (matches_iff.mp hm).1
    rw [if_pos hm, if_pos ((matches_append hlen).mpr hm), payloadOf_append hlen]
    by_cases h18 : 18 ≤ f.length <;> simp [hm, h18]
  · rw [if_neg hm]
    by_cases hm' : Matches cfg (f ++ [b])
    · simp [hm, hm', payloadOf_append_of_not hm hm']
    · simp [hm, hm']

/-- What comes of a frame with the verdict `ok` on its check sequence. -/
def deframedWith (cfg : Config) (ok : Bool) (f : List Byte) : List OutBeat :=
  if Matches cfg f then (beats (payloadOf f)).map fun b => (b.1, b.2, b.2 && !ok) else []

theorem deframedWith_append (ok : Bool) (f : List Byte) (b : Byte) :
    deframedWith cfg ok (f ++ [b]) = deframing cfg f ++
      if Matches cfg f ∧ 18 ≤ f.length then [(f.getD (f.length - 4) 0, true, !ok)] else [] := by
  unfold deframing deframedWith
  by_cases hm : Matches cfg f
  · have hlen := (matches_iff.mp hm).1
    rw [if_pos hm, if_pos ((matches_append hlen).mpr hm), payloadOf_append hlen]
    by_cases h18 : 18 ≤ f.length
    · simp [hm, h18, beats_concat]
    · simp [h18, payloadOf_of_le (Nat.le_of_not_le h18)]
  · rw [if_neg hm]
    by_cases hm' : Matches cfg (f ++ [b])
    · simp [hm, hm', payloadOf_append_of_not hm hm']
    · simp [hm, hm']

theorem deframed_append (f : List Byte) (b : Byte) :
    deframed cfg (f ++ [b]) = deframing cfg f ++ deframedBy cfg f (b, true) := by
  have h : deframedWith cfg _ (f ++ [b]) = _ :=
    deframedWith_append (decide (Checked (f ++ [b]))) f b
  rw [deframedBy, Bool.true_and]
  exact h

/-- What comes of a stream of bytes: what comes of its frames, then of the frame in progress. -/
theorem collect_deframedBy (bs : List (Byte × Bool)) :
    collect cutStep (deframedBy cfg) [] bs =
      (packets bs).flatMap (deframed cfg) ++ deframing cfg (openPacket bs) := by
  induction bs using List.reverseRecOn with
  | nil => simp [deframing, payloadOf]
  | append_singleton bs b ih =>
    obtain ⟨b, l⟩ := b
    rw [collect_append, ih, packets_concat, openPacket_concat, collect_cons, collect_nil,
      List.append_nil, List.append_assoc]
    cases l
    · simp [openPacket, deframing_append]
    · simp [openPacket, deframed_append, deframing, payloadOf]

/-! ### Every run -/

/-- The beats that should have been shown when the beats `bs` have arrived. -/
def expected (cfg : Config) (bs : List (Byte × Bool)) : List OutBeat :=
  (packets bs).flatMap (deframed cfg) ++ deframing cfg (openPacket bs)

/-- **Every run** of the deframer: what should come of the bytes that have arrived is what was
shown, then what is still owed. -/
theorem run_of_owes (hs : Owes cfg (s, ⟨[], false⟩) [] []) (hsteady : Always step (Steady cfg) s is)
    (hline : Always Line.step Line.Allows ⟨[], false⟩ is) :
    ∃ p, Owes cfg (run lined (s, ⟨[], false⟩) is) (openPacket (collect step arrived s is)) p ∧
      expected cfg (collect step arrived s is) = collect step shown s is ++ p := by
  have hπ : ∀ x i, (lined x i).1 = step x.1 i := fun _ _ => rfl
  have hl : ∀ x i, (lined x i).2 = x.2.step i := fun _ _ => rfl
  have hok := ((always_proj hπ (s, ⟨[], false⟩) is).mpr hsteady).and
    ((always_proj hl (s, ⟨[], false⟩) is).mpr hline)
  obtain ⟨p, hp, e⟩ := exists_pending owes_step hs hok
  rw [collect_proj hπ] at hp e
  rw [collect_proj hπ, collect_deframedBy, List.nil_append] at e
  exact ⟨p, hp, e⟩

theorem owes_run (h : AfterReset s) (hsteady : Always step (Steady cfg) s is)
    (hline : Always Line.step Line.Allows ⟨[], false⟩ is) :
    ∃ p, Owes cfg (run lined (s, ⟨[], false⟩) is) (openPacket (collect step arrived s is)) p ∧
      expected cfg (collect step arrived s is) = collect step shown s is ++ p :=
  run_of_owes (owes_afterReset h) hsteady hline

theorem Follows.drops_eq {l : Line} (h : Follows cfg s l) (hl : l.Allows i) :
    drops s i = (i.sAxisTvalid && i.sAxisTlast &&
      !decide (Matches cfg (l.frame ++ [i.sAxisTdata]))) := by
  cases hv : i.sAxisTvalid
  · simp [drops, hv]
  · obtain ⟨hended, hlen⟩ := hl hv
    cases hlast : i.sAxisTlast
    · simp [drops, hlast]
    · have hlen : 14 ≤ l.frame.length := by
        have := hlen hlast
        simp at this
        omega
      rw [Follows, hended] at h
      have hstate := h.state
      rw [stateAfter] at hstate
      simp only [drops, hv, hlast, matches_append hlen, matches_iff, hlen, true_and, hstate,
        stateAt_of_le hlen]
      by_cases ha : Admitted cfg l.frame <;> simp [ha]

/-- The drop counter counts the frames that do not match modulo `2 ^ 16`. -/
theorem droppedPacketCountU_run (h : AfterReset s) (hsteady : Always step (Steady cfg) s is)
    (hline : Always Line.step Line.Allows ⟨[], false⟩ is) :
    (run step s is).droppedPacketCountU = BitVec.ofNat 16
      ((packets (collect step arrived s is)).countP fun f => !decide (Matches cfg f)) := by
  induction is using List.reverseRecOn with
  | nil =>
    obtain ⟨s₀, i, -, hi, rfl⟩ := h
    simp [step, hi]
  | append_singleton is i ih =>
    rw [always_append] at hsteady hline
    have ih := ih hsteady.1 hline.1
    obtain ⟨p, ⟨hfollows, hframe, -⟩, -⟩ := owes_run h hsteady.1 hline.1
    have hπ : ∀ x i, (lined x i).1 = step x.1 i := fun _ _ => rfl
    have hl : ∀ x i, (lined x i).2 = x.2.step i := fun _ _ => rfl
    rw [run_proj hπ, run_proj hl] at hfollows
    rw [run_proj hl] at hframe
    have hdrops := hfollows.drops_eq hline.2.1
    rw [← hframe] at hdrops
    have hreset : i.reset = false := hsteady.2.1.1
    rw [run_append, collect_append, run_cons, run_nil, collect_cons, collect_nil, List.append_nil]
    simp only [step, hreset, hdrops, Bool.false_eq_true, if_false, ih]
    cases hv : i.sAxisTvalid
    · simp [arrived, hv]
    · rw [arrived, hv, if_pos rfl, packets_concat]
      cases hlast : i.sAxisTlast
      · simp
      · by_cases hm : Matches cfg (openPacket (collect step arrived s is) ++ [i.sAxisTdata]) <;>
          simp [hm, List.countP_append, BitVec.ofNat_add]

/-- Two cycles after a byte nothing is owed. -/
theorem shown_of_idle {js : List Inputs} {i j : Inputs} (hs : Owes cfg (s, ⟨[], false⟩) [] [])
    (hsteady : Always step (Steady cfg) s (js ++ [i, j]))
    (hline : Always Line.step Line.Allows ⟨[], false⟩ (js ++ [i, j]))
    (hi : i.sAxisTvalid = false) (hj : j.sAxisTvalid = false) :
    collect step shown s (js ++ [i, j]) = expected cfg (collect step arrived s (js ++ [i, j])) := by
  obtain ⟨p, hp, e⟩ := run_of_owes hs hsteady hline
  have hnil : p = [] := by
    obtain ⟨-, -, hp⟩ := hp
    have hπ : ∀ x i, (lined x i).1 = step x.1 i := fun _ _ => rfl
    have hr : j.reset = false := ((always_append _ _ _).mp hsteady).2.2.1.1
    rw [run_proj hπ, run_append] at hp
    simpa [output, leaving, deframedTvalidR6, step, deframes, hi, hj, hr] using hp
  rw [hnil, List.append_nil] at e
  exact e.symm

theorem shown_of_quiet {js : List Inputs} {i j : Inputs} (h : AfterReset s)
    (hsteady : Always step (Steady cfg) s (js ++ [i, j]))
    (hline : Always Line.step Line.Allows ⟨[], false⟩ (js ++ [i, j]))
    (hi : i.sAxisTvalid = false) (hj : j.sAxisTvalid = false) :
    collect step shown s (js ++ [i, j]) = expected cfg (collect step arrived s (js ++ [i, j])) :=
  shown_of_idle (owes_afterReset h) hsteady hline hi hj

/-- **The deframer decodes the matching frames.** For frames of at least 15 bytes with an idle
cycle behind each of them, the beats shown are the first of those that should come of the frames;
two idle cycles after a byte they are all of them; and the drop counter has counted the frames
that do not match. -/
theorem shown_prefix_deframed (cfg : Config) {s : State} {is : List Inputs} (h : AfterReset s)
    (hsteady : Always step (Steady cfg) s is)
    (hline : Always Line.step Line.Allows ⟨[], false⟩ is) :
    let bs := collect step arrived s is
    collect step shown s is <+:
        (packets bs).flatMap (deframed cfg) ++ deframing cfg (openPacket bs) ∧
      (∀ js i j, is = js ++ [i, j] → i.sAxisTvalid = false → j.sAxisTvalid = false →
        collect step shown s is =
          (packets bs).flatMap (deframed cfg) ++ deframing cfg (openPacket bs)) ∧
      (run step s is).droppedPacketCountU =
        BitVec.ofNat 16 ((packets bs).countP fun f => !decide (Matches cfg f)) := by
  obtain ⟨p, -, e⟩ := owes_run h hsteady hline
  refine ⟨⟨p, e.symm⟩, ?_, droppedPacketCountU_run h hsteady hline⟩
  rintro js i j rfl hi hj
  exact shown_of_quiet h hsteady hline hi hj

/-- The deframer after the reset. -/
def cleared : State :=
  step ⟨.idle, false, ⟨0, 0⟩, 0, 0, false, 0, 0, false, ⟨fun _ => 0, 0, 0⟩, 0, false, false, false⟩
    { reset := true, destinationMacIn := 0 }

theorem cleared_afterReset : AfterReset cleared :=
  ⟨_, _, ⟨rfl, rfl, rfl, rfl, rfl, rfl⟩, rfl, rfl⟩

/-- A frame with two bytes of payload for the configured address, a cycle of idle line after each
byte, and a frame of 15 bytes for another one. -/
theorem shown_prefix_deframed_two :
    let idle : Inputs :=
      { filterSourceMacIn := true, sourceMacIn := 0x001122334455,
        destinationMacIn := 0x0A0B0C0D0E0F }
    let frames := [frame 0x0A0B0C0D0E0F 0x001122334455 false [0xAA, 0xBB],
      List.replicate 15 0x77]
    let is := (frames.flatMap beats).flatMap fun b =>
      [{ idle with sAxisTdata := b.1, sAxisTlast := b.2, sAxisTvalid := true }, idle]
    collect step shown cleared (is ++ [idle, idle]) =
        [(0xAA, false, false), (0xBB, true, false)] ∧
      (run step cleared (is ++ [idle, idle])).droppedPacketCountU = 1 := by
  intro idle frames is
  have hsteady : Always step (Steady ⟨true, 0x001122334455, 0x0A0B0C0D0E0F⟩) cleared
      (is ++ [idle, idle]) := by decide +kernel
  have hline : Always Line.step Line.Allows ⟨[], false⟩ (is ++ [idle, idle]) := by decide +kernel
  obtain ⟨-, h₁, h₂⟩ := shown_prefix_deframed _ cleared_afterReset hsteady hline
  exact ⟨(h₁ _ _ _ rfl rfl rfl).trans (by decide +kernel), h₂.trans (by decide +kernel)⟩

end Runs
end RmiiEthernet.EthernetDeframer
