import RmiiEthernet.Ethernet.Format
import RmiiEthernet.Sync.Packet

/-!
# The Ethernet framer

`ethernet_framer` puts the two addresses and the Ethertype in front of a payload and the check
sequence behind it. One state machine (`framerState`) produces the header and passes the payload
into the register `framed`; a second one (`fcsState`), one register further on, passes `framed` to
the output and inserts the check sequence, which it takes from an `ethernet_fcs` that has seen
every byte on its way. Everything moves only when the output register is free or taken.

`Owes` lists, for every phase the two machines can be in, what is still to be shown of the frames
that have been started; `Owes.step_ready` says that a cycle that moves conserves it, and
`pending_run` what follows for every run.
-/

namespace RmiiEthernet.EthernetFramer

open Sync EthernetFcs EthernetFrame

/-! ## The circuit -/

/-- `fsm_state_t`. -/
inductive FramerState
  | idle
  | destMac1 | destMac2 | destMac3 | destMac4 | destMac5 | destMac6
  | sourceMac1 | sourceMac2 | sourceMac3 | sourceMac4 | sourceMac5 | sourceMac6
  | ethertype1 | ethertype2
  | payload
  | fcs1 | fcs2 | fcs3 | fcs4
  deriving DecidableEq

/-- `fcs_state_t`. -/
inductive FcsState
  | data
  | fcs1 | fcs2 | fcs3 | fcs4
  deriving DecidableEq

/-- The input ports in one cycle. -/
structure Inputs where
  reset : Bool := false
  enableIn : Bool := true
  sourceMacIn : BitVec 48
  destinationMacIn : BitVec 48
  sAxisTdata : Byte := 0
  sAxisTuser : Bool := false
  sAxisTvalid : Bool := false
  sAxisTlast : Bool := false
  mAxisTready : Bool := true

/-- The registers. -/
structure State where
  framerState : FramerState
  fcsState : FcsState
  fcsReset : Bool
  fcs : EthernetFcs.State
  ethertypeSelect : Bool
  destMacR : BitVec 48
  framedTdata : Byte
  framedTvalid : Bool
  framedTlast : Bool
  outputTdata : Byte
  outputTvalid : Bool
  outputTlast : Bool
  deriving DecidableEq

/-- `C_ETHERTYPE_UPPER`. -/
def ethertypeUpper : Byte := 0x08

/-- `C_ETHERTYPE_LOWER_IPV4`. -/
def ethertypeLowerIpv4 : Byte := 0x00

/-- `C_ETHERTYPE_LOWER_ARP`. -/
def ethertypeLowerArp : Byte := 0x06

section Signals

variable (s : State) (i : Inputs)

/-- The output register is empty or read. -/
def outputReady : Bool := i.mAxisTready || !s.outputTvalid

/-- `s_axis_tready_out`. -/
def sAxisTready : Bool := s.framerState == .payload && outputReady s i

/-- `idle_out`. -/
def idleOut : Bool := s.framerState == .idle

/-- A byte of the header goes into the register. -/
def State.frame (next : FramerState) (b : Byte) : State :=
  { s with framerState := next, framedTdata := b, framedTvalid := true, framedTlast := false }

/-- Nothing goes into the register. -/
def State.pause (next : FramerState) : State :=
  { s with framerState := next, framedTvalid := false, framedTlast := false }

/-- The framer state machine when it may move. -/
def advance : State :=
  match s.framerState with
  | .idle =>
    if i.sAxisTvalid && i.enableIn then
      { s.pause .destMac1 with
        ethertypeSelect := i.sAxisTuser
        destMacR := i.destinationMacIn }
    else s.pause .idle
  | .destMac1 => s.frame .destMac2 (s.destMacR.extractLsb' 40 8)
  | .destMac2 => s.frame .destMac3 (s.destMacR.extractLsb' 32 8)
  | .destMac3 => s.frame .destMac4 (s.destMacR.extractLsb' 24 8)
  | .destMac4 => s.frame .destMac5 (s.destMacR.extractLsb' 16 8)
  | .destMac5 => s.frame .destMac6 (s.destMacR.extractLsb' 8 8)
  | .destMac6 => s.frame .sourceMac1 (s.destMacR.extractLsb' 0 8)
  | .sourceMac1 => s.frame .sourceMac2 (i.sourceMacIn.extractLsb' 40 8)
  | .sourceMac2 => s.frame .sourceMac3 (i.sourceMacIn.extractLsb' 32 8)
  | .sourceMac3 => s.frame .sourceMac4 (i.sourceMacIn.extractLsb' 24 8)
  | .sourceMac4 => s.frame .sourceMac5 (i.sourceMacIn.extractLsb' 16 8)
  | .sourceMac5 => s.frame .sourceMac6 (i.sourceMacIn.extractLsb' 8 8)
  | .sourceMac6 => s.frame .ethertype1 (i.sourceMacIn.extractLsb' 0 8)
  | .ethertype1 => s.frame .ethertype2 ethertypeUpper
  | .ethertype2 =>
    s.frame .payload (if s.ethertypeSelect then ethertypeLowerArp else ethertypeLowerIpv4)
  | .payload =>
    { s with
      framerState := if i.sAxisTvalid && i.sAxisTlast then .fcs1 else .payload
      framedTdata := i.sAxisTdata
      framedTvalid := i.sAxisTvalid
      framedTlast := i.sAxisTvalid && i.sAxisTlast }
  | .fcs1 => s.pause .fcs2
  | .fcs2 => s.pause .fcs3
  | .fcs3 => s.pause .fcs4
  | .fcs4 => s.pause .idle

/-- `fcs_en`: the bytes of the frame enter the sum. -/
def fcsEn : Bool := s.fcsState == .data && (outputReady s i && s.framedTvalid)

/-- `fcs_din_valid`: behind the frame the check sequence is shifted out. -/
def fcsDinValid : Bool := if s.fcsState == .data then outputReady s i && s.framedTvalid else true

/-- The ports of the `ethernet_fcs` instance. -/
def fcsInputs : EthernetFcs.Inputs where
  reset := s.fcsReset
  dataIn := s.framedTdata
  validIn := fcsDinValid s i && outputReady s i
  enCalcIn := fcsEn s i && outputReady s i

/-- A byte of the check sequence goes to the output. -/
def State.insert (next : FcsState) (last : Bool) : State :=
  { s with
    fcsState := next, fcsReset := last
    outputTdata := s.fcs.fcsByte, outputTvalid := true, outputTlast := last }

/-- The state machine of the check sequence when it may move. -/
def addFcs : State :=
  match s.fcsState with
  | .data =>
    { s with
      fcsState := if s.framedTlast then .fcs1 else .data
      fcsReset := false
      outputTdata := s.framedTdata, outputTvalid := s.framedTvalid, outputTlast := false }
  | .fcs1 => s.insert .fcs2 false
  | .fcs2 => s.insert .fcs3 false
  | .fcs3 => s.insert .fcs4 false
  | .fcs4 => s.insert .data true

/-- The framer process. -/
def framerProcess : State :=
  let f := if outputReady s i then advance s i else s
  if i.reset then
    { f with
      framerState := .idle
      framedTvalid := false, framedTlast := false, framedTdata := 0
      ethertypeSelect := false }
  else f

/-- The process of the check sequence and the output register. -/
def outputProcess : State :=
  let o := if outputReady s i then addFcs s else s
  if i.reset then
    { o with
      outputTdata := 0, outputTvalid := false, outputTlast := false
      fcsState := .data, fcsReset := true }
  else o

/-- One clock edge. -/
def step : State where
  framerState := (framerProcess s i).framerState
  ethertypeSelect := (framerProcess s i).ethertypeSelect
  destMacR := (framerProcess s i).destMacR
  framedTdata := (framerProcess s i).framedTdata
  framedTvalid := (framerProcess s i).framedTvalid
  framedTlast := (framerProcess s i).framedTlast
  fcs := EthernetFcs.step false s.fcs (fcsInputs s i)
  fcsState := (outputProcess s i).fcsState
  fcsReset := (outputProcess s i).fcsReset
  outputTdata := (outputProcess s i).outputTdata
  outputTvalid := (outputProcess s i).outputTvalid
  outputTlast := (outputProcess s i).outputTlast

end Signals

/-- A state the reset leads to. -/
def AfterReset (s : State) : Prop := ∃ s₀ i, i.reset = true ∧ s = step s₀ i

/-! ## What happens at the ports -/

/-- The beat offered in a cycle: a byte with `tuser`, and `tlast`. -/
def offer (i : Inputs) : Option ((Byte × Bool) × Bool) :=
  if i.sAxisTvalid then some ((i.sAxisTdata, i.sAxisTuser), i.sAxisTlast) else none

/-- The beat taken at the output in a cycle. -/
def taken (s : State) (i : Inputs) : List (Byte × Bool) :=
  if s.outputTvalid && i.mAxisTready then [(s.outputTdata, s.outputTlast)] else []

/-- The framer leaves `idle` in this cycle. -/
def starts (s : State) (i : Inputs) : Bool :=
  outputReady s i && s.framerState == .idle && (i.sAxisTvalid && i.enableIn)

/-- The destination address sampled on leaving `idle`. -/
def sampled (s : State) (i : Inputs) : List (BitVec 48) :=
  if starts s i then [i.destinationMacIn] else []

/-- The beats of the frame for a packet; `tuser` of its first word selects the Ethertype. -/
def frameBeats (src dst : BitVec 48) (p : List (Byte × Bool)) : List (Byte × Bool) :=
  beats (frame dst src (p.head?.any Prod.snd) (p.map Prod.fst))

/-! ## What is owed -/

section Owed

/-- The number of bytes of the header that have been produced, in the states that produce the
header or the payload. -/
def FramerState.position : FramerState → Option ℕ
  | .destMac1 => some 0
  | .destMac2 => some 1
  | .destMac3 => some 2
  | .destMac4 => some 3
  | .destMac5 => some 4
  | .destMac6 => some 5
  | .sourceMac1 => some 6
  | .sourceMac2 => some 7
  | .sourceMac3 => some 8
  | .sourceMac4 => some 9
  | .sourceMac5 => some 10
  | .sourceMac6 => some 11
  | .ethertype1 => some 12
  | .ethertype2 => some 13
  | .payload => some 14
  | _ => none

/-- The number of bytes of the check sequence still to be inserted. -/
def FcsState.left : FcsState → ℕ
  | .data => 0
  | .fcs1 => 4
  | .fcs2 => 3
  | .fcs3 => 2
  | .fcs4 => 1

/-- The state of the framer while the check sequence is inserted: one ahead. -/
def FcsState.ahead : FcsState → FramerState
  | .data => .payload
  | .fcs1 => .fcs2
  | .fcs2 => .fcs3
  | .fcs3 => .fcs4
  | .fcs4 => .idle

/-- The byte in the register between the two state machines. -/
def held (s : State) : List Byte := if s.framedTvalid then [s.framedTdata] else []

/-- The beat in the output register. -/
def shown (s : State) : List (Byte × Bool) :=
  if s.outputTvalid then [(s.outputTdata, s.outputTlast)] else []

/-- The CRC has seen the bytes `m`, or is being reset before a frame. -/
def CrcAfter (s : State) (m : List Byte) : Prop :=
  if s.fcsReset then m = [] ∧ held s = [] else s.fcs.crcReg = circuitRegister m

/-- The rest `w` of a frame after the bytes `m`, and the check sequence. -/
def closed (m w : List Byte) : List Byte := w ++ fcsBytes (m ++ w)

/-- **What is owed behind the output register.** `todo` is what the source has still to hand over
and `fresh` the packets whose frames have not been started. -/
inductive Owes (src : BitVec 48) (s : State) (todo : List ((Byte × Bool) × Bool))
    (fresh : List (List (Byte × Bool))) : List (Byte × Bool) → Prop
  | idle : s.framerState = .idle → s.fcsState = .data → held s = [] → s.framedTlast = false →
      CrcAfter s [] → todo = fresh.flatMap beats → Owes src s todo fresh []
  | busy (k : ℕ) (c : List (Byte × Bool)) (m : List Byte) : s.framerState.position = some k →
      s.fcsState = .data → s.framedTlast = false → CrcAfter s m → c ≠ [] →
      todo = beats c ++ fresh.flatMap beats →
      Owes src s todo fresh (beats (closed m
        (held s ++ ((header s.destMacR src s.ethertypeSelect).drop k ++ c.map Prod.fst))))
  | closing (m : List Byte) : s.framerState = .fcs1 → s.fcsState = .data →
      held s = [s.framedTdata] → s.framedTlast = true → CrcAfter s m →
      todo = fresh.flatMap beats → Owes src s todo fresh (beats (closed m [s.framedTdata]))
  | inserting : s.fcsState ≠ .data → s.framerState = s.fcsState.ahead → held s = [] →
      s.framedTlast = false → s.fcsReset = false →
      s.fcs.fcsByte = ~~~(s.fcs.crcReg.extractLsb' 24 8).reverse → todo = fresh.flatMap beats →
      Owes src s todo fresh (beats (outBytes s.fcs.crcReg s.fcsState.left))

end Owed

section Cycle

variable {src : BitVec 48} {s : State} {i : Inputs} {m : List Byte}
  {todo : List ((Byte × Bool) × Bool)} {fresh : List (List (Byte × Bool))}
  {w : List (Byte × Bool)}

theorem advance_header (hsrc : i.sourceMacIn = src) {k : ℕ}
    (hk : s.framerState.position = some k) (hlt : k < 14) :
    ∃ b, (header s.destMacR src s.ethertypeSelect).drop k =
        b :: (header s.destMacR src s.ethertypeSelect).drop (k + 1) ∧
      (advance s i).framerState.position = some (k + 1) ∧
      advance s i = s.frame (advance s i).framerState b := by
  subst hsrc
  cases h : s.framerState <;> rw [h] at hk <;> cases hk
  all_goals first
    | exact absurd hlt (by decide)
    | refine ⟨_, rfl, ?_, ?_⟩ <;> simp only [advance, h] <;> rfl

/-- A cycle in which the output register is free or taken. -/
theorem step_of_ready (hready : outputReady s i = true) (hreset : i.reset = false) :
    step s i =
      { advance s i with
        fcs := EthernetFcs.step false s.fcs (fcsInputs s i)
        fcsState := (addFcs s).fcsState
        fcsReset := (addFcs s).fcsReset
        outputTdata := (addFcs s).outputTdata
        outputTvalid := (addFcs s).outputTvalid
        outputTlast := (addFcs s).outputTlast } := by
  simp [step, framerProcess, outputProcess, hready, hreset]

/-- In a stalled cycle only the reset of the CRC acts. -/
theorem step_of_stalled (hready : outputReady s i = false) (hreset : i.reset = false) :
    step s i =
      { s with fcs := if s.fcsReset then { s.fcs with crcReg := crcInitVal } else s.fcs } := by
  simp [step, framerProcess, outputProcess, fcsInputs, EthernetFcs.step, hready, hreset]

theorem crc_step (hready : outputReady s i = true) (hreset : i.reset = false)
    (hstate : s.fcsState = .data) (hcrc : CrcAfter s m) :
    (step s i).fcsReset = false ∧ (step s i).fcs.crcReg = circuitRegister (m ++ held s) ∧
      (held s ≠ [] →
        (step s i).fcs.fcsByte = ~~~((step s i).fcs.crcReg.extractLsb' 24 8).reverse) := by
  rw [step_of_ready hready hreset]
  refine ⟨by simp [addFcs, hstate], ?_⟩
  simp only [fcsInputs, fcsDinValid, fcsEn, hstate, hready, EthernetFcs.step, CrcAfter] at hcrc ⊢
  cases hr : s.fcsReset
  · simp only [hr, Bool.false_eq_true, if_false] at hcrc
    cases hv : s.framedTvalid
    · simp [held, hv, hcrc]
    · simp [held, hv, crcNext_circuitRegister hcrc]
  · simp only [hr, if_true] at hcrc
    simp [hcrc.1, hcrc.2, circuitRegister_nil]

theorem crcAfter_step (hready : outputReady s i = true) (hreset : i.reset = false)
    (hstate : s.fcsState = .data) (hcrc : CrcAfter s m) : CrcAfter (step s i) (m ++ held s) := by
  obtain ⟨h₁, h₂, -⟩ := crc_step hready hreset hstate hcrc
  simp [CrcAfter, h₁, h₂]

theorem shown_step_data (hready : outputReady s i = true) (hreset : i.reset = false)
    (hstate : s.fcsState = .data) : shown (step s i) = (held s).map (·, false) := by
  rw [step_of_ready hready hreset]
  cases hv : s.framedTvalid <;> simp [shown, held, addFcs, hstate, hv]

theorem fcsBytes_ne_nil : fcsBytes m ≠ [] := List.cons_ne_nil _ _

/-- The byte between the two state machines leaves first. -/
theorem beats_closed_append (l l' : List Byte) :
    beats (closed m (l ++ l')) = l.map (·, false) ++ beats (closed (m ++ l) l') := by
  have hne : l' ++ fcsBytes (m ++ (l ++ l')) ≠ [] :=
    List.append_ne_nil_of_right_ne_nil _ fcsBytes_ne_nil
  rw [closed, List.append_assoc, beats_append l hne, closed, List.append_assoc m]

theorem Owes.step_stalled (h : Owes src s todo fresh w) (hready : outputReady s i = false)
    (hreset : i.reset = false) : Owes src (step s i) todo fresh w := by
  rw [step_of_stalled hready hreset]
  have hcrc (m : List Byte) (hm : CrcAfter s m) : CrcAfter { s with
      fcs := if s.fcsReset then { s.fcs with crcReg := crcInitVal } else s.fcs } m := by
    unfold CrcAfter at hm ⊢
    cases hr : s.fcsReset <;> simp [hr] at hm ⊢ <;> exact hm
  cases h with
  | idle h₁ h₂ h₃ h₄ h₅ h₆ => exact .idle h₁ h₂ h₃ h₄ (hcrc _ h₅) h₆
  | busy k c m h₁ h₂ h₃ h₄ h₅ h₆ => exact .busy k c m h₁ h₂ h₃ (hcrc _ h₄) h₅ h₆
  | closing m h₁ h₂ h₃ h₄ h₅ h₆ => exact .closing m h₁ h₂ h₃ h₄ (hcrc _ h₅) h₆
  | inserting h₁ h₂ h₃ h₄ h₅ h₆ h₇ =>
    rw [if_neg (by simp [h₅])]
    exact .inserting h₁ h₂ h₃ h₄ h₅ h₆ h₇

/-! ### A cycle that moves -/

/-- What the source has still to hand over after a cycle. -/
def remaining (s : State) (i : Inputs) (todo : List ((Byte × Bool) × Bool)) :
    List ((Byte × Bool) × Bool) :=
  match offer i with
  | none => todo
  | some _ => if sAxisTready s i then todo.tail else todo

theorem remaining_eq_self (h : s.framerState ≠ .payload) : remaining s i todo = todo := by
  unfold remaining
  split <;> simp [sAxisTready, h]

theorem sampled_eq_nil (h : s.framerState ≠ .idle) : sampled s i = [] := by
  simp [sampled, starts, h]

/-- The frame that is started when an address is sampled. -/
def frameOf (src : BitVec 48) (fresh : List (List (Byte × Bool))) (dst : BitVec 48) :
    List (Byte × Bool) :=
  (fresh.head?.map (frameBeats src dst)).getD []

/-- The framer is idle: it goes on waiting or starts the next frame. -/
theorem Owes.step_idle (hidle : s.framerState = .idle) (hready : outputReady s i = true)
    (hreset : i.reset = false) (hoffer : ∀ b, offer i = some b → todo.head? = some b)
    (hne : [] ∉ fresh) (htodo : todo = fresh.flatMap beats) (hdata : (step s i).fcsState = .data)
    (hcrc : (step s i).fcsReset = true ∨ (step s i).fcs.crcReg = circuitRegister []) :
    Owes src (step s i) (remaining s i todo) (run (fun g _ => g.tail) fresh (sampled s i))
      (collect (fun g _ => g.tail) (frameOf src) fresh (sampled s i)) := by
  rw [remaining_eq_self (by simp [hidle])]
  have hheld : held (step s i) = [] ∧ (step s i).framedTlast = false := by
    rw [step_of_ready hready hreset]
    cases hst : (i.sAxisTvalid && i.enableIn) <;> simp [held, advance, hidle, hst, State.pause]
  have hcrc' : CrcAfter (step s i) [] := by
    unfold CrcAfter
    split
    · exact ⟨rfl, hheld.1⟩
    · exact hcrc.resolve_left ‹_›
  cases hst : (i.sAxisTvalid && i.enableIn)
  · have hnone : sampled s i = [] := by simp [sampled, starts, hst]
    rw [hnone]
    refine .idle ?_ hdata hheld.1 hheld.2 hcrc' htodo
    rw [step_of_ready hready hreset]
    simp [advance, hidle, hst, State.pause]
  · have hsome : sampled s i = [i.destinationMacIn] := by
      simp [sampled, starts, hidle, hready, hst]
    rw [hsome]
    simp only [Bool.and_eq_true] at hst
    have hhead := hoffer _ (by rw [offer, if_pos hst.1])
    cases fresh with
    | nil => simp [htodo] at hhead
    | cons q fresh =>
      obtain ⟨x, q, rfl⟩ : ∃ x q', q = x :: q' :=
        List.exists_cons_of_ne_nil (fun h => hne (by simp [h]))
      have hx : i.sAxisTuser = x.2 := by
        simp only [htodo, List.flatMap_cons, beats_cons, List.cons_append, List.head?_cons,
          Option.some.injEq, Prod.mk.injEq] at hhead
        rw [hhead.1]
      have hbusy : Owes src (step s i) _ fresh _ := .busy 0 (x :: q) [] (by
          rw [step_of_ready hready hreset]
          simp [advance, hidle, hst, State.pause, FramerState.position])
        hdata hheld.2 hcrc' (by simp) htodo
      have hreg : (step s i).destMacR = i.destinationMacIn ∧
          (step s i).ethertypeSelect = x.2 := by
        rw [step_of_ready hready hreset]
        simp [advance, hidle, hst, hx]
      rw [hreg.1, hreg.2, hheld.1] at hbusy
      simpa [frameOf, frameBeats, frame, closed] using hbusy

/-- The framer produces the next byte of the header. -/
theorem Owes.step_header (hready : outputReady s i = true) (hreset : i.reset = false)
    (hsrc : i.sourceMacIn = src) {k : ℕ} {c : List (Byte × Bool)}
    (hk : s.framerState.position = some k) (hlt : k < 14) (hdata : s.fcsState = .data)
    (hlast : s.framedTlast = false) (hcrc : CrcAfter s m) (hc : c ≠ [])
    (htodo : todo = beats c ++ fresh.flatMap beats) :
    ∃ w', Owes src (step s i) (remaining s i todo) fresh w' ∧ beats (closed m
        (held s ++ ((header s.destMacR src s.ethertypeSelect).drop k ++ c.map Prod.fst))) =
      shown (step s i) ++ w' := by
  obtain ⟨b, hb, hnext, hadv⟩ := advance_header hsrc hk hlt
  have hpay : s.framerState ≠ .payload := by
    intro h
    rw [h] at hk
    cases hk
    exact absurd hlt (by decide)
  have hstep := step_of_ready hready hreset
  have hcrc' := crcAfter_step hready hreset hdata hcrc
  refine ⟨_, .busy (k + 1) c (m ++ held s) ?_ ?_ ?_ hcrc' hc ?_, ?_⟩
  · rw [hstep]
    exact hnext
  · simp [hstep, addFcs, hdata, hlast]
  · rw [hstep, hadv]
    rfl
  · rw [remaining_eq_self hpay, htodo]
  · rw [beats_closed_append, shown_step_data hready hreset hdata, hb, List.cons_append, hstep, hadv]
    simp [State.frame, held]

/-- The framer passes a byte of the payload, or waits for it. -/
theorem Owes.step_payload (hready : outputReady s i = true) (hreset : i.reset = false)
    (hoffer : ∀ b, offer i = some b → todo.head? = some b) {c : List (Byte × Bool)}
    (hs : s.framerState = .payload) (hdata : s.fcsState = .data) (hlast : s.framedTlast = false)
    (hcrc : CrcAfter s m) (hc : c ≠ []) (htodo : todo = beats c ++ fresh.flatMap beats) :
    ∃ w', Owes src (step s i) (remaining s i todo) fresh w' ∧
      beats (closed m (held s ++ c.map Prod.fst)) = shown (step s i) ++ w' := by
  have hstep := step_of_ready hready hreset
  have hcrc' := crcAfter_step hready hreset hdata hcrc
  have hdata' : (step s i).fcsState = .data := by simp [hstep, addFcs, hdata, hlast]
  have hdrop (a b : BitVec 48) (t : Bool) : (header a b t).drop 14 = [] := rfl
  rw [beats_closed_append, shown_step_data hready hreset hdata]
  cases hv : i.sAxisTvalid
  · have hrem : remaining s i todo = todo := by simp [remaining, offer, hv]
    have hheld : held (step s i) = [] := by simp [hstep, advance, hs, held, hv]
    have hbusy : Owes src (step s i) _ fresh _ := .busy 14 c _
      (by simp [hstep, advance, hs, hv, FramerState.position]) hdata'
      (by simp [hstep, advance, hs, hv]) hcrc' hc htodo
    rw [hheld, hdrop] at hbusy
    rw [hrem]
    exact ⟨_, hbusy, rfl⟩
  · have hrem : remaining s i todo = todo.tail := by
      simp [remaining, offer, hv, sAxisTready, hs, hready]
    have hheld : held (step s i) = [i.sAxisTdata] := by simp [hstep, advance, hs, held, hv]
    have hhead := hoffer _ (by rw [offer, if_pos hv])
    obtain ⟨x, c, rfl⟩ := List.exists_cons_of_ne_nil hc
    simp only [htodo, beats_cons, List.cons_append, List.head?_cons, Option.some.injEq,
      Prod.mk.injEq] at hhead
    obtain ⟨rfl, hl⟩ := hhead
    have htodo' : remaining s i todo = beats c ++ fresh.flatMap beats := by
      rw [hrem, htodo, beats_cons]
      rfl
    cases c with
    | nil =>
      have hl : i.sAxisTlast = true := by simp [← hl]
      have hclosing : Owes src (step s i) _ fresh _ := .closing _
        (by simp [hstep, advance, hs, hv, hl]) hdata' (by simp [hstep, advance, hs, held, hv])
        (by simp [hstep, advance, hs, hv, hl]) hcrc' htodo'
      refine ⟨_, hclosing, ?_⟩
      simp [hstep, advance, hs]
    | cons y c =>
      have hl : i.sAxisTlast = false := by simp [← hl]
      have hbusy : Owes src (step s i) _ fresh _ := .busy 14 (y :: c) _
        (by simp [hstep, advance, hs, hv, hl, FramerState.position]) hdata'
        (by simp [hstep, advance, hs, hv, hl]) hcrc' (by simp) htodo'
      rw [hheld, hdrop] at hbusy
      exact ⟨_, hbusy, rfl⟩

/-- The last byte of the payload leaves the register, and the check sequence is ready. -/
theorem Owes.step_closing (hready : outputReady s i = true) (hreset : i.reset = false)
    (hs : s.framerState = .fcs1) (hdata : s.fcsState = .data) (hheld : held s = [s.framedTdata])
    (hlast : s.framedTlast = true) (hcrc : CrcAfter s m) (htodo : todo = fresh.flatMap beats) :
    ∃ w', Owes src (step s i) (remaining s i todo) fresh w' ∧
      beats (closed m [s.framedTdata]) = shown (step s i) ++ w' := by
  have hstep := step_of_ready hready hreset
  obtain ⟨hr, hreg, hbyte⟩ := crc_step hready hreset hdata hcrc
  have hnext : (step s i).fcsState = .fcs1 := by simp [hstep, addFcs, hdata, hlast]
  refine ⟨_, .inserting ?_ ?_ ?_ ?_ hr (hbyte (by simp [hheld])) ?_, ?_⟩
  · simp [hnext]
  · rw [hnext]
    simp [hstep, advance, hs, FcsState.ahead, State.pause]
  · simp [hstep, advance, hs, held, State.pause]
  · simp [hstep, advance, hs, State.pause]
  · rw [remaining_eq_self (by simp [hs]), htodo]
  · rw [shown_step_data hready hreset hdata, hheld, hnext, hreg, hheld,
      show FcsState.left .fcs1 = 4 from rfl, outBytes_circuitRegister, closed,
      beats_append _ fcsBytes_ne_nil]

/-- A byte of the check sequence is inserted. -/
theorem step_of_inserting (hready : outputReady s i = true) (hreset : i.reset = false)
    (hs : s.fcsState ≠ .data) (hr : s.fcsReset = false)
    (hbyte : s.fcs.fcsByte = ~~~(s.fcs.crcReg.extractLsb' 24 8).reverse) :
    (step s i).fcs.crcReg = shiftOut s.fcs.crcReg ∧
      (step s i).fcs.fcsByte = ~~~((step s i).fcs.crcReg.extractLsb' 24 8).reverse ∧
      (step s i).fcsReset = (s.fcsState == .fcs4) ∧
      shown (step s i) =
        [(~~~(s.fcs.crcReg.extractLsb' 24 8).reverse, s.fcsState == .fcs4)] := by
  have hen : (s.fcsState == FcsState.data) = false := by simp [hs]
  have hshift := shiftOut_extract s.fcs.crcReg (a := 16) (by omega)
  rw [step_of_ready hready hreset]
  simp only [fcsInputs, fcsDinValid, fcsEn, EthernetFcs.step, hen, hr, hready, shown]
  refine ⟨by simp, by simp [hshift], ?_, ?_⟩
  all_goals cases h : s.fcsState <;> first
    | exact absurd h hs
    | simp [addFcs, h, State.insert, hbyte]

theorem Owes.step_inserting (hready : outputReady s i = true) (hreset : i.reset = false)
    (hoffer : ∀ b, offer i = some b → todo.head? = some b) (hne : [] ∉ fresh)
    (hs : s.fcsState ≠ .data) (hahead : s.framerState = s.fcsState.ahead)
    (hr : s.fcsReset = false)
    (hbyte : s.fcs.fcsByte = ~~~(s.fcs.crcReg.extractLsb' 24 8).reverse)
    (htodo : todo = fresh.flatMap beats) :
    ∃ w', Owes src (step s i) (remaining s i todo)
        (run (fun g _ => g.tail) fresh (sampled s i)) w' ∧
      beats (outBytes s.fcs.crcReg s.fcsState.left) ++
          collect (fun g _ => g.tail) (frameOf src) fresh (sampled s i) =
        shown (step s i) ++ w' := by
  obtain ⟨hreg, hbyte', hr', hshown⟩ := step_of_inserting hready hreset hs hr hbyte
  have hstep := step_of_ready hready hreset
  by_cases h4 : s.fcsState = .fcs4
  · have hidle : s.framerState = .idle := by rw [hahead, h4]; rfl
    refine ⟨_, Owes.step_idle hidle hready hreset hoffer hne htodo ?_ (.inl (by simp [hr', h4])),
      ?_⟩
    · simp [hstep, addFcs, h4, State.insert]
    · rw [hshown, h4]
      rfl
  · have hbusy : s.framerState ≠ .idle ∧ s.framerState ≠ .payload := by
      rw [hahead]
      cases h : s.fcsState <;> first
        | exact absurd h hs
        | exact absurd h h4
        | exact ⟨nofun, nofun⟩
    have hnext : (step s i).fcsState ≠ .data ∧ (step s i).framerState = (step s i).fcsState.ahead ∧
        s.fcsState.left = (step s i).fcsState.left + 1 ∧ (step s i).fcsState.left ≠ 0 ∧
        held (step s i) = [] ∧ (step s i).framedTlast = false := by
      rw [hstep]
      cases h : s.fcsState <;> rw [h] at hahead <;> first
        | exact absurd h hs
        | exact absurd h h4
        | simp [advance, hahead, FcsState.ahead, addFcs, h, State.insert, State.pause, held,
            FcsState.left]
    obtain ⟨h₁, h₂, h₃, h₄, h₅, h₆⟩ := hnext
    rw [sampled_eq_nil hbusy.1, remaining_eq_self hbusy.2]
    refine ⟨_, .inserting h₁ h₂ h₅ h₆ (by simp [hr', h4]) hbyte' htodo, ?_⟩
    rw [hshown, h₃, hreg, outBytes, beats_cons]
    obtain ⟨n, hn⟩ := Nat.exists_eq_succ_of_ne_zero h₄
    simp [hn, outBytes, h4]

/-- **One cycle that moves conserves what is owed.** -/
theorem Owes.step_ready (h : Owes src s todo fresh w) (hready : outputReady s i = true)
    (hreset : i.reset = false) (hsrc : i.sourceMacIn = src)
    (hoffer : ∀ b, offer i = some b → todo.head? = some b) (hne : [] ∉ fresh) :
    ∃ w', Owes src (step s i) (remaining s i todo)
        (run (fun g _ => g.tail) fresh (sampled s i)) w' ∧
      w ++ collect (fun g _ => g.tail) (frameOf src) fresh (sampled s i) =
        shown (step s i) ++ w' := by
  cases h with
  | idle h₁ h₂ h₃ h₄ h₅ h₆ =>
    have hcrc := crc_step hready hreset h₂ h₅
    refine ⟨_, Owes.step_idle h₁ hready hreset hoffer hne h₆ ?_ (.inr ?_), ?_⟩
    · simp [step_of_ready hready hreset, addFcs, h₂, h₄]
    · rw [hcrc.2.1, h₃]
      rfl
    · rw [shown_step_data hready hreset h₂, h₃]
      rfl
  | busy k c m h₁ h₂ h₃ h₄ h₅ h₆ =>
    have hidle : s.framerState ≠ .idle := by
      intro h
      simp [h, FramerState.position] at h₁
    simp only [sampled_eq_nil hidle, run_nil, collect_nil, List.append_nil]
    by_cases hlt : k < 14
    · exact Owes.step_header hready hreset hsrc h₁ hlt h₂ h₃ h₄ h₅ h₆
    · obtain ⟨hs, rfl⟩ : s.framerState = .payload ∧ k = 14 := by
        cases h : s.framerState <;> rw [h] at h₁ <;> cases h₁ <;>
          first | exact ⟨rfl, rfl⟩ | exact absurd (by decide) hlt
      exact Owes.step_payload hready hreset hoffer hs h₂ h₃ h₄ h₅ h₆
  | closing m h₁ h₂ h₃ h₄ h₅ h₆ =>
    simp only [sampled_eq_nil (show s.framerState ≠ .idle by simp [h₁]), run_nil, collect_nil,
      List.append_nil]
    exact Owes.step_closing hready hreset h₁ h₂ h₃ h₄ h₅ h₆
  | inserting h₁ h₂ h₃ h₄ h₅ h₆ h₇ =>
    exact Owes.step_inserting hready hreset hoffer hne h₁ h₂ h₅ h₆ h₇

end Cycle

/-! ## Runs -/

section Runs

variable {src : BitVec 48} {x : State × Source (Byte × Bool)} {fresh : List (List (Byte × Bool))}
  {p : List (Byte × Bool)} {i : Inputs} {is : List Inputs}

/-- What the framer and its source owe together, the output register first. -/
def Pending (src : BitVec 48) (x : State × Source (Byte × Bool))
    (fresh : List (List (Byte × Bool))) (p : List (Byte × Bool)) : Prop :=
  [] ∉ fresh ∧ ∃ w, Owes src x.1 x.2.todo fresh w ∧ p = shown x.1 ++ w

/-- No reset, and `src` for the address of the sender. -/
def Steady (src : BitVec 48) (_ : State) (i : Inputs) : Prop :=
  i.reset = false ∧ i.sourceMacIn = src

instance (src : BitVec 48) (s : State) (i : Inputs) : Decidable (Steady src s i) :=
  inferInstanceAs (Decidable (_ ∧ _))

/-- The inputs of a cycle: `Steady`, and the next beat or none. -/
def Served (src : BitVec 48) (x : State × Source (Byte × Bool)) (i : Inputs) : Prop :=
  Steady src x.1 i ∧ Source.Offers offer x i

/-- The framer with its source. -/
abbrev fed : State × Source (Byte × Bool) → Inputs → State × Source (Byte × Bool) :=
  sourced false step offer sAxisTready

theorem Served.head? (h : Served src x i) : ∀ b, offer i = some b → x.2.todo.head? = some b := by
  intro b hb
  have := h.2
  simpa [Source.Offers, hb] using this

theorem fed_todo : (fed x i).2.todo = remaining x.1 i x.2.todo := by
  unfold fed sourced remaining
  cases offer i with
  | none => rfl
  | some b => cases h : sAxisTready x.1 i <;> simp

theorem Pending.step (h : Pending src x fresh p) (hi : Served src x i) :
    ∃ p', Pending src (fed x i) (run (fun g _ => g.tail) fresh (sampled x.1 i)) p' ∧
      p ++ collect (fun g _ => g.tail) (frameOf src) fresh (sampled x.1 i) = taken x.1 i ++ p' := by
  obtain ⟨hne, w, hw, rfl⟩ := h
  obtain ⟨⟨hreset, hsrc⟩, -⟩ := id hi
  cases hready : outputReady x.1 i
  · have hs : sampled x.1 i = [] := by simp [sampled, starts, hready]
    have hrem : remaining x.1 i x.2.todo = x.2.todo := by
      unfold remaining
      split <;> simp [sAxisTready, hready]
    have hshown : shown (EthernetFramer.step x.1 i) = shown x.1 := by
      rw [step_of_stalled hready hreset]
      rfl
    simp only [outputReady, Bool.or_eq_false_iff] at hready
    refine ⟨_, ⟨by simpa [hs] using hne, w, ?_, rfl⟩, ?_⟩
    · rw [hs, fed_todo, hrem]
      exact hw.step_stalled (by simp [outputReady, hready]) hreset
    · simp [hs, taken, hready.1, sourced, hshown]
  · obtain ⟨w', hw', e⟩ := hw.step_ready hready hreset hsrc hi.head? hne
    have htaken : taken x.1 i = shown x.1 := by
      cases ht : i.mAxisTready <;> cases ho : x.1.outputTvalid <;>
        simp_all [outputReady, taken, shown]
    refine ⟨_, ⟨?_, w', by rwa [fed_todo], rfl⟩, ?_⟩
    · unfold sampled
      split
      · exact fun hmem => hne (List.mem_of_mem_tail hmem)
      · exact hne
    · rw [htaken, List.append_assoc, e]
      rfl

/-- A frame is started only when there is a packet for it. -/
theorem Pending.fresh_ne_nil (h : Pending src x fresh p) (hi : Served src x i)
    (hs : starts x.1 i = true) : fresh ≠ [] := by
  obtain ⟨-, w, hw, -⟩ := h
  simp only [starts, Bool.and_eq_true, beq_iff_eq] at hs
  have hhead := hi.head? _ (by rw [offer, if_pos hs.2.1])
  rintro rfl
  cases hw with
  | idle _ _ _ _ _ h => simp [h] at hhead
  | busy k c m h => simp [hs.1.2, FramerState.position] at h
  | closing m h => simp [hs.1.2] at h
  | inserting _ _ _ _ _ _ h => simp [h] at hhead

theorem Pending.length_sampled_le (h : Pending src x fresh p) (his : Always fed (Served src) x is) :
    (collect fed (fun x i => sampled x.1 i) x is).length ≤ fresh.length := by
  induction is generalizing x fresh p with
  | nil => simp
  | cons i is ih =>
    obtain ⟨p', h', -⟩ := h.step his.1
    have hrest := ih h' his.2
    rw [collect_cons, List.length_append]
    cases hs : starts x.1 i
    · simp only [sampled, hs, Bool.false_eq_true, if_false, run_nil, List.length_nil] at hrest ⊢
      omega
    · have := List.length_pos_of_ne_nil (h.fresh_ne_nil his.1 hs)
      simp only [sampled, hs, if_true, run_cons, run_nil, List.length_tail, List.length_singleton]
        at hrest ⊢
      omega

/-- The number of cycles with `m_axis_tready_in` until everything has been shown, when the source
has nothing left. -/
def cyclesLeft (s : State) : ℕ :=
  if s.fcsState = .data then
    if s.framerState = .fcs1 then 6 else if s.outputTvalid then 1 else 0
  else s.fcsState.left + 1

theorem Owes.cyclesLeft_step {s : State} {w : List (Byte × Bool)} (h : Owes src s [] fresh w)
    (hready : outputReady s i = true) (hreset : i.reset = false) (hv : i.sAxisTvalid = false) :
    cyclesLeft (EthernetFramer.step s i) ≤ cyclesLeft s - 1 := by
  rw [step_of_ready hready hreset]
  cases h with
  | idle h₁ h₂ h₃ h₄ h₅ h₆ =>
    have hf : s.framedTvalid = false := by simpa [held] using h₃
    simp [cyclesLeft, advance, h₁, hv, addFcs, h₂, h₄, hf, State.pause]
  | busy k c m h₁ h₂ h₃ h₄ h₅ h₆ =>
    obtain ⟨y, c, rfl⟩ := List.exists_cons_of_ne_nil h₅
    simp [beats_cons] at h₆
  | closing m h₁ h₂ h₃ h₄ h₅ h₆ => simp [cyclesLeft, addFcs, h₁, h₂, h₄, FcsState.left]
  | inserting h₁ h₂ h₃ h₄ h₅ h₆ h₇ =>
    cases h : s.fcsState <;> rw [h] at h₂ <;> first
      | exact absurd h h₁
      | simp [cyclesLeft, advance, h₂, FcsState.ahead, hv, addFcs, h, State.insert, State.pause,
          FcsState.left]

theorem Pending.cyclesLeft_step (h : Pending src x fresh p) (hi : Served src x i)
    (htodo : x.2.todo = []) : (fed x i).2.todo = [] ∧
      cyclesLeft (fed x i).1 ≤ cyclesLeft x.1 - (if i.mAxisTready then 1 else 0) := by
  obtain ⟨-, w, hw, -⟩ := h
  have hv : i.sAxisTvalid = false := by
    by_contra hv
    have := hi.head? _ (by rw [offer, if_pos (by simpa using hv)])
    simp [htodo] at this
  refine ⟨by simp [fed_todo, htodo, remaining, offer, hv], ?_⟩
  rw [htodo] at hw
  cases hready : outputReady x.1 i
  · have hsame : cyclesLeft (fed x i).1 = cyclesLeft x.1 := by
      change cyclesLeft (EthernetFramer.step x.1 i) = _
      rw [step_of_stalled hready hi.1.1]
      rfl
    simp only [outputReady, Bool.or_eq_false_iff] at hready
    simp [hsame, hready.1]
  · have hle := hw.cyclesLeft_step hready hi.1.1 hv
    change cyclesLeft (EthernetFramer.step x.1 i) ≤ _
    split <;> omega

theorem Pending.cyclesLeft_run (h : Pending src x fresh p) (his : Always fed (Served src) x is)
    (htodo : x.2.todo = []) : (run fed x is).2.todo = [] ∧
      cyclesLeft (run fed x is).1 ≤ cyclesLeft x.1 - is.countP (·.mAxisTready) := by
  induction is generalizing x fresh p with
  | nil => exact ⟨htodo, by simp⟩
  | cons i is ih =>
    obtain ⟨p', h', -⟩ := h.step his.1
    obtain ⟨htodo', hle⟩ := h.cyclesLeft_step his.1 htodo
    obtain ⟨hrun, hle'⟩ := ih h' his.2 htodo'
    refine ⟨hrun, ?_⟩
    rw [run_cons, List.countP_cons]
    omega

/-- When no cycles are left, nothing is owed. -/
theorem Pending.eq_nil (h : Pending src x fresh p) (htodo : x.2.todo = [])
    (hleft : cyclesLeft x.1 = 0) : p = [] ∧ fresh = [] := by
  obtain ⟨hne, w, hw, rfl⟩ := h
  have hfresh (hf : x.2.todo = fresh.flatMap beats) : fresh = [] := by
    cases fresh with
    | nil => rfl
    | cons q fresh =>
      cases q with
      | nil => simp at hne
      | cons y q => simp [hf, beats_cons] at htodo
  cases hw with
  | idle h₁ h₂ h₃ h₄ h₅ h₆ =>
    simp only [cyclesLeft, h₁, h₂, if_true, reduceCtorEq, if_false] at hleft
    refine ⟨?_, hfresh h₆⟩
    simpa [shown] using hleft
  | busy k c m h₁ h₂ h₃ h₄ h₅ h₆ =>
    obtain ⟨y, c, rfl⟩ := List.exists_cons_of_ne_nil h₅
    simp [beats_cons, htodo] at h₆
  | closing m h₁ h₂ => simp [cyclesLeft, h₁, h₂] at hleft
  | inserting h₁ => simp [cyclesLeft, h₁] at hleft

/-- Behind the last byte of a frame there is a gap. -/
def Gap (s : State) : Prop :=
  s.outputTlast = true → s.fcsState = .data ∧ s.framedTvalid = false

theorem Pending.gap_step (h : Pending src x fresh p) (hgap : Gap x.1) (hreset : i.reset = false) :
    Gap (EthernetFramer.step x.1 i) := by
  obtain ⟨-, w, hw, -⟩ := h
  cases hready : outputReady x.1 i with
  | false =>
    rw [step_of_stalled hready hreset]
    exact hgap
  | true =>
    rw [step_of_ready hready hreset]
    intro hlast
    have hfour : x.1.fcsState = .fcs4 := by
      cases hf : x.1.fcsState <;> simp [addFcs, hf, State.insert] at hlast ⊢
    cases hw with
    | idle _ h₂ => simp [hfour] at h₂
    | busy k c m _ h₂ => simp [hfour] at h₂
    | closing m _ h₂ => simp [hfour] at h₂
    | inserting h₁ h₂ =>
      rw [hfour, FcsState.ahead] at h₂
      refine ⟨by simp [addFcs, hfour, State.insert], ?_⟩
      cases hv : (i.sAxisTvalid && i.enableIn) <;> simp [advance, h₂, hv, State.pause]

/-- When the last byte of a frame is taken, nothing follows in the next cycle. -/
theorem Gap.outputTvalid_step {s : State} (h : Gap s) (hreset : i.reset = false)
    (hready : i.mAxisTready = true) (hlast : s.outputTlast = true) :
    (step s i).outputTvalid = false := by
  obtain ⟨h₁, h₂⟩ := h hlast
  rw [step_of_ready (by simp [outputReady, hready]) hreset]
  simp [addFcs, h₁, h₂]

theorem gap_afterReset {s : State} (h : AfterReset s) : Gap s := by
  obtain ⟨s₀, i, hi, rfl⟩ := h
  simp [Gap, step, outputProcess, hi]

theorem pending_afterReset {s : State} (h : AfterReset s) {ps : List (List (Byte × Bool))}
    (hps : [] ∉ ps) : Pending src (s, ⟨ps.flatMap beats, false⟩) ps [] := by
  obtain ⟨s₀, i, hi, rfl⟩ := h
  refine ⟨hps, [], .idle ?_ ?_ ?_ ?_ ?_ rfl, ?_⟩ <;>
    simp [step, framerProcess, outputProcess, hi, held, CrcAfter, shown]

/-- What the transducer makes of the sampled addresses: one frame for each, in order. -/
theorem collect_frameOf (dsts : List (BitVec 48)) (ps : List (List (Byte × Bool)))
    (h : dsts.length ≤ ps.length) :
    collect (fun g _ => g.tail) (frameOf src) ps dsts =
      (List.zipWith (frameBeats src) dsts ps).flatten := by
  induction dsts generalizing ps with
  | nil => rfl
  | cons d dsts ih =>
    cases ps with
    | nil => simp at h
    | cons q ps => simp [frameOf, ih ps (by simpa using h)]

theorem run_tail (dsts : List (BitVec 48)) (ps : List (List (Byte × Bool))) :
    run (fun g _ => g.tail) ps dsts = ps.drop dsts.length := by
  induction dsts generalizing ps with
  | nil => rfl
  | cons d dsts ih => rw [run_cons, ih, List.length_cons, List.drop_tail]

/-- **Every run** of the framer: the frames of the packets that have been started are those that
were taken, then those that are still owed. -/
theorem run_of_pending {s : State} {ps : List (List (Byte × Bool))}
    (hstart : Pending src (s, ⟨ps.flatMap beats, false⟩) ps [])
    (hsteady : Always step (Steady src) s is)
    (hfeeds : Feeds false step offer sAxisTready (ps.flatMap beats) s is) :
    ∃ p, Pending src (run fed (s, ⟨ps.flatMap beats, false⟩) is)
        (ps.drop (collect step sampled s is).length) p ∧
      (collect step sampled s is).length ≤ ps.length ∧
      (List.zipWith (frameBeats src) (collect step sampled s is) ps).flatten =
        collect step taken s is ++ p := by
  have hπ : ∀ x i, (fed x i).1 = step x.1 i := fun _ _ => rfl
  have hserved := ((always_proj hπ (s, ⟨ps.flatMap beats, false⟩) is).mpr hsteady).and hfeeds
  obtain ⟨p, hp, e⟩ := exists_pending (fun _ _ _ _ => Pending.step) hstart hserved
  have hle := hstart.length_sampled_le hserved
  rw [collect_proj hπ] at hp e hle
  rw [collect_proj hπ, collect_frameOf _ _ hle, List.nil_append] at e
  rw [run_tail] at hp
  exact ⟨p, hp, hle, e⟩

theorem pending_run {s : State} {ps : List (List (Byte × Bool))} (h : AfterReset s)
    (hps : [] ∉ ps) (hsteady : Always step (Steady src) s is)
    (hfeeds : Feeds false step offer sAxisTready (ps.flatMap beats) s is) :
    ∃ p, Pending src (run fed (s, ⟨ps.flatMap beats, false⟩) is)
        (ps.drop (collect step sampled s is).length) p ∧
      (collect step sampled s is).length ≤ ps.length ∧
      (List.zipWith (frameBeats src) (collect step sampled s is) ps).flatten =
        collect step taken s is ++ p :=
  run_of_pending (pending_afterReset h hps) hsteady hfeeds

/-- Once the source has handed over everything, six cycles with `m_axis_tready_in` are enough. -/
theorem frames_taken {s : State} {ps : List (List (Byte × Bool))} {js ks : List Inputs}
    (h : AfterReset s) (hps : [] ∉ ps) (hsteady : Always step (Steady src) s (js ++ ks))
    (hfeeds : Feeds false step offer sAxisTready (ps.flatMap beats) s (js ++ ks))
    (hsent : unsent false step offer sAxisTready (ps.flatMap beats) s js = [])
    (hcount : 6 ≤ ks.countP (·.mAxisTready)) :
    (collect step sampled s (js ++ ks)).length = ps.length ∧
      collect step taken s (js ++ ks) =
        (List.zipWith (frameBeats src) (collect step sampled s (js ++ ks)) ps).flatten := by
  obtain ⟨p, hp, hle, e⟩ := pending_run h hps hsteady hfeeds
  obtain ⟨hsteady₁, hsteady₂⟩ := (always_append _ _ _).mp hsteady
  obtain ⟨hfeeds₁, hfeeds₂⟩ := (always_append _ _ _).mp hfeeds
  obtain ⟨p₁, hp₁, -, -⟩ := pending_run h hps hsteady₁ hfeeds₁
  have hπ : ∀ x i, (fed x i).1 = step x.1 i := fun _ _ => rfl
  have hserved : Always fed (Served src) (run fed (s, ⟨ps.flatMap beats, false⟩) js) ks := by
    refine Always.and ((always_proj hπ _ _).mpr ?_) hfeeds₂
    rwa [run_proj hπ]
  obtain ⟨htodo, hleft⟩ := hp₁.cyclesLeft_run hserved hsent
  have hmax : cyclesLeft (run fed (s, ⟨ps.flatMap beats, false⟩) js).1 ≤ 6 := by
    unfold cyclesLeft FcsState.left
    grind
  rw [← run_append] at htodo hleft
  obtain ⟨rfl, hdrop⟩ := hp.eq_nil htodo (by omega)
  refine ⟨?_, by simpa using e.symm⟩
  have := List.drop_eq_nil_iff.mp hdrop
  omega

/-- **The framer emits Ethernet II frames.** With a source that follows the handshake and has the
packets `ps` to send, the beats taken are at every time the first of the frames of the packets
started so far, one for each sampled destination address. Once the source has handed over
everything, six cycles with `m_axis_tready_in` later every packet has had its frame, and all of
the frames have been taken. -/
theorem taken_prefix_frames (src : BitVec 48) (ps : List (List (Byte × Bool))) {s : State}
    {is : List Inputs} (h : AfterReset s) (hps : ∀ p ∈ ps, p ≠ [])
    (hsteady : Always step (Steady src) s is)
    (hfeeds : Feeds false step offer sAxisTready (ps.flatMap beats) s is) :
    let dsts := collect step sampled s is
    dsts.length ≤ ps.length ∧
      collect step taken s is <+: (List.zipWith (frameBeats src) dsts ps).flatten ∧
      ∀ js ks, is = js ++ ks → unsent false step offer sAxisTready (ps.flatMap beats) s js = [] →
        6 ≤ ks.countP (·.mAxisTready) → dsts.length = ps.length ∧
          collect step taken s is = (List.zipWith (frameBeats src) dsts ps).flatten := by
  have hps : [] ∉ ps := fun hmem => hps _ hmem rfl
  obtain ⟨p, -, hle, e⟩ := pending_run h hps hsteady hfeeds
  refine ⟨hle, ⟨p, e.symm⟩, ?_⟩
  rintro js ks rfl hsent hcount
  exact frames_taken h hps hsteady hfeeds hsent hcount

/-- The framer after the reset. -/
def cleared : State :=
  step ⟨.idle, .data, true, ⟨0, 0⟩, false, 0, 0, false, false, 0, false, false⟩
    { reset := true, sourceMacIn := 0, destinationMacIn := 0 }

/-- A packet of one byte from `00:11:22:33:44:55` to the broadcast address. -/
theorem taken_prefix_frames_one :
    let i : Inputs := { sourceMacIn := 0x001122334455, destinationMacIn := 0xFFFFFFFFFFFF }
    collect step taken cleared (List.replicate 16
        { i with
          sAxisTdata := 0xAB, sAxisTuser := true, sAxisTvalid := true, sAxisTlast := true } ++
          List.replicate 6 i) =
      frameBeats 0x001122334455 0xFFFFFFFFFFFF [(0xAB, true)] :=
  (((taken_prefix_frames 0x001122334455 [[(0xAB, true)]] ⟨_, _, rfl, rfl⟩ (by decide)
    (by decide +kernel) (by decide +kernel)).2.2 (List.replicate 16 _) _ rfl (by decide +kernel)
    (by decide +kernel)).2).trans (by decide +kernel)

end Runs

end RmiiEthernet.EthernetFramer
