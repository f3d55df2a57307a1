import RmiiEthernet.Ethernet.Fcs
import RmiiEthernet.Sync.Packet

/-!
# The RMII receiver

`rmii_mac_rx` gets two bits a cycle while `crs_dv` is high. It aligns itself on the first di-bit
`01`, makes a byte of every four di-bits from there on, and passes the bytes behind the first
`0xD5`. The byte that the last di-bit of the carrier completes is marked as the last one, and only
this mark makes the receiver look for the next `0xD5` again.

* `Decoder` is what the receiver does to a stream of di-bits with a mark on the last one of each
  carrier event; `owes_step` shows that the circuit does it, a few cycles late.
* `independent_iff` says when carrier events do not influence each other.
-/

namespace RmiiEthernet.RmiiMacRx

open Sync EthernetFcs

/-- Two bits. -/
abbrev DiBit := BitVec 2

/-! ## The circuit -/

/-- `fsm_state_t`. -/
inductive FsmState
  | waitForSfd
  | data
  deriving DecidableEq

/-- The input ports in one cycle. -/
structure Inputs where
  reset : Bool := false
  crsDv : Bool
  rxd : DiBit

/-- The registers. -/
structure State where
  crsDvR : Bool
  rxdR : DiBit
  byteCounterReset : Bool
  byteCounter : BitVec 2
  rxByte : Byte
  rxByteValid : Bool
  rxByteLast : Bool
  rxByteR : Byte
  rxByteValidR : Bool
  rxByteLastR : Bool
  fsmState : FsmState
  mAxisTdata : Byte
  mAxisTvalid : Bool
  mAxisTlast : Bool
  deriving DecidableEq

/-- The start-of-frame delimiter. -/
def sfd : Byte := 0xD5

/-- A di-bit is shifted into a byte from the top. -/
def pushDiBit (r : Byte) (d : DiBit) : Byte := d ++ r.extractLsb' 2 6

section Signals

variable (s : State) (i : Inputs)

/-- `byte_counter_max`: the last di-bit of a byte. -/
def byteCounterMax : Bool := s.byteCounter == 3

/-- The next state of the state machine when there is no reset. -/
def advance : FsmState :=
  match s.fsmState with
  | .waitForSfd => if s.rxByteValid && s.rxByte == sfd then .data else .waitForSfd
  | .data => if s.rxByteValid && s.rxByteLast then .waitForSfd else .data

/-- One clock edge. -/
def step : State where
  crsDvR := i.crsDv
  rxdR := i.rxd
  byteCounterReset :=
    if i.reset || !s.crsDvR then true
    else if s.crsDvR && s.rxdR == 1#2 then false
    else s.byteCounterReset
  byteCounter := if s.byteCounterReset then 1 else s.byteCounter + 1
  rxByte := pushDiBit s.rxByte s.rxdR
  rxByteLast := s.crsDvR && !i.crsDv
  rxByteValid := !i.reset && (byteCounterMax s && s.crsDvR)
  rxByteR := if i.reset || s.fsmState == .waitForSfd then 0 else s.rxByte
  rxByteValidR := !(i.reset || s.fsmState == .waitForSfd) && s.rxByteValid
  rxByteLastR := !(i.reset || s.fsmState == .waitForSfd) && s.rxByteLast
  fsmState := if i.reset then .waitForSfd else advance s
  mAxisTdata := if i.reset then 0 else s.rxByteR
  mAxisTvalid := !i.reset && s.rxByteValidR
  mAxisTlast := !i.reset && s.rxByteLastR

end Signals

/-- The initial values of the registers. -/
structure PowerUp (s : State) : Prop where
  crsDvR : s.crsDvR = false
  byteCounterReset : s.byteCounterReset = false
  byteCounter : s.byteCounter = 0
  rxByteValid : s.rxByteValid = false
  rxByteValidR : s.rxByteValidR = false
  fsmState : s.fsmState = .waitForSfd

/-- A state the reset leads to when no carrier is sensed. -/
def AfterReset (s : State) : Prop :=
  ∃ s₀ i, i.reset = true ∧ i.crsDv = false ∧ s = step s₀ i

/-- The beat in the output register. -/
def output (s : State) : List (Byte × Bool) :=
  if s.mAxisTvalid then [(s.mAxisTdata, s.mAxisTlast)] else []

/-- The beat shown in a cycle. -/
def shown (s : State) (_ : Inputs) : List (Byte × Bool) := output s

/-- The di-bit in the first register, with a mark when the carrier ends behind it. -/
def received (s : State) (i : Inputs) : List (DiBit × Bool) :=
  if s.crsDvR then [(s.rxdR, !i.crsDv)] else []

/-! ## The decoder -/

/-- The byte of four di-bits, the first one in the least significant bits. -/
def byteOf (l : List DiBit) : Byte := l.foldl pushDiBit 0

/-- What a receiver knows about a carrier event: the di-bits of the byte in progress, once it is
aligned, and whether it has seen the delimiter. -/
structure Decoder where
  part : Option (List DiBit)
  fsmState : FsmState

namespace Decoder

variable (g : Decoder) (b : DiBit × Bool)

/-- The byte that a di-bit completes. -/
def completed (d : DiBit) : Option Byte :=
  match g.part with
  | none => none
  | some l => if l.length = 3 then some (byteOf (l ++ [d])) else none

/-- The byte in progress after a di-bit. -/
def align (d : DiBit) : Option (List DiBit) :=
  match g.part with
  | none => if d = 1#2 then some [d] else none
  | some l => if l.length = 3 then some [] else some (l ++ [d])

/-- Whether the delimiter has been seen after a di-bit that may complete a byte. -/
def advance (byte : Option Byte) (last : Bool) : FsmState :=
  match g.fsmState with
  | .waitForSfd => if byte = some sfd then .data else .waitForSfd
  | .data => if byte.isSome && last then .waitForSfd else .data

/-- One di-bit; the mark ends the carrier event. -/
def step : Decoder where
  part := if b.2 then none else g.align b.1
  fsmState := g.advance (g.completed b.1) b.2

/-- The byte delivered by a di-bit. -/
def emit : List (Byte × Bool) :=
  if g.fsmState = .data then (g.completed b.1).toList.map (·, b.2) else []

end Decoder

/-! ## One cycle -/

section Cycle

/-- The beat in the register behind the state machine. -/
def passed (s : State) : List (Byte × Bool) :=
  if s.rxByteValidR then [(s.rxByteR, s.rxByteLastR)] else []

/-- The beat that the state machine is about to pass. -/
def passing (s : State) : List (Byte × Bool) :=
  if s.fsmState = .data ∧ s.rxByteValid = true then [(s.rxByte, s.rxByteLast)] else []

/-- The alignment registers while the carrier is on. -/
def Aligned (s : State) : Option (List DiBit) → Prop
  | none => s.byteCounterReset = true ∧ s.byteCounter = 1
  | some l => s.byteCounterReset = false ∧ l.length < 4 ∧ s.byteCounter = BitVec.ofNat 2 l.length ∧
      ∃ r, s.rxByte = l.foldl pushDiBit r

/-- **What is owed**: the registers behind the state machine and the byte in front of it, when the
decoder is in the state `g`. -/
structure Owes (s : State) (g : Decoder) (p : List (Byte × Bool)) : Prop where
  on : s.crsDvR = true → Aligned s g.part
  off : s.crsDvR = false → g.part = none
  fsmState : g.fsmState = advance s
  pending : p = output s ++ passed s ++ passing s

/-- No reset, and no carrier right behind the end of one. -/
def Spaced (s : State) (i : Inputs) : Prop :=
  i.reset = false ∧ (s.crsDvR = false → i.crsDv = true → s.byteCounterReset = true)

variable {s : State} {g : Decoder} {p : List (Byte × Bool)} {i : Inputs}

theorem getLsbD_pushDiBit (r : Byte) (d : DiBit) (k : ℕ) :
    (pushDiBit r d).getLsbD k = if k < 6 then r.getLsbD (k + 2) else d.getLsbD (k - 6) := by
  simp only [pushDiBit, BitVec.getLsbD_append, BitVec.getLsbD_extractLsb']
  split <;> simp_all [Nat.add_comm]

/-- Four di-bits push everything else out of a byte. -/
theorem foldl_pushDiBit (r : Byte) {l : List DiBit} (hl : l.length = 4) :
    l.foldl pushDiBit r = byteOf l := by
  match l, hl with
  | [a, b, c, d], _ =>
    ext k hk
    simp only [byteOf, List.foldl_cons, List.foldl_nil, ← BitVec.getLsbD_eq_getElem,
      getLsbD_pushDiBit]
    grind

/-- The circuit and the decoder complete the same bytes. -/
theorem completed_eq (h : Aligned s g.part) :
    g.completed s.rxdR =
      if s.byteCounter = 3 then some (pushDiBit s.rxByte s.rxdR) else none := by
  unfold Decoder.completed
  cases hg : g.part with
  | none =>
    rw [hg] at h
    rw [h.2]
    rfl
  | some l =>
    rw [hg] at h
    obtain ⟨-, hl, hc, r, hr⟩ := h
    have hthree : s.byteCounter = 3 ↔ l.length = 3 := by
      rw [hc]
      constructor
      · intro hthree
        simpa [Nat.mod_eq_of_lt hl] using congrArg BitVec.toNat hthree
      · intro hthree
        rw [hthree]
        rfl
    simp only [hthree]
    split_ifs with hlen
    · rw [hr, ← foldl_pushDiBit r (by simp [hlen]), List.foldl_append, List.foldl_cons,
        List.foldl_nil]
    · rfl

theorem aligned_step (h : Aligned s g.part) (hon : s.crsDvR = true) (hi : i.reset = false) :
    Aligned (step s i) (g.align s.rxdR) := by
  cases hg : g.part with
  | none =>
    rw [hg] at h
    obtain ⟨hr, hc⟩ := h
    by_cases hd : s.rxdR = 1#2
    · have halign : g.align s.rxdR = some [1#2] := by simp [Decoder.align, hg, hd]
      rw [halign]
      refine ⟨by simp [step, hi, hon, hd], by simp, by simp [step, hr], s.rxByte, ?_⟩
      rw [← hd]
      rfl
    · have halign : g.align s.rxdR = none := by simp only [Decoder.align, hg, hd, if_false]
      have hd' : (s.rxdR == 1#2) = false := by simpa using hd
      rw [halign]
      exact ⟨by simp only [step, hd', hr]; simp, by simp [step, hr]⟩
  | some l =>
    rw [hg] at h
    obtain ⟨hr, hl, hc, r, hb⟩ := h
    have hreset : (step s i).byteCounterReset = false := by simp [step, hi, hon, hr]
    have hcount : (step s i).byteCounter = s.byteCounter + 1 := by simp [step, hr]
    have hpush : (step s i).rxByte = pushDiBit s.rxByte s.rxdR := rfl
    by_cases hlen : l.length = 3
    · have halign : g.align s.rxdR = some [] := by simp [Decoder.align, hg, hlen]
      rw [halign]
      refine ⟨hreset, by simp, ?_, _, rfl⟩
      rw [hcount, hc, hlen]
      rfl
    · have halign : g.align s.rxdR = some (l ++ [s.rxdR]) := by simp [Decoder.align, hg, hlen]
      rw [halign]
      refine ⟨hreset, by simp; omega, ?_, r, ?_⟩
      · rw [hcount, hc, List.length_append, BitVec.ofNat_add]
        rfl
      · rw [hpush, hb, List.foldl_append, List.foldl_cons, List.foldl_nil]

theorem output_step (hi : i.reset = false) : output (step s i) = passed s := by
  simp [output, passed, step, hi]

theorem passed_step (hi : i.reset = false) : passed (step s i) = passing s := by
  unfold passed passing
  cases hf : s.fsmState
  · simp [step, hf]
  · have hdata : (FsmState.data == .waitForSfd) = false := rfl
    simp [step, hi, hf, hdata]

/-- The state machine does to the byte register what the decoder does to the byte. -/
theorem advance_step (hg : g.fsmState = advance s) (hi : i.reset = false) (byte : Option Byte)
    (hbyte : byte = if (step s i).rxByteValid then some (step s i).rxByte else none) :
    g.advance byte (step s i).rxByteLast = advance (step s i) := by
  have hs : (step s i).fsmState = g.fsmState := by rw [hg]; simp [step, hi]
  unfold Decoder.advance advance
  rw [hs]
  cases g.fsmState <;> cases hv : (step s i).rxByteValid <;> simp [hbyte, hv]

/-- **One cycle**: what is owed and what the decoder makes of the di-bit received is what is shown
and what is owed next. -/
theorem owes_step (h : Owes s g p) (hi : Spaced s i) :
    ∃ p', Owes (step s i) (run Decoder.step g (received s i)) p' ∧
      p ++ collect Decoder.step Decoder.emit g (received s i) = shown s i ++ p' := by
  obtain ⟨hreset, hspaced⟩ := hi
  have hs : (step s i).fsmState = g.fsmState := by rw [h.fsmState]; simp [step, hreset]
  suffices key : Owes (step s i) (run Decoder.step g (received s i))
      (output (step s i) ++ passed (step s i) ++ passing (step s i)) ∧
      collect Decoder.step Decoder.emit g (received s i) = passing (step s i) by
    refine ⟨_, key.1, ?_⟩
    rw [key.2, h.pending, output_step hreset, passed_step hreset, shown]
    simp
  cases hon : s.crsDvR with
  | false =>
    have hv : (step s i).rxByteValid = false := by simp [step, hon]
    have hr : received s i = [] := by simp [received, hon]
    rw [hr]
    refine ⟨⟨fun hon' => ?_, fun _ => h.off hon, ?_, rfl⟩, by simp [passing, hv]⟩
    · have hbr := hspaced hon hon'
      rw [run_nil, h.off hon]
      simp [Aligned, step, hon, hbr]
    · rw [run_nil]
      unfold advance
      rw [hs, hv]
      cases g.fsmState <;> rfl
  | true =>
    have hr : received s i = [(s.rxdR, !i.crsDv)] := by simp [received, hon]
    have hlast : (step s i).rxByteLast = !i.crsDv := by simp [step, hon]
    have hbyte : g.completed s.rxdR =
        if (step s i).rxByteValid then some (step s i).rxByte else none := by
      rw [completed_eq (h.on hon)]
      simp [step, hreset, hon, byteCounterMax]
    rw [hr, collect_cons, collect_nil, run_cons, run_nil, List.append_nil]
    refine ⟨⟨fun hon' => ?_, fun hoff => ?_, ?_, rfl⟩, ?_⟩
    · have hdv : i.crsDv = true := hon'
      simpa [Decoder.step, hdv] using aligned_step (h.on hon) hon hreset
    · have hdv : i.crsDv = false := hoff
      simp [Decoder.step, hdv]
    · rw [← advance_step h.fsmState hreset _ hbyte, hlast]
      rfl
    · unfold Decoder.emit passing
      rw [hs, hbyte, hlast]
      cases g.fsmState <;> cases (step s i).rxByteValid <;> simp

end Cycle

/-! ## Carrier events -/

/-- The inputs while the carrier is on. -/
def carrier (ds : List DiBit) : List Inputs := ds.map fun d => { crsDv := true, rxd := d }

/-- The inputs while no carrier is sensed. -/
def quiet (ds : List DiBit) : List Inputs := ds.map fun d => { crsDv := false, rxd := d }

@[simp] theorem carrier_nil : carrier [] = [] := rfl

@[simp] theorem carrier_cons (d : DiBit) (ds : List DiBit) :
    carrier (d :: ds) = ⟨false, true, d⟩ :: carrier ds := rfl

@[simp] theorem quiet_nil : quiet [] = [] := rfl

@[simp] theorem quiet_cons (d : DiBit) (ds : List DiBit) :
    quiet (d :: ds) = ⟨false, false, d⟩ :: quiet ds := rfl

/-- A carrier event and the time without a carrier behind it. -/
structure Event where
  dibits : List DiBit
  gap : List DiBit
  gap_ge : 8 ≤ gap.length

/-- The inputs during an event and the gap behind it. -/
def Event.inputs (e : Event) : List Inputs := carrier e.dibits ++ quiet e.gap

/-- The inputs of a run: some time without a carrier, then events. -/
def line (ds : List DiBit) (es : List Event) : List Inputs :=
  quiet ds ++ es.flatMap Event.inputs

theorem line_concat (ds : List DiBit) (es : List Event) (e : Event) :
    line ds (es ++ [e]) = line ds es ++ e.inputs := by
  simp [line]

/-- The di-bits of an event from the one that aligns the receiver. -/
def alignedDiBits (ds : List DiBit) : List DiBit := ds.dropWhile (· ≠ 1#2)

/-- The complete bytes of aligned di-bits. -/
def completeBytes : List DiBit → List Byte
  | a :: b :: c :: d :: l => byteOf [a, b, c, d] :: completeBytes l
  | _ => []

/-- An event that leaves the receiver waiting for a delimiter: one without a delimiter, or one that
ends with a byte and has a delimiter before this byte. -/
def Rearms (ds : List DiBit) : Prop :=
  sfd ∈ completeBytes (alignedDiBits ds) →
    (alignedDiBits ds).length % 4 = 0 ∧ sfd ∈ (completeBytes (alignedDiBits ds)).dropLast

instance (ds : List DiBit) : Decidable (Rearms ds) := by unfold Rearms; infer_instance

/-- **Events do not influence each other**: before each one the receiver waits for a delimiter and
no packet is open at its output, and the beats shown from its start to the start of the next one
are those shown for it alone behind a reset. -/
def Independent (s : State) (ds : List DiBit) (es : List Event) : Prop :=
  ∀ before e after, es = before ++ e :: after →
    (run step s (line ds before)).fsmState = .waitForSfd ∧
    openPacket (collect step shown s (line ds before)) = [] ∧
    ∀ s', AfterReset s' → collect step shown (run step s (line ds before)) e.inputs =
      collect step shown s' e.inputs

namespace Decoder

/-- What the state machine makes of an event. -/
def finalState (f : FsmState) (ds : List DiBit) : FsmState :=
  (run Decoder.step ⟨none, f⟩ (beats ds)).fsmState

/-- The di-bits in front of the alignment do nothing. -/
theorem finalState_eq_aligned (f : FsmState) (ds : List DiBit) :
    finalState f ds =
      (run Decoder.step ⟨some [], f⟩ (beats (alignedDiBits ds))).fsmState := by
  unfold finalState alignedDiBits
  induction ds with
  | nil => rfl
  | cons d ds ih =>
    by_cases hd : d = 1#2
    · have hdrop : (d :: ds).dropWhile (· ≠ 1#2) = d :: ds := by simp [hd]
      have hstep : Decoder.step ⟨none, f⟩ (d, ds.isEmpty) =
          Decoder.step ⟨some [], f⟩ (d, ds.isEmpty) := by
        simp [Decoder.step, Decoder.align, Decoder.completed, Decoder.advance, hd]
      rw [hdrop, beats_cons, run_cons, run_cons, hstep]
    · have hdrop : (d :: ds).dropWhile (· ≠ 1#2) = ds.dropWhile (· ≠ 1#2) := by simp [hd]
      have hstep : Decoder.step ⟨none, f⟩ (d, ds.isEmpty) = ⟨none, f⟩ := by
        cases f <;> simp [Decoder.step, Decoder.align, Decoder.completed, Decoder.advance, hd]
      rw [hdrop, beats_cons, run_cons, hstep, ih]

/-- The state machine behind a byte. -/
theorem run_four (f : FsmState) (a b c d : DiBit) (last : Bool) :
    run Decoder.step ⟨some [], f⟩ [(a, false), (b, false), (c, false), (d, last)] =
      ⟨if last then none else some [],
        Decoder.advance ⟨some [], f⟩ (some (byteOf [a, b, c, d])) last⟩ := by
  cases f <;>
    simp [Decoder.step, Decoder.align, Decoder.completed, Decoder.advance]

/-- The byte delivered by four di-bits. -/
theorem collect_four (f : FsmState) (a b c d : DiBit) (last : Bool) :
    collect Decoder.step Decoder.emit ⟨some [], f⟩
        [(a, false), (b, false), (c, false), (d, last)] =
      if f = .data then [(byteOf [a, b, c, d], last)] else [] := by
  cases f <;>
    simp [Decoder.step, Decoder.emit, Decoder.align, Decoder.completed, Decoder.advance]

theorem length_lt_four {l : List DiBit}
    (hl : ∀ a b c d l', l = a :: b :: c :: d :: l' → False) : l.length < 4 := by
  match l with
  | [] | [_] | [_, _] | [_, _, _] => simp
  | a :: b :: c :: d :: l => exact absurd rfl (hl a b c d l)

theorem completeBytes_ne_nil {l : List DiBit} (hne : l ≠ []) (hl : l.length % 4 = 0) :
    completeBytes l ≠ [] := by
  match l with
  | [] => exact absurd rfl hne
  | [_] | [_, _] | [_, _, _] => simp at hl
  | a :: b :: c :: d :: l => simp [completeBytes]

theorem run_short (f : FsmState) (l : List DiBit) (hl : l.length < 4) :
    (run Decoder.step ⟨some [], f⟩ (beats l)).fsmState = f := by
  match l with
  | [] => rfl
  | [a] => cases f <;> rfl
  | [a, b] => cases f <;> rfl
  | [a, b, c] => cases f <;> rfl
  | a :: b :: c :: d :: l => simp at hl; omega

theorem beats_four (a b c d : DiBit) (l : List DiBit) :
    beats (a :: b :: c :: d :: l) =
      [(a, false), (b, false), (c, false), (d, l.isEmpty)] ++ beats l := by
  simp [beats_cons]

/-- Behind the delimiter, only an event that ends with a byte closes the packet. -/
theorem run_data_eq_waitForSfd_iff (l : List DiBit) :
    (run Decoder.step ⟨some [], .data⟩ (beats l)).fsmState = .waitForSfd ↔
      l ≠ [] ∧ l.length % 4 = 0 := by
  fun_induction completeBytes l with
  | case1 a b c d l ih =>
    rw [beats_four, run_append, run_four]
    cases l with
    | nil => simp [Decoder.advance]
    | cons e l =>
      have hlen : (a :: b :: c :: d :: e :: l).length % 4 = (e :: l).length % 4 := by
        simp only [List.length_cons]
        omega
      rw [hlen]
      simpa [Decoder.advance] using ih
  | case2 l hl =>
    have hlen := length_lt_four hl
    rw [run_short _ _ hlen]
    simp only [reduceCtorEq, false_iff]
    rintro ⟨hne, hmod⟩
    rw [Nat.mod_eq_of_lt hlen, List.length_eq_zero_iff] at hmod
    exact hne hmod

/-- In front of the delimiter, the event has to have none, or one before the byte it ends with. -/
theorem run_wait_eq_waitForSfd_iff (l : List DiBit) :
    (run Decoder.step ⟨some [], .waitForSfd⟩ (beats l)).fsmState = .waitForSfd ↔
      (sfd ∈ completeBytes l → l.length % 4 = 0 ∧ sfd ∈ (completeBytes l).dropLast) := by
  fun_induction completeBytes l with
  | case1 a b c d l ih =>
    rw [beats_four, run_append, run_four]
    cases l with
    | nil =>
      by_cases hb : byteOf [a, b, c, d] = sfd
      · simp [Decoder.advance, hb, completeBytes]
      · simp [Decoder.advance, hb, completeBytes, Ne.symm hb]
    | cons e l =>
      have hlen : (a :: b :: c :: d :: e :: l).length % 4 = (e :: l).length % 4 := by
        simp only [List.length_cons]
        omega
      rw [hlen]
      by_cases hb : byteOf [a, b, c, d] = sfd
      · have hrun := run_data_eq_waitForSfd_iff (e :: l)
        simp only [Decoder.advance, hb, List.isEmpty_cons, Bool.false_eq_true, if_false, if_true,
          hrun]
        refine ⟨fun h _ => ⟨h.2, ?_⟩, fun h => ⟨List.cons_ne_nil _ _, (h (by simp)).1⟩⟩
        rw [List.dropLast_cons_of_ne_nil (completeBytes_ne_nil h.1 h.2)]
        exact List.mem_cons_self
      · have hmem : sfd ∈ byteOf [a, b, c, d] :: completeBytes (e :: l) ↔
            sfd ∈ completeBytes (e :: l) := by simp [Ne.symm hb]
        have hdrop : sfd ∈ (byteOf [a, b, c, d] :: completeBytes (e :: l)).dropLast ↔
            sfd ∈ (completeBytes (e :: l)).dropLast := by
          cases completeBytes (e :: l) <;> simp [Ne.symm hb]
        rw [hmem, hdrop]
        simpa [Decoder.advance, hb] using ih
  | case2 l hl =>
    rw [run_short _ _ (length_lt_four hl)]
    simp

end Decoder

/-- **The events that arm the receiver again.** -/
theorem finalState_eq_waitForSfd_iff (ds : List DiBit) :
    Decoder.finalState .waitForSfd ds = .waitForSfd ↔ Rearms ds := by
  rw [Decoder.finalState_eq_aligned, Decoder.run_wait_eq_waitForSfd_iff, Rearms]

namespace Decoder

/-- While a delimiter is awaited no packet is open. -/
theorem openPacket_emit {g : Decoder} {bs : List (DiBit × Bool)} {out : List (Byte × Bool)}
    (hg : g.fsmState = .waitForSfd → openPacket out = [])
    (hrun : (run Decoder.step g bs).fsmState = .waitForSfd) :
    openPacket (out ++ collect Decoder.step Decoder.emit g bs) = [] := by
  induction bs generalizing g out with
  | nil => simpa using hg hrun
  | cons b bs ih =>
    rw [collect_cons, ← List.append_assoc]
    refine ih (fun hstep => ?_) hrun
    have hnext : g.advance (g.completed b.1) b.2 = .waitForSfd := hstep
    unfold Decoder.advance at hnext
    unfold Decoder.emit
    cases hf : g.fsmState with
    | waitForSfd => simpa using hg hf
    | data =>
      cases hc : g.completed b.1 with
      | none => simp [hf, hc] at hnext
      | some byte =>
        have hlast : b.2 = true := by
          by_contra hlast
          simp [hf, hc, hlast] at hnext
        simp [hlast, openPacket_concat]

end Decoder

section Events

variable {s : State} {e : Event}

/-- Nothing is under way in the receiver. -/
structure Silent (s : State) : Prop where
  crsDvR : s.crsDvR = false
  byteCounterReset : s.byteCounterReset = true
  rxByteValid : s.rxByteValid = false
  rxByteValidR : s.rxByteValidR = false
  mAxisTvalid : s.mAxisTvalid = false

theorem silent_afterReset (h : AfterReset s) : Silent s ∧ s.fsmState = .waitForSfd := by
  obtain ⟨s₀, i, hr, hi, rfl⟩ := h
  refine ⟨⟨?_, ?_, ?_, ?_, ?_⟩, ?_⟩ <;> simp [step, hr, hi]

theorem Silent.advance (h : Silent s) : advance s = s.fsmState := by
  unfold RmiiMacRx.advance
  rw [h.rxByteValid]
  cases s.fsmState <;> rfl

theorem Silent.owes (h : Silent s) : Owes s ⟨none, s.fsmState⟩ [] where
  on hon := by simp [h.crsDvR] at hon
  off _ := rfl
  fsmState := h.advance.symm
  pending := by
    simp [output, passed, passing, h.rxByteValid, h.rxByteValidR, h.mAxisTvalid]

theorem Silent.step_quiet (h : Silent s) (d : DiBit) :
    Silent (step s ⟨false, false, d⟩) ∧ (step s ⟨false, false, d⟩).fsmState = s.fsmState := by
  refine ⟨⟨rfl, ?_, ?_, ?_, ?_⟩, h.advance⟩ <;>
    simp [step, h.crsDvR, h.rxByteValid, h.rxByteValidR]

theorem Silent.run_quiet (h : Silent s) (ds : List DiBit) :
    Silent (run step s (quiet ds)) ∧ (run step s (quiet ds)).fsmState = s.fsmState ∧
      collect step shown s (quiet ds) = [] := by
  induction ds generalizing s with
  | nil => exact ⟨h, rfl, rfl⟩
  | cons d ds ih =>
    obtain ⟨h₁, h₂⟩ := h.step_quiet d
    obtain ⟨h₃, h₄, h₅⟩ := ih h₁
    refine ⟨h₃, h₄.trans h₂, ?_⟩
    have hshown : shown s ⟨false, false, d⟩ = [] := by simp [shown, output, h.mAxisTvalid]
    rw [quiet_cons, collect_cons, hshown, h₅, List.nil_append]

/-- Four cycles without a carrier empty the receiver. -/
theorem silent_run_quiet (s : State) {ds : List DiBit} (hds : 4 ≤ ds.length) :
    Silent (run step s (quiet ds)) := by
  match ds with
  | a :: b :: c :: d :: ds =>
    have hfour : Silent (run step s (quiet [a, b, c, d])) := by
      refine ⟨rfl, ?_, ?_, ?_, ?_⟩ <;> simp [quiet, step]
    have happ : quiet (a :: b :: c :: d :: ds) = quiet [a, b, c, d] ++ quiet ds := rfl
    rw [happ, run_append]
    exact (hfour.run_quiet ds).1

theorem spaced_event (h : s.crsDvR = false → s.byteCounterReset = true) (ds gap : List DiBit) :
    Always step Spaced s (carrier ds ++ quiet gap) := by
  induction ds generalizing s with
  | nil =>
    clear h
    induction gap generalizing s with
    | nil => trivial
    | cons d gap ih => exact ⟨⟨rfl, fun _ hon => by simp at hon⟩, ih⟩
  | cons d ds ih => exact ⟨⟨rfl, fun hoff _ => h hoff⟩, ih fun hoff => by simp [step] at hoff⟩

theorem received_quiet (hs : s.crsDvR = false) (gap : List DiBit) :
    collect step received s (quiet gap) = [] := by
  induction gap generalizing s with
  | nil => rfl
  | cons d gap ih =>
    have hnone : received s ⟨false, false, d⟩ = [] := by simp [received, hs]
    rw [quiet_cons, collect_cons, hnone, ih, List.nil_append]
    rfl

/-- The first register sees the di-bits of an event, the last one marked. -/
theorem received_carrier (hs : s.crsDvR = true) (ds : List DiBit) {gap : List DiBit}
    (hgap : gap ≠ []) :
    collect step received s (carrier ds ++ quiet gap) = beats (s.rxdR :: ds) := by
  induction ds generalizing s with
  | nil =>
    obtain ⟨d, gap, rfl⟩ := List.exists_cons_of_ne_nil hgap
    have hone : received s ⟨false, false, d⟩ = [(s.rxdR, true)] := by simp [received, hs]
    rw [carrier_nil, quiet_cons, List.nil_append, collect_cons, hone, received_quiet rfl]
    rfl
  | cons d ds ih =>
    have hone : received s ⟨false, true, d⟩ = [(s.rxdR, false)] := by simp [received, hs]
    rw [carrier_cons, List.cons_append, collect_cons, hone, ih rfl]
    rfl

theorem received_event (hs : s.crsDvR = false) (ds : List DiBit) {gap : List DiBit}
    (hgap : gap ≠ []) : collect step received s (carrier ds ++ quiet gap) = beats ds := by
  cases ds with
  | nil => rw [carrier_nil, List.nil_append, received_quiet hs, beats_nil]
  | cons d ds =>
    have hnone : received s ⟨false, true, d⟩ = [] := by simp [received, hs]
    rw [carrier_cons, List.cons_append, collect_cons, hnone, received_carrier rfl ds hgap]
    rfl

/-- **A carrier and enough time behind it**, seen from a silent receiver. -/
theorem Silent.run_carrier (h : Silent s) (ds : List DiBit) {gap : List DiBit}
    (hgap : 4 ≤ gap.length) :
    Silent (run step s (carrier ds ++ quiet gap)) ∧
    (run step s (carrier ds ++ quiet gap)).fsmState = Decoder.finalState s.fsmState ds ∧
    collect step shown s (carrier ds ++ quiet gap) =
      collect Decoder.step Decoder.emit ⟨none, s.fsmState⟩ (beats ds) := by
  have hsilent : Silent (run step s (carrier ds ++ quiet gap)) := by
    rw [run_append]
    exact silent_run_quiet _ hgap
  obtain ⟨p, howes, heq⟩ := exists_pending (fun s g p i => owes_step) h.owes
    (spaced_event (fun _ => h.byteCounterReset) ds gap)
  rw [received_event h.crsDvR ds (List.ne_nil_of_length_pos (by omega))] at howes heq
  have hp : p = [] := by
    rw [howes.pending]
    simp [output, passed, passing, hsilent.rxByteValid, hsilent.rxByteValidR, hsilent.mAxisTvalid]
  refine ⟨hsilent, ?_, ?_⟩
  · rw [← hsilent.advance, ← howes.fsmState]
    rfl
  · rw [hp, List.nil_append, List.append_nil] at heq
    exact heq.symm

/-- **One event**, seen from a silent receiver. -/
theorem Silent.run_event (h : Silent s) (e : Event) :
    Silent (run step s e.inputs) ∧
    (run step s e.inputs).fsmState = Decoder.finalState s.fsmState e.dibits ∧
    collect step shown s e.inputs =
      collect Decoder.step Decoder.emit ⟨none, s.fsmState⟩ (beats e.dibits) :=
  h.run_carrier e.dibits (by have := e.gap_ge; omega)

/-- The receiver is silent before every event. -/
theorem silent_run_line (h : Silent s) (ds : List DiBit) (es : List Event) :
    Silent (run step s (line ds es)) := by
  induction es using List.reverseRecOn with
  | nil => simpa [line] using (h.run_quiet ds).1
  | append_singleton es e ih =>
    rw [line_concat, run_append]
    exact (ih.run_event e).1

/-- Behind events that arm it again, the receiver waits for a delimiter with no packet open. -/
theorem run_line_of_rearms (h : Silent s) (hs : s.fsmState = .waitForSfd) (ds : List DiBit)
    {es : List Event} (hes : ∀ e ∈ es, Rearms e.dibits) :
    (run step s (line ds es)).fsmState = .waitForSfd ∧
      openPacket (collect step shown s (line ds es)) = [] := by
  induction es using List.reverseRecOn with
  | nil =>
    obtain ⟨-, hrun, hshown⟩ := h.run_quiet ds
    simp [line, hrun, hs, hshown]
  | append_singleton es e ih =>
    obtain ⟨hwait, hopen⟩ := ih fun e' he' => hes e' (List.mem_append_left _ he')
    obtain ⟨-, hfinal, hout⟩ := (silent_run_line h ds es).run_event e
    rw [hwait] at hfinal hout
    rw [(finalState_eq_waitForSfd_iff _).mpr (hes e (by simp))] at hfinal
    rw [line_concat, run_append, collect_append, hout]
    refine ⟨hfinal, Decoder.openPacket_emit (fun _ => hopen) ?_⟩
    exact (finalState_eq_waitForSfd_iff _).mpr (hes e (by simp))

end Events

/-- **When events are independent**: in every run behind a reset they are so exactly when every
event but the last one arms the receiver again. -/
theorem independent_iff {s : State} (hs : AfterReset s) (ds : List DiBit) (es : List Event) :
    Independent s ds es ↔ ∀ e ∈ es.dropLast, Rearms e.dibits := by
  obtain ⟨hsilent, hwait⟩ := silent_afterReset hs
  constructor
  · intro hind e he
    obtain ⟨before, after, hsplit⟩ := List.append_of_mem he
    have hne : es ≠ [] := by
      rintro rfl
      simp at he
    have hes : es = before ++ e :: (after ++ [es.getLast hne]) := by
      rw [← List.cons_append, ← List.append_assoc, ← hsplit, List.dropLast_append_getLast]
    obtain ⟨e', after', hcons⟩ : ∃ e' after', after ++ [es.getLast hne] = e' :: after' := by
      cases after <;> simp
    rw [hcons] at hes
    -- the receiver waits both before `e` and before the event behind it
    have h₁ := (hind before e _ hes).1
    have h₂ := (hind (before ++ [e]) e' after' (by simp [hes])).1
    rw [line_concat, run_append, ((silent_run_line hsilent ds before).run_event e).2.1, h₁] at h₂
    exact (finalState_eq_waitForSfd_iff _).mp h₂
  · intro hrearms before e after hes
    have hbefore : ∀ e' ∈ before, Rearms e'.dibits := by
      intro e' he'
      apply hrearms e'
      rw [hes, List.dropLast_append_of_ne_nil (List.cons_ne_nil _ _)]
      exact List.mem_append_left _ he'
    obtain ⟨h₁, h₂⟩ := run_line_of_rearms hsilent hwait ds hbefore
    refine ⟨h₁, h₂, fun s' hs' => ?_⟩
    obtain ⟨hsilent', hwait'⟩ := silent_afterReset hs'
    rw [((silent_run_line hsilent ds before).run_event e).2.2, (hsilent'.run_event e).2.2, h₁,
      hwait']

/-- A receiver that has been reset. -/
def cleared : State :=
  step ⟨false, 0, false, 0, 0, false, false, 0, false, false, .waitForSfd, 0, false, false⟩
    ⟨true, false, 0⟩

theorem afterReset_cleared : AfterReset cleared := ⟨_, ⟨true, false, 0⟩, rfl, rfl, rfl⟩

/-- An event with the shortest gap behind it. -/
def shortEvent (ds : List DiBit) : Event := ⟨ds, List.replicate 8 0, by decide⟩

/-- An event without a delimiter, then two with a delimiter and the byte `0x12`. -/
theorem independent_three : Independent cleared [0]
    [shortEvent [0, 1, 1, 1, 1, 2], shortEvent [0, 1, 1, 1, 3, 2, 0, 1, 0],
      shortEvent [0, 1, 1, 1, 3, 2, 0, 1, 0]] :=
  (independent_iff afterReset_cleared _ _).mpr (by decide)

/-- An event that is cut inside a byte, and one that ends with the delimiter, are joined with the
event behind them. -/
theorem not_independent : AfterReset cleared ∧
    ¬ Independent cleared [0]
      [shortEvent [0, 1, 1, 1, 3, 2], shortEvent [0, 1, 1, 1, 3, 2, 0, 1, 0]] ∧
    ¬ Independent cleared [0]
      [shortEvent [0, 1, 1, 1, 3], shortEvent [0, 1, 1, 1, 3, 2, 0, 1, 0]] := by
  refine ⟨afterReset_cleared, fun h => ?_, fun h => ?_⟩
  · have hwait := (h [shortEvent [0, 1, 1, 1, 3, 2]] _ [] rfl).1
    exact absurd hwait (by decide)
  · have hwait := (h [shortEvent [0, 1, 1, 1, 3]] _ [] rfl).1
    exact absurd hwait (by decide)

end RmiiEthernet.RmiiMacRx
