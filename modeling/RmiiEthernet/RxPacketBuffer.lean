import RmiiEthernet.Sync.Packet
import RmiiEthernet.Sync.Ring

/-!
# The receive packet buffer

`rx_packet_buffer` stores the words of a packet as they arrive and shows them only once the
packet is complete and good. A packet is bad when `tuser` is set on its last beat; the write
pointer is then wound back to the start of the packet.

The read side falls through: whenever it reads, it also fetches the next word, and it does so
when the last word of the last stored packet is shown too. If another packet is half written at
that moment, its first word leaves the memory before the packet is known to be good
(`fetchesOpenPacket`), and winding the write pointer back does not bring the read pointer back.
The counter of stored packets is as wide as an address, so it can wrap (`countWraps`).
`owes_step` and `owes_run` say what the buffer does as long as neither happens.

The words are of any type `α`, the depth is `2 ^ D`. The source's `m_axis_tready_in` is read
nowhere in the architecture and has no counterpart here.
-/

namespace RmiiEthernet.RxPacketBuffer

open Sync

variable {D : ℕ} {α : Type*}

/-! ## The circuit -/

/-- The input ports in one cycle. -/
structure Inputs (α : Type*) where
  reset : Bool := false
  sAxisTdata : α
  sAxisTuser : Bool := false
  sAxisTvalid : Bool := true
  sAxisTlast : Bool := false

/-- The registers. A word of the memory is a data word and its `tlast` bit. -/
structure State (D : ℕ) (α : Type*) where
  ram : BitVec D → α × Bool
  readPointer : BitVec (D + 1)
  writePointer : BitVec (D + 1)
  packetLengthCounter : BitVec D
  fifoDout : α × Bool
  outputValidR : Bool
  goodPacketsRemaining : BitVec D
  droppedPacketsCountU : BitVec 16
  overflowed : Bool

namespace State

variable (s : State D α) (i : Inputs α)

/-- `read_address`: the pointer without its top bit. -/
def readAddress : BitVec D := s.readPointer.setWidth D

/-- `write_address`: the pointer without its top bit. -/
def writeAddress : BitVec D := s.writePointer.setWidth D

/-- The pointers are equal, the top bits included. -/
def emptySig : Bool := s.writePointer == s.readPointer

/-- The addresses are equal, the top bits are not. -/
def fullSig : Bool :=
  s.readAddress == s.writeAddress && s.readPointer.getLsbD D != s.writePointer.getLsbD D

/-- A good packet is left to read. -/
def readPacket : Bool := s.goodPacketsRemaining != 0

end State

/-- The last word of a good packet arrives. -/
def packetGood (i : Inputs α) : Bool := i.sAxisTlast && i.sAxisTvalid && !i.sAxisTuser

/-- The last word of a bad packet arrives. -/
def packetBad (i : Inputs α) : Bool := i.sAxisTlast && i.sAxisTvalid && i.sAxisTuser

/-- `fwft_read`: a good packet is left to read, or one just ends. -/
def fwftRead (s : State D α) (i : Inputs α) : Bool := s.readPacket || packetGood i

/-- `m_axis_tvalid_out`. -/
def mAxisTvalid (s : State D α) (i : Inputs α) : Bool := fwftRead s i && s.outputValidR

/-- One clock edge. -/
def step (s : State D α) (i : Inputs α) : State D α where
  -- p_overflow
  overflowed := !i.reset && (i.sAxisTvalid && s.fullSig || s.overflowed)
  -- p_write
  ram :=
    if i.sAxisTvalid && !s.fullSig then
      write s.ram s.writeAddress (i.sAxisTdata, i.sAxisTlast)
    else s.ram
  writePointer :=
    if i.reset then 0
    else if i.sAxisTvalid && !s.fullSig then
      if i.sAxisTlast && i.sAxisTuser then
        s.writePointer - s.packetLengthCounter.setWidth (D + 1)
      else s.writePointer + 1
    else s.writePointer
  packetLengthCounter :=
    if i.reset then 0
    else if i.sAxisTvalid && !s.fullSig then
      if i.sAxisTlast then 0 else s.packetLengthCounter + 1
    else s.packetLengthCounter
  droppedPacketsCountU :=
    if i.reset then 0
    else if i.sAxisTvalid && !s.fullSig && i.sAxisTlast && i.sAxisTuser then
      s.droppedPacketsCountU + 1
    else s.droppedPacketsCountU
  -- p_read
  readPointer :=
    if i.reset then 0
    else if fwftRead s i && !s.emptySig then s.readPointer + 1
    else s.readPointer
  -- p_fwft
  fifoDout := if fwftRead s i then s.ram s.readAddress else s.fifoDout
  outputValidR := !i.reset && if fwftRead s i then !s.emptySig else s.outputValidR
  -- the packets waiting to be read out
  goodPacketsRemaining :=
    if i.reset then 0
    else if packetGood i && (!s.fifoDout.2 || !s.outputValidR) then s.goodPacketsRemaining + 1
    else if !packetGood i && (s.fifoDout.2 && s.outputValidR) then s.goodPacketsRemaining - 1
    else s.goodPacketsRemaining

/-- A state the reset leads to. -/
def AfterReset (s : State D α) : Prop := ∃ s₀ i, i.reset = true ∧ s = step s₀ i

/-! ## What the buffer is for -/

/-- The beat shown in a cycle. -/
def shown (s : State D α) (i : Inputs α) : List (α × Bool) :=
  if mAxisTvalid s i then [s.fifoDout] else []

/-- The beat that arrives in a cycle: a data word with its `tuser` bit, and `tlast`. -/
def arrived (_ : State D α) (i : Inputs α) : List ((α × Bool) × Bool) :=
  if i.sAxisTvalid then [((i.sAxisTdata, i.sAxisTuser), i.sAxisTlast)] else []

/-- A packet is bad when `tuser` is set on its last word. -/
def isBad (p : List (α × Bool)) : Bool := p.getLast?.any Prod.snd

/-- The beats that should come of a packet. -/
def goodBeats (p : List (α × Bool)) : List (α × Bool) :=
  if isBad p then [] else beats (p.map Prod.fst)

/-- The cycle brings no reset and no overflow. -/
def Fits (s : State D α) (i : Inputs α) : Prop :=
  i.reset = false ∧ ¬ (i.sAxisTvalid = true ∧ s.fullSig = true)

instance (s : State D α) (i : Inputs α) : Decidable (Fits s i) :=
  inferInstanceAs (Decidable (_ ∧ _))

/-- After this cycle the read side holds a word of the packet in progress: it fetched one
earlier, or it shows the last word of the last stored packet and fetches the next word now. -/
def fetchesOpenPacket (s : State D α) : Bool :=
  s.outputValidR && (s.goodPacketsRemaining == 0 ||
    s.goodPacketsRemaining == 1 && s.fifoDout.2 && !s.emptySig)

/-- The counter of stored packets goes from its largest value to zero in this cycle. -/
def countWraps (s : State D α) (i : Inputs α) : Bool :=
  packetGood i && (!s.fifoDout.2 || !s.outputValidR) &&
    s.goodPacketsRemaining == BitVec.allOnes D

/-- No bad packet ends while the read side holds one of its words, and the counter of stored
packets does not wrap. -/
def Safe (s : State D α) (i : Inputs α) : Prop :=
  ¬ (packetBad i = true ∧ fetchesOpenPacket s = true) ∧ countWraps s i = false

instance (s : State D α) (i : Inputs α) : Decidable (Safe s i) :=
  inferInstanceAs (Decidable (_ ∧ _))

/-! ## The invariant -/

/-- The word in the output register, if it is valid. -/
def held (s : State D α) : List (α × Bool) := if s.outputValidR then [s.fifoDout] else []

/-- `W` is what stands in the memory between the two pointers. -/
structure Stores (s : State D α) (W : List (α × Bool)) : Prop where
  window : Window s.ram s.readAddress W
  pointers : s.writePointer = s.readPointer + BitVec.ofNat (D + 1) W.length
  fits : W.length ≤ 2 ^ D

/-- `p` are the beats of good packets that are still to be shown, `g` the words of the packet in
progress. The register and the memory hold them in this order, so the word in the register may
be one of `g`. -/
structure Owes (s : State D α) (g : List (α × Bool)) (p : List (α × Bool)) : Prop where
  content : ∃ W, Stores s W ∧ held s ++ W = p ++ g.map fun x => (x.1, false)
  remaining : s.goodPacketsRemaining.toNat = p.countP Prod.snd
  endsPacket : ∀ x ∈ p.getLast?, x.2 = true
  length : s.packetLengthCounter = BitVec.ofNat D g.length

variable {s : State D α} {i : Inputs α} {W g p : List (α × Bool)}

theorem Stores.empty_iff (h : Stores s W) : s.emptySig = true ↔ W = [] := by
  rw [State.emptySig, beq_iff_eq, h.pointers, ptr_eq_iff _ h.fits, List.length_eq_zero_iff]

theorem Stores.full_iff (h : Stores s W) : s.fullSig = true ↔ W.length = 2 ^ D := by
  rw [State.fullSig, Bool.and_eq_true, beq_iff_eq, bne_iff_ne, State.readAddress,
    State.writeAddress, h.pointers, ptr_full_iff _ h.fits]

theorem shown_eq (s : State D α) (i : Inputs α) :
    shown s i = if fwftRead s i then held s else [] := by
  unfold shown mAxisTvalid held
  cases fwftRead s i <;> simp

/-- The read side moves words from the memory to the output register and from there to the
output, and keeps their order. -/
theorem Stores.read (h : Stores s W) (hr : i.reset = false) :
    ∃ W₁, shown s i ++ (held (step s i) ++ W₁) = held s ++ W ∧
      Window s.ram (step s i).readAddress W₁ ∧
      s.writePointer = (step s i).readPointer + BitVec.ofNat (D + 1) W₁.length ∧
      W₁.length ≤ W.length := by
  rw [shown_eq]
  cases hf : fwftRead s i
  · refine ⟨W, ?_, ?_, ?_, le_rfl⟩
    · simp [held, step, hf, hr]
    · simpa [State.readAddress, step, hf, hr] using h.window
    · simpa [step, hf, hr] using h.pointers
  · have he := h.empty_iff
    cases W with
    | nil =>
      have he : s.emptySig = true := he.mpr rfl
      refine ⟨[], ?_, trivial, ?_, le_rfl⟩
      · simp [held, step, hf, hr, he]
      · simpa [step, hf, hr, he] using h.pointers
    | cons x W =>
      have he : s.emptySig = false := by simpa using he
      refine ⟨W, ?_, ?_, ?_, by simp⟩
      · simp [held, step, hf, hr, he, h.window.1]
      · have hw : Window s.ram ((s.readPointer + 1).setWidth D) W := by
          rw [setWidth_add_one]
          exact h.window.2
        simpa [State.readAddress, step, hf, hr, he] using hw
      · have hp := h.pointers
        rw [List.length_cons, add_ofNat_succ] at hp
        simpa [step, hf, hr, he] using hp

/-- The write side puts an arriving word right behind the stored ones. -/
theorem Stores.write (h : Stores s W) (hv : i.sAxisTvalid = true) (hfull : s.fullSig = false)
    {W₁ : List (α × Bool)} (hwin : Window s.ram (step s i).readAddress W₁)
    (hptr : s.writePointer = (step s i).readPointer + BitVec.ofNat (D + 1) W₁.length)
    (hle : W₁.length ≤ W.length) :
    W₁.length < 2 ^ D ∧
      Window (step s i).ram (step s i).readAddress (W₁ ++ [(i.sAxisTdata, i.sAxisTlast)]) := by
  have hlt : W₁.length < 2 ^ D :=
    hle.trans_lt (lt_of_le_of_ne h.fits fun e => by simp [h.full_iff.mpr e] at hfull)
  refine ⟨hlt, ?_⟩
  have hram : (step s i).ram = Sync.write s.ram
      ((step s i).readAddress + BitVec.ofNat D W₁.length) (i.sAxisTdata, i.sAxisTlast) := by
    have ha : s.writeAddress = (step s i).readAddress + BitVec.ofNat D W₁.length := by
      rw [State.writeAddress, hptr, setWidth_add_ofNat]
      rfl
    rw [← ha]
    simp [step, hv, hfull]
  rw [hram]
  exact hwin.push _ hlt

/-! ## One cycle -/

/-- A marked word in the output register belongs to a stored packet. -/
theorem Owes.held_last (h : Owes s g p) (hv : s.outputValidR = true) (hl : s.fifoDout.2 = true) :
    ∃ p₁, p = s.fifoDout :: p₁ := by
  obtain ⟨W, -, e⟩ := h.content
  cases p with
  | nil =>
    cases g with
    | nil => simp [held, hv] at e
    | cons x g =>
      simp only [held, hv, if_true, List.nil_append, List.map_cons, List.cons_append,
        List.cons.injEq] at e
      simp [e.1] at hl
  | cons x p₁ =>
    simp only [held, hv, if_true, List.nil_append, List.cons_append, List.cons.injEq] at e
    exact ⟨p₁, by rw [e.1]⟩

theorem Owes.readPacket_iff (h : Owes s g p) : s.readPacket = true ↔ p ≠ [] := by
  have hz : s.goodPacketsRemaining = 0 ↔ p.countP Prod.snd = 0 := by
    rw [← h.remaining, BitVec.toNat_eq]
    rfl
  rw [State.readPacket, bne_iff_ne, Ne, hz, not_iff_not]
  constructor
  · intro hc
    rcases List.eq_nil_or_concat p with rfl | ⟨q, x, rfl⟩
    · rfl
    · have hx : x.2 = true := h.endsPacket x (by simp)
      simp [hx] at hc
  · rintro rfl; rfl

/-- What is owed, as it stands in the register and the memory once the read side has moved, and
where an arriving word goes. -/
theorem Owes.read (h : Owes s g p) (hr : i.reset = false) :
    ∃ W₁, shown s i ++ (held (step s i) ++ W₁) = p ++ g.map (fun x => (x.1, false)) ∧
      Window s.ram (step s i).readAddress W₁ ∧
      s.writePointer = (step s i).readPointer + BitVec.ofNat (D + 1) W₁.length ∧
      W₁.length ≤ 2 ^ D ∧
      (i.sAxisTvalid = true → s.fullSig = false → W₁.length < 2 ^ D ∧
        Window (step s i).ram (step s i).readAddress
          (W₁ ++ [(i.sAxisTdata, i.sAxisTlast)])) := by
  obtain ⟨W, hW, e⟩ := h.content
  obtain ⟨W₁, e₁, hwin, hptr, hle⟩ := hW.read hr
  exact ⟨W₁, e₁.trans e, hwin, hptr, hle.trans hW.fits,
    fun hv hfull => hW.write hv hfull hwin hptr hle⟩

/-- A word that is not marked is not counted. -/
theorem countP_shown_eq_zero (hl : (s.fifoDout.2 && s.outputValidR) = false) :
    (shown s i).countP Prod.snd = 0 := by
  rw [List.countP_eq_zero]
  intro x hx
  rw [shown, mAxisTvalid] at hx
  split at hx
  · simp_all
  · simp at hx

/-- Unless a packet is completed in this very cycle, what is shown is owed. -/
theorem Owes.shown_prefix (h : Owes s g p) (hg : packetGood i = false) :
    ∃ p₁, p = shown s i ++ p₁ := by
  rw [shown_eq]
  cases hf : fwftRead s i
  · exact ⟨p, rfl⟩
  · have hp : p ≠ [] := h.readPacket_iff.mp (by simpa [fwftRead, hg] using hf)
    obtain ⟨W, -, e⟩ := h.content
    cases hv : s.outputValidR
    · exact ⟨p, by simp [held, hv]⟩
    · obtain ⟨x, p₁, rfl⟩ := List.exists_cons_of_ne_nil hp
      simp only [held, hv, if_true, List.cons_append, List.nil_append, List.cons.injEq] at e
      exact ⟨p₁, by simp [held, hv, e.1]⟩

/-- The counter follows the marked words still to be shown when no packet is completed. -/
theorem Owes.remaining_step {p₁ : List (α × Bool)} (h : Owes s g p) (hr : i.reset = false)
    (hg : packetGood i = false) (hp : p = shown s i ++ p₁) :
    (step s i).goodPacketsRemaining.toNat = p₁.countP Prod.snd := by
  have hrem := h.remaining
  by_cases hl : (s.fifoDout.2 && s.outputValidR) = true
  · obtain ⟨hl2, hv⟩ := Bool.and_eq_true_iff.mp hl
    obtain ⟨p₂, hp₂⟩ := h.held_last hv hl2
    have hf : fwftRead s i = true := by
      simp [fwftRead, h.readPacket_iff.mpr (by simp [hp₂])]
    have hc : p.countP Prod.snd = p₁.countP Prod.snd + 1 := by
      rw [hp]
      simp [shown_eq, hf, held, hv, hl2, Nat.add_comm]
    have hstep : (step s i).goodPacketsRemaining = s.goodPacketsRemaining - 1 := by
      simp [step, hr, hg, hl2, hv]
    rw [hstep, toNat_sub_one_of_eq (hrem.trans hc)]
  · have hstep : (step s i).goodPacketsRemaining = s.goodPacketsRemaining := by
      simp only [Bool.not_eq_true] at hl
      simp [step, hr, hg, hl]
    have hzero : (shown s i).countP Prod.snd = 0 := countP_shown_eq_zero (by simpa using hl)
    rw [hstep, hrem, hp, List.countP_append, hzero, Nat.zero_add]

theorem endsPacket_suffix {q p₁ : List (α × Bool)} (h : ∀ x ∈ (q ++ p₁).getLast?, x.2 = true) :
    ∀ x ∈ p₁.getLast?, x.2 = true := by
  intro x hx
  apply h x
  rw [Option.mem_def] at hx ⊢
  rw [List.getLast?_append, hx]
  rfl

/-- A cycle in which nothing arrives. -/
theorem Owes.step_idle (h : Owes s g p) (hr : i.reset = false) (hv : i.sAxisTvalid = false) :
    ∃ p₁, Owes (step s i) g p₁ ∧ p = shown s i ++ p₁ := by
  have hg : packetGood i = false := by simp [packetGood, hv]
  obtain ⟨p₁, hp⟩ := h.shown_prefix hg
  obtain ⟨W₁, e₁, hwin, hptr, hfits, -⟩ := h.read hr
  refine ⟨p₁, ⟨⟨W₁, ⟨?_, ?_, hfits⟩, ?_⟩, h.remaining_step hr hg hp, ?_, ?_⟩, hp⟩
  · simpa [step, hv] using hwin
  · rw [← hptr]
    simp [step, hr, hv]
  · rw [hp, List.append_assoc] at e₁
    exact List.append_cancel_left e₁
  · exact endsPacket_suffix (hp ▸ h.endsPacket)
  · simpa [step, hr, hv] using h.length

/-- A cycle in which a word arrives that does not end its packet. -/
theorem Owes.step_word (h : Owes s g p) (hfit : Fits s i) (hv : i.sAxisTvalid = true)
    (hl : i.sAxisTlast = false) :
    ∃ p₁, Owes (step s i) (g ++ [(i.sAxisTdata, i.sAxisTuser)]) p₁ ∧ p = shown s i ++ p₁ := by
  obtain ⟨hr, hfull⟩ := hfit
  have hfull : s.fullSig = false := by simpa [hv] using hfull
  have hg : packetGood i = false := by simp [packetGood, hl]
  obtain ⟨p₁, hp⟩ := h.shown_prefix hg
  obtain ⟨W₁, e₁, -, hptr, -, hwrite⟩ := h.read hr
  obtain ⟨hlt, hwin'⟩ := hwrite hv hfull
  refine ⟨p₁, ⟨⟨W₁ ++ [(i.sAxisTdata, i.sAxisTlast)], ⟨hwin', ?_, by simp; omega⟩, ?_⟩,
    h.remaining_step hr hg hp, endsPacket_suffix (hp ▸ h.endsPacket), ?_⟩, hp⟩
  · rw [List.length_append, List.length_singleton, BitVec.ofNat_add, ← BitVec.add_assoc, ← hptr]
    simp [step, hr, hv, hfull, hl]
  · rw [hp, List.append_assoc] at e₁
    rw [← List.append_assoc, List.append_cancel_left e₁, hl]
    simp
  · have hlen := h.length
    simp [step, hr, hv, hfull, hl, hlen, BitVec.ofNat_add]

/-- A cycle in which the last word of a good packet arrives. -/
theorem Owes.step_good (h : Owes s g p) (hfit : Fits s i) (hsafe : Safe s i)
    (hv : i.sAxisTvalid = true) (hl : i.sAxisTlast = true) (hu : i.sAxisTuser = false) :
    ∃ p₁, Owes (step s i) [] p₁ ∧
      p ++ (g.map (fun x => (x.1, false)) ++ [(i.sAxisTdata, true)]) = shown s i ++ p₁ := by
  obtain ⟨hr, hfull⟩ := hfit
  have hfull : s.fullSig = false := by simpa [hv] using hfull
  have hg : packetGood i = true := by simp [packetGood, hl, hv, hu]
  have hf : fwftRead s i = true := by simp [fwftRead, hg]
  obtain ⟨W₁, e₁, -, hptr, -, hwrite⟩ := h.read hr
  obtain ⟨hlt, hwin'⟩ := hwrite hv hfull
  have htotal : p ++ (g.map (fun x => (x.1, false)) ++ [(i.sAxisTdata, true)]) =
      shown s i ++ (held (step s i) ++ (W₁ ++ [(i.sAxisTdata, true)])) := by
    rw [← List.append_assoc, ← e₁]
    simp
  refine ⟨held (step s i) ++ (W₁ ++ [(i.sAxisTdata, true)]),
    ⟨⟨W₁ ++ [(i.sAxisTdata, true)], ⟨by simpa [hl] using hwin', ?_, by simp; omega⟩, by simp⟩,
      ?_, ?_, ?_⟩, htotal⟩
  · rw [List.length_append, List.length_singleton, BitVec.ofNat_add, ← BitVec.add_assoc, ← hptr]
    simp [step, hr, hv, hfull, hu]
  · -- what is counted: one packet more, and one less if the word shown is a last one
    have hc := congrArg (List.countP Prod.snd) htotal
    rw [List.countP_append, List.countP_append, List.countP_append, List.countP_map] at hc
    have hg0 : List.countP (Prod.snd ∘ fun x : α × Bool => (x.1, false)) g = 0 := by
      simp [List.countP_eq_zero]
    have hone : [((i.sAxisTdata, true) : α × Bool)].countP Prod.snd = 1 := by simp
    rw [hg0, hone, ← h.remaining] at hc
    by_cases hlast : (s.fifoDout.2 && s.outputValidR) = true
    · obtain ⟨hl2, hv2⟩ := Bool.and_eq_true_iff.mp hlast
      have hs : (shown s i).countP Prod.snd = 1 := by simp [shown_eq, hf, held, hv2, hl2]
      have hstep : (step s i).goodPacketsRemaining = s.goodPacketsRemaining := by
        simp [step, hr, hg, hl2, hv2]
      rw [hstep]
      omega
    · have hn : (!s.fifoDout.2 || !s.outputValidR) = true := by
        revert hlast
        cases s.fifoDout.2 <;> cases s.outputValidR <;> simp
      have hs : (shown s i).countP Prod.snd = 0 := countP_shown_eq_zero (by simpa using hlast)
      have hstep : (step s i).goodPacketsRemaining = s.goodPacketsRemaining + 1 := by
        simp [step, hr, hg, hn]
      have hmax : s.goodPacketsRemaining ≠ BitVec.allOnes D := by
        have := hsafe.2
        simpa [countWraps, hg, hn] using this
      rw [hstep, toNat_add_one_of_ne hmax]
      omega
  · simp [← List.append_assoc]
  · simp [step, hr, hv, hfull, hl]

/-- If nothing is owed after a cycle and the output register is full, the read side has fetched a
word of the packet in progress. -/
theorem Owes.fetchesOpenPacket_of_held (h : Owes s g p) (hr : i.reset = false)
    (hg : packetGood i = false) (hp : p = shown s i) (hv : (step s i).outputValidR = true) :
    fetchesOpenPacket s = true := by
  have hrem := h.remaining
  rw [shown_eq] at hp
  cases hf : fwftRead s i
  · have hp : p = [] := by simpa [hf] using hp
    have hz : s.goodPacketsRemaining = 0 := BitVec.eq_of_toNat_eq (by simp [hrem, hp])
    have hv : s.outputValidR = true := by simpa [step, hf, hr] using hv
    simp [fetchesOpenPacket, hv, hz]
  · have hne : p ≠ [] := h.readPacket_iff.mp (by simpa [fwftRead, hg] using hf)
    have he : s.emptySig = false := by simpa [step, hf, hr] using hv
    cases hv : s.outputValidR
    · simp [hp, hf, held, hv] at hne
    · have hp : p = [s.fifoDout] := by simpa [hf, held, hv] using hp
      have hl : s.fifoDout.2 = true := h.endsPacket _ (by simp [hp])
      have hone : s.goodPacketsRemaining = 1 := by
        have h1 : s.goodPacketsRemaining.toNat = 1 := by simp [hrem, hp, hl]
        have hlt := s.goodPacketsRemaining.isLt
        apply BitVec.eq_of_toNat_eq
        change _ = (BitVec.ofNat D 1).toNat
        rw [BitVec.toNat_ofNat, Nat.mod_eq_of_lt (by omega), h1]
      simp [fetchesOpenPacket, hv, hone, hl, he]

/-- A cycle in which the last word of a bad packet arrives. The words of the packet must all
still be in the memory. -/
theorem Owes.step_bad (h : Owes s g p) (hfit : Fits s i) (hsafe : Safe s i)
    (hv : i.sAxisTvalid = true) (hl : i.sAxisTlast = true) (hu : i.sAxisTuser = true) :
    ∃ p₁, Owes (step s i) [] p₁ ∧ p = shown s i ++ p₁ := by
  obtain ⟨hr, hfull⟩ := hfit
  have hfull : s.fullSig = false := by simpa [hv] using hfull
  have hg : packetGood i = false := by simp [packetGood, hu]
  obtain ⟨p₁, hp⟩ := h.shown_prefix hg
  obtain ⟨W₁, e₁, -, hptr, -, hwrite⟩ := h.read hr
  obtain ⟨hlt, hwin'⟩ := hwrite hv hfull
  have e₂ : held (step s i) ++ W₁ = p₁ ++ g.map fun x => (x.1, false) := by
    rw [hp, List.append_assoc] at e₁
    exact List.append_cancel_left e₁
  obtain ⟨W₂, hW₂⟩ : ∃ W₂, p₁ = held (step s i) ++ W₂ := by
    cases hv' : (step s i).outputValidR with
    | false => exact ⟨p₁, by simp [held, hv']⟩
    | true =>
      cases p₁ with
      | nil =>
        have hfetch := h.fetchesOpenPacket_of_held hr hg (by simpa using hp) hv'
        exact absurd ⟨by simp [packetBad, hl, hv, hu], hfetch⟩ hsafe.1
      | cons x p₂ =>
        simp only [held, hv', if_true, List.cons_append, List.nil_append, List.cons.injEq] at e₂
        exact ⟨p₂, by simp [held, hv', e₂.1]⟩
  have hW₁ : W₁ = W₂ ++ g.map fun x => (x.1, false) := by
    rw [hW₂, List.append_assoc] at e₂
    exact List.append_cancel_left e₂
  refine ⟨p₁, ⟨⟨W₂, ⟨?_, ?_, ?_⟩, hW₂.symm.trans (by simp)⟩, h.remaining_step hr hg hp,
    endsPacket_suffix (hp ▸ h.endsPacket), by simp [step, hr, hv, hfull, hl]⟩, hp⟩
  · rw [hW₁, List.append_assoc, window_append] at hwin'
    exact hwin'.1
  · have hlen : g.length < 2 ^ D := by rw [hW₁] at hlt; simp at hlt; omega
    have hcount : (s.packetLengthCounter.setWidth (D + 1)) = BitVec.ofNat (D + 1) g.length := by
      rw [h.length, BitVec.setWidth_ofNat_of_le_of_lt (by omega) hlen]
    have hstep : (step s i).writePointer = s.writePointer - BitVec.ofNat (D + 1) g.length := by
      rw [← hcount]
      simp [step, hr, hv, hfull, hl, hu]
    rw [hstep, hptr, hW₁, List.length_append, List.length_map, BitVec.ofNat_add,
      ← BitVec.add_assoc, BitVec.add_sub_cancel]
  · rw [hW₁] at hlt
    simp at hlt
    omega

/-! ## Whole runs -/

/-- **One cycle** of the buffer against the packets it is given: what was owed, and what comes of
the packet that ends in this cycle, is what is shown and what is owed next. -/
theorem owes_step (s : State D α) (g p : List (α × Bool)) (i : Inputs α) (h : Owes s g p)
    (hok : Fits s i ∧ Safe s i) :
    ∃ p₁, Owes (step s i) (run cutStep g (arrived s i)) p₁ ∧
      p ++ collect cutStep (fun g b => (cutEmit g b).flatMap goodBeats) g (arrived s i) =
        shown s i ++ p₁ := by
  obtain ⟨hfit, hsafe⟩ := hok
  cases hv : i.sAxisTvalid
  · simpa [arrived, hv] using h.step_idle hfit.1 hv
  · cases hl : i.sAxisTlast
    · simpa [arrived, hv, hl, cutStep, cutEmit] using h.step_word hfit hv hl
    · cases hu : i.sAxisTuser
      · simpa [arrived, hv, hl, hu, cutStep, cutEmit, goodBeats, isBad, beats_concat,
          Function.comp_def] using h.step_good hfit hsafe hv hl hu
      · simpa [arrived, hv, hl, hu, cutStep, cutEmit, goodBeats, isBad] using
          h.step_bad hfit hsafe hv hl hu

theorem owes_afterReset (h : AfterReset s) : Owes s [] [] := by
  obtain ⟨s₀, i, hr, rfl⟩ := h
  refine ⟨⟨[], ⟨trivial, ?_, by simp⟩, ?_⟩, ?_, by simp, ?_⟩
  · simp [step, hr]
  · simp [held, step, hr]
  · simp [step, hr]
  · simp [step, hr]

/-- **Every run** of the buffer that stays safe: the beats of the good packets that arrived are
those that were shown, then those that are still owed. -/
theorem owes_run {is : List (Inputs α)} (h : AfterReset s)
    (hok : Always step (fun s i => Fits s i ∧ Safe s i) s is) :
    ∃ p, Owes (run step s is) (openPacket (collect step arrived s is)) p ∧
      (packets (collect step arrived s is)).flatMap goodBeats =
        collect step shown s is ++ p := by
  obtain ⟨p, hp, e⟩ := exists_pending owes_step (owes_afterReset h) hok
  rw [collect_flatMap] at e
  exact ⟨p, hp, by simpa [packets] using e⟩

/-- The drop counter counts the bad packets modulo `2 ^ 16`. -/
theorem droppedPacketsCountU_run {is : List (Inputs α)} (h : AfterReset s)
    (hok : Always step Fits s is) :
    (run step s is).droppedPacketsCountU =
      BitVec.ofNat 16 ((packets (collect step arrived s is)).filter isBad).length := by
  induction is using List.reverseRecOn with
  | nil =>
    obtain ⟨s₀, i, hr, rfl⟩ := h
    simp [step, hr]
  | append_singleton is i ih =>
    rw [always_append] at hok
    have ih := ih hok.1
    obtain ⟨hr, hfull⟩ : Fits (run step s is) i := hok.2.1
    rw [run_append, collect_append, run_cons, run_nil, collect_cons, collect_nil, List.append_nil]
    cases hv : i.sAxisTvalid
    · simpa [step, hr, hv, arrived] using ih
    · have hfull : (run step s is).fullSig = false := by simpa [hv] using hfull
      rw [arrived, hv, if_pos rfl, packets_concat]
      cases hl : i.sAxisTlast
      · simpa [step, hr, hv, hl] using ih
      · cases hu : i.sAxisTuser
        · simpa [step, hr, hu, isBad] using ih
        · simp [step, hr, hv, hl, hu, hfull, isBad, ih, BitVec.ofNat_add]

/-- What the buffer promises of a run: it shows the beats of the good packets in order and nothing
else, has shown all of them whenever no stored packet remains and none is in progress, shows no
word of a bad packet, and counts the bad packets. -/
def Delivers (s : State D α) (is : List (Inputs α)) : Prop :=
  let ps := packets (collect step arrived s is)
  collect step shown s is <+: ps.flatMap goodBeats ∧
    ((run step s is).goodPacketsRemaining = 0 → openPacket (collect step arrived s is) = [] →
      collect step shown s is = ps.flatMap goodBeats) ∧
    (∀ b ∈ collect step shown s is, ∃ p ∈ ps, isBad p = false ∧ b ∈ beats (p.map Prod.fst)) ∧
    (run step s is).droppedPacketsCountU = BitVec.ofNat 16 (ps.filter isBad).length

instance [DecidableEq α] (s : State D α) (is : List (Inputs α)) : Decidable (Delivers s is) :=
  inferInstanceAs (Decidable (_ ∧ _ ∧ _ ∧ _))

/-- What is owed tells what has been delivered. -/
theorem Owes.delivers {s : State D α} {is : List (Inputs α)} {p : List (α × Bool)}
    (hp : Owes (run step s is) (openPacket (collect step arrived s is)) p)
    (e : (packets (collect step arrived s is)).flatMap goodBeats = collect step shown s is ++ p)
    (hdropped : (run step s is).droppedPacketsCountU =
      BitVec.ofNat 16 ((packets (collect step arrived s is)).filter isBad).length) :
    Delivers s is := by
  have hshown : collect step shown s is <+:
      (packets (collect step arrived s is)).flatMap goodBeats := ⟨p, e.symm⟩
  refine ⟨hshown, fun hz _ => ?_, fun b hb => ?_, hdropped⟩
  · have hnil : p = [] := by
      by_contra hne
      have hread := hp.readPacket_iff.mpr hne
      simp [State.readPacket, hz] at hread
    rw [e, hnil, List.append_nil]
  · obtain ⟨q, hq, hbq⟩ := List.mem_flatMap.mp (hshown.subset hb)
    unfold goodBeats at hbq
    split at hbq
    · cases hbq
    · next hgood => exact ⟨q, hq, by simpa using hgood, hbq⟩

/-- **The packet buffer delivers the good packets** in every run in which no overflow occurs, no
bad packet ends while the read side holds one of its words, and the packet counter does not
wrap. -/
theorem delivers_of_safe {s : State D α} {is : List (Inputs α)}
    (h : AfterReset s) (hfit : Always step Fits s is) (hsafe : Always step Safe s is) :
    Delivers s is := by
  obtain ⟨p, hp, e⟩ := owes_run h (hfit.and hsafe)
  exact hp.delivers e (droppedPacketsCountU_run h hfit)

/-- An empty buffer. -/
def cleared (D : ℕ) : State D (BitVec 8) :=
  step ⟨fun _ => (0, false), 0, 0, 0, (0, false), false, 0, 0, false⟩
    { reset := true, sAxisTdata := 0 }

theorem cleared_afterReset : AfterReset (cleared D) := ⟨_, _, rfl, rfl⟩

/-- A good packet, a bad packet that ends while the good one still waits, and a good packet. -/
theorem delivers_of_safe_two_good : Delivers (cleared 2)
    [⟨false, 0x11, false, true, false⟩, ⟨false, 0x12, false, true, true⟩,
      ⟨false, 0x21, true, true, true⟩, ⟨false, 0x31, false, true, true⟩] :=
  delivers_of_safe cleared_afterReset (by decide +kernel) (by decide +kernel)

/-- A good packet of two words, a bad one of three that starts while the good one is shown, and
a good one of one word. -/
def fetchedRun : List (Inputs (BitVec 8)) :=
  [⟨false, 0x11, false, true, false⟩, ⟨false, 0x12, false, true, true⟩,
    ⟨false, 0x21, false, true, false⟩, ⟨false, 0x22, false, true, false⟩,
    ⟨false, 0x23, true, true, true⟩, ⟨false, 0x31, false, true, true⟩]

/-- A good packet of four words and three good ones of one word, without a gap. -/
def wrappedRun : List (Inputs (BitVec 8)) :=
  [⟨false, 0x11, false, true, false⟩, ⟨false, 0x12, false, true, false⟩,
    ⟨false, 0x13, false, true, false⟩, ⟨false, 0x14, false, true, true⟩,
    ⟨false, 0x21, false, true, true⟩, ⟨false, 0x31, false, true, true⟩,
    ⟨false, 0x41, false, true, true⟩]

/-- **The promise fails** on a buffer of four rows, without an overflow. In the first run the
first word of the bad packet is fetched before the packet turns out to be bad, and is shown in
place of the next packet. In the second the two-bit packet counter wraps to zero and the buffer
takes itself for empty with packets stored. -/
theorem not_delivers : AfterReset (cleared 2) ∧
    (Always step Fits (cleared 2) fetchedRun ∧ ¬ Delivers (cleared 2) fetchedRun) ∧
    (Always step Fits (cleared 2) wrappedRun ∧ ¬ Delivers (cleared 2) wrappedRun) :=
  ⟨cleared_afterReset, by decide +kernel, by decide +kernel⟩

end RmiiEthernet.RxPacketBuffer
