import RmiiEthernet.Afifo.Pointers

/-!
# The asynchronous FIFO keeps the words in order

The invariant `Tracks` counts the writes and the reads of the memory with natural numbers. Every
register that holds a pointer holds the code of some count: the writer sees a read count that is
at most the true one, the reader a write count that is at most the true one, and the distance
between the true write count and the stale read count is at most the depth. The registered flags
err on the safe side of these counts.

`Owes` adds the words on their way: the memory between the two counts and, with `G_FWFT`, the
three stages behind it.
-/

namespace RmiiEthernet.Afifo

open Sync

variable {D : ℕ} {α : Type*}

/-! ## The flags -/

theorem ReadLogic.empty_iff {l : ReadLogic D} {en : Bool} {m n : ℕ}
    (hm : l.readAddrNext en = BitVec.ofNat (D + 1) m) (hmn : m ≤ n) (hn : n ≤ m + 2 ^ D) :
    (l.readPointerNext en == gray (BitVec.ofNat (D + 1) n)) = true ↔ m = n := by
  have h2 : 2 ^ (D + 1) = 2 ^ D * 2 := Nat.pow_succ 2 D
  have hpos := Nat.two_pow_pos D
  rw [beq_iff_eq, ReadLogic.readPointerNext, gray_inj, hm, ofNat_eq_ofNat_iff hmn (by omega)]

theorem WriteLogic.full_iff (hD : 1 ≤ D) {l : WriteLogic D} {en : Bool} {m n : ℕ}
    (hn : l.writeAddrNext en = BitVec.ofNat (D + 1) n) (hmn : m ≤ n) (hd : n ≤ m + 2 ^ D) :
    l.fullSig en (gray (BitVec.ofNat (D + 1) m)) = true ↔ n = m + 2 ^ D := by
  have h2 : 2 ^ (D + 1) = 2 ^ D * 2 := Nat.pow_succ 2 D
  have hpos := Nat.two_pow_pos D
  have e : BitVec.ofNat (D + 1) n - BitVec.ofNat (D + 1) m = BitVec.ofNat (D + 1) (n - m) := by
    rw [← Nat.add_sub_cancel' hmn, BitVec.ofNat_add, BitVec.add_comm, BitVec.add_sub_cancel,
      Nat.add_sub_cancel_left]
  rw [WriteLogic.fullSig_iff hD, hn, e, BitVec.toNat_ofNat, Nat.mod_eq_of_lt (by omega)]
  omega

/-! ## The invariant -/

/-- No reset is under way. -/
structure Quiet (s : State D α) : Prop where
  resetState : s.resetState = .idle
  resetToRead : s.resetToRead = false
  resetBusySig : s.resetBusySig = false
  resetToReadSync : s.resetToReadSync = ⟨false, false⟩

/-- `w` words have been written to the memory and `r` have been read from it; `W` are those in
between. The reader has seen `w₂` and is about to see `w₁` of the writes, the writer `r₂` and
`r₁` of the reads. -/
structure Tracks (s : State D α) (W : List α) (w w₁ w₂ r r₁ r₂ : ℕ) : Prop where
  writeLogic_addr : s.writeLogic.writeAddrR = BitVec.ofNat (D + 1) w
  writeLogic_pointer : s.writeLogic.writePointerR = gray (BitVec.ofNat (D + 1) w)
  readLogic_addr : s.readLogic.readAddrR = BitVec.ofNat (D + 1) r
  readLogic_pointer : s.readLogic.readPointerR = gray (BitVec.ofNat (D + 1) r)
  writePtrSync : s.writePtrSync =
    ⟨gray (BitVec.ofNat (D + 1) w₁), gray (BitVec.ofNat (D + 1) w₂)⟩
  readPtrSync : s.readPtrSync =
    ⟨gray (BitVec.ofNat (D + 1) r₁), gray (BitVec.ofNat (D + 1) r₂)⟩
  order : r₂ ≤ r₁ ∧ r₁ ≤ r ∧ r ≤ w₂ ∧ w₂ ≤ w₁ ∧ w₁ ≤ w ∧ w ≤ r₂ + 2 ^ D
  notEmpty : s.readLogic.emptyR = false → r < w₂
  notFull : s.writeLogic.fullR = false → w < r₂ + 2 ^ D
  window : Window s.memory (BitVec.ofNat D r) W
  length : r + W.length = w

variable {s : State D α} {W : List α} {w w₁ w₂ r r₁ r₂ : ℕ}

theorem Quiet.wrStep (h : Quiet s) (writeEn : Bool) (d : α) : Quiet (s.wrStep false writeEn d) := by
  obtain ⟨h1, h2, h3, h4⟩ := h
  constructor <;> simp [State.wrStep, State.resetStep, h1, h4]

theorem Quiet.rdStep [Zero α] (h : Quiet s) (gFwft readEn : Bool) :
    Quiet (s.rdStep gFwft readEn) := by
  obtain ⟨h1, h2, h3, h4⟩ := h
  constructor <;> simp [State.rdStep, BitSynchroniser.step, h1, h2, h3, h4]

/-- The part of `Tracks` that the read side rests on: nothing is said about the read pointers that
the writer sees. -/
structure Follows (s : State D α) (W : List α) (w w₁ w₂ r : ℕ) : Prop where
  writeLogic_addr : s.writeLogic.writeAddrR = BitVec.ofNat (D + 1) w
  writeLogic_pointer : s.writeLogic.writePointerR = gray (BitVec.ofNat (D + 1) w)
  readLogic_addr : s.readLogic.readAddrR = BitVec.ofNat (D + 1) r
  readLogic_pointer : s.readLogic.readPointerR = gray (BitVec.ofNat (D + 1) r)
  writePtrSync : s.writePtrSync =
    ⟨gray (BitVec.ofNat (D + 1) w₁), gray (BitVec.ofNat (D + 1) w₂)⟩
  order : r ≤ w₂ ∧ w₂ ≤ w₁ ∧ w₁ ≤ w ∧ w ≤ r + 2 ^ D
  notEmpty : s.readLogic.emptyR = false → r < w₂
  window : Window s.memory (BitVec.ofNat D r) W
  length : r + W.length = w

theorem Tracks.follows (h : Tracks s W w w₁ w₂ r r₁ r₂) : Follows s W w w₁ w₂ r where
  writeLogic_addr := h.writeLogic_addr
  writeLogic_pointer := h.writeLogic_pointer
  readLogic_addr := h.readLogic_addr
  readLogic_pointer := h.readLogic_pointer
  writePtrSync := h.writePtrSync
  order := by have := h.order; omega
  notEmpty := h.notEmpty
  window := h.window
  length := h.length

/-- The word that a write-clock edge puts into the memory. -/
def stored (s : State D α) (writeEn : Bool) (d : α) : List α :=
  if writeEn && !s.full then [d] else []

theorem stored_eq_nil_or (s : State D α) (writeEn : Bool) (d : α) :
    stored s writeEn d = [] ∨ stored s writeEn d = [d] := by
  unfold stored
  split <;> simp

/-- The write address follows the words stored. -/
theorem writeAddrNext_eq (h : s.writeLogic.writeAddrR = BitVec.ofNat (D + 1) w) (writeEn : Bool)
    (d : α) : s.writeLogic.writeAddrNext writeEn =
      BitVec.ofNat (D + 1) (w + (stored s writeEn d).length) := by
  rw [WriteLogic.writeAddrNext, h, stored, State.full, Bool.and_comm]
  cases writeEn <;> cases s.writeLogic.fullR <;> simp [BitVec.ofNat_add]

/-- The words in the memory, when there is room for the word stored. -/
theorem window_wrStep (h : s.writeLogic.writeAddrR = BitVec.ofNat (D + 1) w)
    (hwindow : Window s.memory (BitVec.ofNat D r) W) (hlen : r + W.length = w) (writeEn : Bool)
    (d : α) (hroom : stored s writeEn d ≠ [] → s.resetBusySig = false ∧ w < r + 2 ^ D) :
    Window (s.wrStep false writeEn d).memory (BitVec.ofNat D r) (W ++ stored s writeEn d) := by
  unfold stored at hroom ⊢
  split at hroom
  · next hen =>
    obtain ⟨hbusy, hlt⟩ := hroom (by simp)
    have haddr : s.writeLogic.writeAddrOut = BitVec.ofNat D r + BitVec.ofNat D W.length := by
      rw [WriteLogic.writeAddrOut, h, BitVec.setWidth_ofNat_of_le (by omega), ← BitVec.ofNat_add,
        hlen]
    have hmem : (s.wrStep false writeEn d).memory =
        write s.memory s.writeLogic.writeAddrOut d := by
      simp only [State.wrStep, State.writeEnWrClk, hbusy, hen]
      rfl
    rw [if_pos hen, hmem, haddr]
    exact hwindow.push d (by omega)
  · next hen =>
    have hmem : (s.wrStep false writeEn d).memory = s.memory := by
      simp only [State.wrStep, State.writeEnWrClk, hen]
      simp
    rw [if_neg hen, hmem, List.append_nil]
    exact hwindow

/-- An edge of the write clock, when there is room for the word stored. -/
theorem Follows.wrStep (h : Follows s W w w₁ w₂ r) (writeEn : Bool) (d : α)
    (hroom : stored s writeEn d ≠ [] → s.resetBusySig = false ∧ w < r + 2 ^ D) :
    Follows (s.wrStep false writeEn d) (W ++ stored s writeEn d)
      (w + (stored s writeEn d).length) w₁ w₂ r := by
  have hnext := writeAddrNext_eq h.writeLogic_addr writeEn d
  refine ⟨?_, ?_, h.readLogic_addr, h.readLogic_pointer, h.writePtrSync, ?_, h.notEmpty,
    window_wrStep h.writeLogic_addr h.window h.length writeEn d hroom, ?_⟩
  · simpa [State.wrStep, WriteLogic.step] using hnext
  · simp [State.wrStep, WriteLogic.step, WriteLogic.writePointerNext, hnext]
  · have hord := h.order
    rcases stored_eq_nil_or s writeEn d with hnil | hone
    · simpa [hnil] using hord
    · have hlt := (hroom (by simp [hone])).2
      rw [hone, List.length_singleton]
      omega
  · rw [List.length_append, ← h.length]
    omega

/-- **An edge of the write clock.** -/
theorem Tracks.wrStep (hD : 1 ≤ D) (h : Tracks s W w w₁ w₂ r r₁ r₂) (hq : Quiet s)
    (writeEn : Bool) (d : α) :
    Tracks (s.wrStep false writeEn d) (W ++ stored s writeEn d)
      (w + (stored s writeEn d).length) w₁ w₂ r r r₁ := by
  obtain ⟨ho₁, ho₂, ho₃, ho₄, ho₅, ho₆⟩ := h.order
  have hlt : s.writeLogic.fullR = false → w < r₂ + 2 ^ D := h.notFull
  have hnotFull : stored s writeEn d ≠ [] → s.writeLogic.fullR = false := by
    unfold stored State.full
    split <;> simp_all
  have hfollows := h.follows.wrStep writeEn d fun hne =>
    ⟨hq.resetBusySig, by have := hlt (hnotFull hne); omega⟩
  have hle : w + (stored s writeEn d).length ≤ r₂ + 2 ^ D := by
    rcases stored_eq_nil_or s writeEn d with hnil | hone
    · simpa [hnil] using ho₆
    · have := hlt (hnotFull (by simp [hone]))
      rw [hone, List.length_singleton]
      omega
  have hnext := writeAddrNext_eq h.writeLogic_addr writeEn d
  refine ⟨hfollows.writeLogic_addr, hfollows.writeLogic_pointer, h.readLogic_addr,
    h.readLogic_pointer, h.writePtrSync, ?_, by omega, h.notEmpty, ?_, hfollows.window,
    hfollows.length⟩
  · simp [State.wrStep, GreyPointerSync.step, h.readLogic_pointer, h.readPtrSync]
  · intro hf
    have hiff := WriteLogic.full_iff hD hnext (m := r₂) (by omega) hle
    have hne : s.writeLogic.fullSig writeEn (gray (BitVec.ofNat (D + 1) r₂)) = false := by
      simpa [State.wrStep, WriteLogic.step, h.readPtrSync] using hf
    rw [hne] at hiff
    simp only [Bool.false_eq_true, false_iff] at hiff
    omega

/-- The words a read-clock edge takes out of the memory. -/
def fetched (gFwft : Bool) (s : State D α) (readEn : Bool) : List α :=
  if s.readEnInternal gFwft readEn then [s.memory s.readLogic.readAddrOut] else []

theorem readEnInternal_notEmpty {gFwft readEn : Bool}
    (h : s.readEnInternal gFwft readEn = true) : s.readLogic.emptyR = false := by
  cases gFwft <;> simp_all [State.readEnInternal, FifoFwft.fifoReadEnSig, State.fifoEmpty]

theorem Quiet.readReset (h : Quiet s) : s.readReset = false := by
  rw [State.readReset, h.resetToReadSync]
  rfl

/-- The read side stays behind the write pointer that it sees. -/
theorem Follows.reads (h : Follows s W w w₁ w₂ r) (gFwft readEn : Bool) :
    r + (fetched gFwft s readEn).length ≤ w₂ := by
  have hord := h.order
  unfold fetched
  split
  · next hen =>
    have := h.notEmpty (readEnInternal_notEmpty hen)
    rw [List.length_singleton]
    omega
  · simpa using hord.1

/-- The read address follows the words fetched. -/
theorem Follows.readAddrNext_eq (h : Follows s W w w₁ w₂ r) (gFwft readEn : Bool) :
    s.readLogic.readAddrNext (s.readEnInternal gFwft readEn) =
      BitVec.ofNat (D + 1) (r + (fetched gFwft s readEn).length) := by
  rw [ReadLogic.readAddrNext, h.readLogic_addr, fetched]
  cases hen : s.readEnInternal gFwft readEn
  · simp
  · simp [readEnInternal_notEmpty hen, BitVec.ofNat_add]

/-- The read side is empty exactly when it has come up to the write pointer that it has seen. -/
theorem Follows.emptyR_rdStep_iff [Zero α] (h : Follows s W w w₁ w₂ r)
    (hreset : s.readReset = false) (gFwft readEn : Bool) :
    (s.rdStep gFwft readEn).readLogic.emptyR = true ↔
      r + (fetched gFwft s readEn).length = w₂ := by
  have hord := h.order
  have hle := h.reads gFwft readEn
  rw [← ReadLogic.empty_iff (h.readAddrNext_eq gFwft readEn) hle (by omega)]
  simp [State.rdStep, ReadLogic.step, hreset, h.writePtrSync]

theorem Follows.emptyR_rdStep [Zero α] (h : Follows s W w w₁ w₂ r) (hreset : s.readReset = false)
    (gFwft readEn : Bool) (he : (s.rdStep gFwft readEn).readLogic.emptyR = false) :
    r + (fetched gFwft s readEn).length < w₂ := by
  have hle := h.reads gFwft readEn
  refine lt_of_le_of_ne hle fun heq => ?_
  rw [(h.emptyR_rdStep_iff hreset gFwft readEn).mpr heq] at he
  cases he

/-- An edge of the read clock takes out the first word. -/
theorem Follows.rdStep [Zero α] (h : Follows s W w w₁ w₂ r) (hreset : s.readReset = false)
    (gFwft readEn : Bool) :
    ∃ W', W = fetched gFwft s readEn ++ W' ∧
      Follows (s.rdStep gFwft readEn) W' w w w₁ (r + (fetched gFwft s readEn).length) := by
  obtain ⟨ho₃, ho₄, ho₅, ho₆⟩ := h.order
  have hlen := h.length
  have haddr : s.readLogic.readAddrOut = BitVec.ofNat D r := by
    rw [ReadLogic.readAddrOut, h.readLogic_addr, BitVec.setWidth_ofNat_of_le (by omega)]
  obtain ⟨W', hW'⟩ : ∃ W', W = fetched gFwft s readEn ++ W' := by
    unfold fetched
    split
    · next hen =>
      have := h.notEmpty (readEnInternal_notEmpty hen)
      cases W with
      | nil => simp at hlen; omega
      | cons x W => exact ⟨W, by rw [haddr, h.window.1]; rfl⟩
    · exact ⟨W, rfl⟩
  have hnext := h.readAddrNext_eq gFwft readEn
  have hle := h.reads gFwft readEn
  refine ⟨W', hW', h.writeLogic_addr, h.writeLogic_pointer, ?_, ?_, ?_, ?_, ?_, ?_, ?_⟩
  · simpa [State.rdStep, ReadLogic.step, hreset] using hnext
  · simp [State.rdStep, ReadLogic.step, ReadLogic.readPointerNext, hreset, hnext]
  · simp [State.rdStep, GreyPointerSync.step, hreset, h.writeLogic_pointer, h.writePtrSync]
  · omega
  · intro he
    have := h.emptyR_rdStep hreset gFwft readEn he
    omega
  · have hwin := h.window
    rw [hW', window_append, ← BitVec.ofNat_add] at hwin
    exact hwin.2
  · rw [hW', List.length_append] at hlen
    omega

/-- **An edge of the read clock.** -/
theorem Tracks.rdStep [Zero α] (h : Tracks s W w w₁ w₂ r r₁ r₂) (hq : Quiet s)
    (gFwft readEn : Bool) :
    ∃ W', W = fetched gFwft s readEn ++ W' ∧
      Tracks (s.rdStep gFwft readEn) W' w w w₁ (r + (fetched gFwft s readEn).length) r₁ r₂ := by
  obtain ⟨W', hW', hf⟩ := h.follows.rdStep hq.readReset gFwft readEn
  have hord := h.order
  have hord' := hf.order
  exact ⟨W', hW', hf.writeLogic_addr, hf.writeLogic_pointer, hf.readLogic_addr,
    hf.readLogic_pointer, hf.writePtrSync, h.readPtrSync, by omega, hf.notEmpty, h.notFull,
    hf.window, hf.length⟩

/-! ## The words on their way -/

/-- The words in the three stages of `fifo_fwft`, oldest first. -/
def stages (s : State D α) : List α :=
  (if s.fwft.outputValid then [s.fwft.outputR] else []) ++
    ((if s.fwft.bufferValid then [s.fwft.bufferR] else []) ++
      if s.fwft.fifoValid then [s.doutB] else [])

/-- The three stages keep the order: the word taken out of the memory comes in behind, the word
delivered leaves in front. -/
theorem stages_rdStep [Zero α] (hreset : s.readReset = false) (readEn : Bool) :
    stages s ++ fetched true s readEn =
      delivered true s (.rd readEn) ++ stages (s.rdStep true readEn) := by
  have hen : s.readEnInternal true readEn =
      (!s.fifoEmpty && !(s.fwft.fifoValid && s.fwft.bufferValid && s.fwft.outputValid)) := by
    simp [State.readEnInternal, FifoFwft.fifoReadEnSig, hreset]
  -- the three valid bits, the reader's request and the empty flag decide everything
  cases h1 : s.fwft.fifoValid <;> cases h2 : s.fwft.bufferValid <;>
    cases h3 : s.fwft.outputValid <;> cases readEn <;> cases h4 : s.fifoEmpty <;>
    simp [stages, fetched, delivered, State.rdStep, State.empty, State.readData, FifoFwft.step,
      FifoFwft.updateBuffer, FifoFwft.updateOutput, FifoFwft.fifoReadEnSig, hen, hreset, h1, h2,
      h3, h4]

/-- The words behind the memory and in it, when the first of those in it is fetched. -/
theorem onWay_rdStep [Zero α] (hreset : s.readReset = false) (gFwft readEn : Bool)
    (W : List α) :
    (if gFwft then stages s else []) ++ (fetched gFwft s readEn ++ W) =
      delivered gFwft s (.rd readEn) ++
        ((if gFwft then stages (s.rdStep gFwft readEn) else []) ++ W) := by
  cases gFwft
  · -- without the three stages the word fetched is the word delivered
    have hd : delivered false s (.rd readEn) = fetched false s readEn := by
      cases readEn <;> cases h : s.fifoEmpty <;>
        simp [delivered, fetched, State.empty, State.readEnInternal, State.rdStep, State.readData,
          h]
    rw [hd]
    rfl
  · have hs := stages_rdStep hreset readEn
    rw [if_pos rfl, if_pos rfl, ← List.append_assoc, hs, List.append_assoc]

/-- `p` are the words accepted and not yet delivered. -/
def Owes (gFwft : Bool) (s : State D α) (_ : Unit) (p : List α) : Prop :=
  ∃ W w w₁ w₂ r r₁ r₂, Quiet s ∧ Tracks s W w w₁ w₂ r r₁ r₂ ∧
    p = (if gFwft then stages s else []) ++ W

theorem owes_step [Zero α] (hD : 1 ≤ D) (gFwft : Bool) (s : State D α) (g : Unit) (p : List α)
    (e : Edge α) (h : Owes gFwft s g p) (hr : NoReset s e) :
    ∃ p', Owes gFwft (step gFwft s e) (run (fun g _ => g) g (accepted s e)) p' ∧
      p ++ collect (fun g _ => g) (fun _ a => [a]) g (accepted s e) =
        delivered gFwft s e ++ p' := by
  obtain ⟨W, w, w₁, w₂, r, r₁, r₂, hq, ht, rfl⟩ := h
  cases e with
  | wr reset writeEn d =>
    obtain rfl : reset = false := hr
    refine ⟨_, ⟨_, _, _, _, _, _, _, hq.wrStep writeEn d, ht.wrStep hD hq writeEn d, rfl⟩, ?_⟩
    have hst : stages (s.wrStep false writeEn d) = stages s := rfl
    rw [collect_singleton, step, hst]
    simp [accepted, stored, delivered]
  | rd readEn =>
    obtain ⟨W', hW, ht'⟩ := ht.rdStep hq gFwft readEn
    refine ⟨_, ⟨_, _, _, _, _, _, _, hq.rdStep gFwft readEn, ht', rfl⟩, ?_⟩
    have hnone : accepted s (.rd readEn) = [] := rfl
    rw [hnone, collect_nil, List.append_nil, hW]
    exact onWay_rdStep hq.readReset gFwft readEn W'

theorem PowerUp.quiet (h : PowerUp s) : Quiet s :=
  ⟨h.resetState, h.resetToRead, h.resetBusySig, h.resetToReadSync⟩

theorem PowerUp.tracks (h : PowerUp s) : Tracks s [] 0 0 0 0 0 0 := by
  refine ⟨?_, ?_, ?_, ?_, ?_, ?_, by simp, ?_, ?_, trivial, rfl⟩
  · rw [h.writeLogic]; rfl
  · rw [h.writeLogic]; simp [gray]
  · rw [h.readLogic]; rfl
  · rw [h.readLogic]; simp [gray]
  · rw [h.writePtrSync]; simp [gray]
  · rw [h.readPtrSync]; simp [gray]
  · rw [h.readLogic]; simp
  · intro _
    have := Nat.two_pow_pos D
    omega

theorem owes_powerUp (gFwft : Bool) (h : PowerUp s) : Owes gFwft s () [] := by
  refine ⟨[], 0, 0, 0, 0, 0, 0, h.quiet, h.tracks, ?_⟩
  simp [stages, h.fifoValid, h.bufferValid, h.outputValid]

theorem length_stages_le (s : State D α) : (stages s).length ≤ 3 := by
  unfold stages
  split <;> split <;> split <;> simp

theorem Owes.length_le {gFwft : Bool} {p : List α} (h : Owes gFwft s () p) :
    p.length ≤ 2 ^ D + if gFwft then 3 else 0 := by
  obtain ⟨W, w, w₁, w₂, r, r₁, r₂, -, ht, rfl⟩ := h
  have hlen := ht.length
  have hord := ht.order
  have hst := length_stages_le s
  cases gFwft <;> simp <;> omega

/-! ## The rows of the memory -/

/-- Every row with a flag holds one of the words between the counts. -/
def FlagsTrack (x : State D α × (BitVec D → Bool)) : Prop :=
  ∃ W w w₁ w₂ r r₁ r₂, Quiet x.1 ∧ Tracks x.1 W w w₁ w₂ r r₁ r₂ ∧
    ∀ a, x.2 a = true → ∃ k, r ≤ k ∧ k < w ∧ a = BitVec.ofNat D k

theorem flagsTrack_step [Zero α] (hD : 1 ≤ D) (gFwft : Bool) (x : State D α × (BitVec D → Bool))
    (e : Edge α) (h : FlagsTrack x) (hr : NoReset x.1 e) :
    KeepsUnread x e ∧ FlagsTrack (flagged gFwft x e) := by
  obtain ⟨s, flag⟩ := x
  obtain ⟨W, w, w₁, w₂, r, r₁, r₂, hq, ht, hflag⟩ := h
  have hord := ht.order
  cases e with
  | wr reset writeEn d =>
    obtain rfl : reset = false := hr
    have haddr : s.writeLogic.writeAddrOut = BitVec.ofNat D w := by
      rw [WriteLogic.writeAddrOut, ht.writeLogic_addr, BitVec.setWidth_ofNat_of_le (by omega)]
    have hbusy : s.resetBusySig = false := hq.resetBusySig
    have hen : s.writeEnWrClk writeEn = (writeEn && !s.full) := by
      simp [State.writeEnWrClk, hbusy]
    refine ⟨fun hw => ?_, _, _, _, _, _, _, _, hq.wrStep writeEn d, ht.wrStep hD hq writeEn d,
      fun a ha => ?_⟩
    · by_contra hne
      obtain ⟨k, hrk, hkw, hk⟩ := hflag _ (by simpa using hne)
      have hlt := ht.notFull (by simp_all [State.full])
      rw [haddr, eq_comm, ofNat_eq_ofNat_iff hkw.le (by omega)] at hk
      omega
    · simp only [flagged, hen, stored] at ha ⊢
      split at ha
      · by_cases haw : a = BitVec.ofNat D w
        · exact ⟨w, by omega, by simp_all, haw⟩
        · rw [haddr, Function.update_of_ne haw] at ha
          obtain ⟨k, hk⟩ := hflag a ha
          exact ⟨k, hk.1, by omega, hk.2.2⟩
      · obtain ⟨k, hk⟩ := hflag a ha
        exact ⟨k, hk.1, by omega, hk.2.2⟩
  | rd readEn =>
    have haddr : s.readLogic.readAddrOut = BitVec.ofNat D r := by
      rw [ReadLogic.readAddrOut, ht.readLogic_addr, BitVec.setWidth_ofNat_of_le (by omega)]
    obtain ⟨W', -, ht'⟩ := ht.rdStep hq gFwft readEn
    refine ⟨trivial, _, _, _, _, _, _, _, hq.rdStep gFwft readEn, ht', fun a ha => ?_⟩
    simp only [flagged, fetched] at ha ⊢
    split at ha
    · by_cases har : a = BitVec.ofNat D r
      · simp [haddr, har] at ha
      · rw [haddr, Function.update_of_ne har] at ha
        obtain ⟨k, hrk, hkw, rfl⟩ := hflag a ha
        refine ⟨k, ?_, hkw, rfl⟩
        have hne : k ≠ r := fun e => har (by rw [e])
        simp_all; omega
    · obtain ⟨k, hk⟩ := hflag a ha
      exact ⟨k, by simp_all, hk.2⟩

/-! ## Every interleaving -/

/-- **The asynchronous FIFO is a queue** for every interleaving of the two clocks without a
reset: the words delivered are the first of the words accepted, in order; no row of the memory is
written before its word has been read; and no more words are on their way than the memory and the
three stages of `fifo_fwft` hold. -/
theorem delivered_prefix_accepted [Zero α] (hD : 2 ≤ D) (gFwft : Bool) {s : State D α}
    (h : PowerUp s) {es : List (Edge α)} (hr : Always (step gFwft) NoReset s es) :
    collect (step gFwft) (delivered gFwft) s es <+: collect (step gFwft) accepted s es ∧
      Always (flagged gFwft) KeepsUnread (s, fun _ => false) es ∧
      (collect (step gFwft) accepted s es).length ≤
        (collect (step gFwft) (delivered gFwft) s es).length +
          (2 ^ D + if gFwft then 3 else 0) := by
  obtain ⟨p, hp, e⟩ := exists_pending (owes_step (by omega) gFwft) (owes_powerUp gFwft h) hr
  rw [collect_singleton, List.nil_append] at e
  refine ⟨⟨p, e.symm⟩, ?_, ?_⟩
  · have hflag : FlagsTrack ((s, fun _ => false) : State D α × (BitVec D → Bool)) := by
      obtain ⟨W, w, w₁, w₂, r, r₁, r₂, hq, ht, -⟩ := owes_powerUp gFwft h
      exact ⟨W, w, w₁, w₂, r, r₁, r₂, hq, ht, fun a ha => by simp at ha⟩
    have hπ : ∀ (x : State D α × (BitVec D → Bool)) e, (flagged gFwft x e).1 = step gFwft x.1 e :=
      fun _ _ => rfl
    exact always_of_invariant (flagsTrack_step (by omega) gFwft) hflag
      ((always_proj hπ _ _).mpr hr)
  · have := Owes.length_le hp
    rw [e, List.length_append]
    omega

/-- The power-up state with all data registers zero. -/
def initial (D : ℕ) : State D (BitVec 8) :=
  ⟨fun _ => 0, 0, ⟨true, 0, 0⟩, ⟨false, false, false, 0, 0⟩, ⟨0, 0⟩, ⟨false, false⟩,
    ⟨false, 0, 0⟩, ⟨0, 0⟩, ⟨false, false⟩, .idle, false, false⟩

theorem initial_powerUp (D : ℕ) : PowerUp (initial D) := by
  constructor <;> rfl

/-- Two words written and, after the pointer has crossed, one of them read. -/
theorem delivered_prefix_accepted_two : collect (step false) (delivered false) (initial 2)
      [.wr false true 5, .wr false true 7, .rd true, .rd true, .rd true, .rd true] = [5] ∧
    collect (step false) (delivered false) (initial 2)
      [.wr false true 5, .wr false true 7, .rd true, .rd true, .rd true, .rd true] <+:
    collect (step false) accepted (initial 2)
      [.wr false true 5, .wr false true 7, .rd true, .rd true, .rd true, .rd true] :=
  ⟨by decide +kernel,
    (delivered_prefix_accepted le_rfl false (initial_powerUp 2) (by decide +kernel)).1⟩

end RmiiEthernet.Afifo
