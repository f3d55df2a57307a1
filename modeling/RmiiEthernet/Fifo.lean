import RmiiEthernet.Sync.Ring
import RmiiEthernet.Sync.Run

/-!
# The synchronous FIFO

`fifo` is a ring of `2 ^ D` rows, of which it uses all but one, with an output register in front:
a word shows at the output without having been asked for. A read takes the word in the register and
fetches the next one; the register also fetches whenever it is empty.

`Holds s l` says that the words `l` stand in the memory. With the word in the register in front
they are the content of the queue (`Holds.step`), and the circuit is a bounded queue
(`bounded_queue`).
-/

namespace RmiiEthernet.Fifo

open Sync

variable {D : ℕ} {α : Type*}

/-! ## The circuit -/

/-- The input ports in one cycle. -/
structure Inputs (α : Type*) where
  sreset : Bool
  writeData : α
  writeEn : Bool
  readEn : Bool

/-- The registers and the memory. -/
structure State (D : ℕ) (α : Type*) where
  ram : BitVec D → α
  readPointer : BitVec D
  writePointer : BitVec D
  dataOutR : α
  outputValidR : Bool

namespace State

variable (s : State D α)

/-- Nothing is stored in the memory. -/
def emptySig : Bool := s.readPointer == s.writePointer

/-- One row is always left free. -/
def fullSig : Bool := s.writePointer - s.readPointer == BitVec.ofNat D (2 ^ D - 1)

/-- `empty`: the output register holds no word. -/
def empty : Bool := !s.outputValidR

end State

/-- The output register takes a word when its word is read, or it holds none. -/
def fwftRead (s : State D α) (i : Inputs α) : Bool := i.readEn || !s.outputValidR

/-- One clock edge. -/
def step (s : State D α) (i : Inputs α) : State D α where
  -- p_write
  ram :=
    if i.writeEn && !s.fullSig then write s.ram s.writePointer i.writeData else s.ram
  writePointer :=
    if i.sreset then 0
    else if i.writeEn && !s.fullSig then s.writePointer + 1
    else s.writePointer
  -- p_read
  readPointer :=
    if i.sreset then 0
    else if fwftRead s i && !s.emptySig then s.readPointer + 1
    else s.readPointer
  -- p_fwft
  dataOutR := if fwftRead s i then s.ram s.readPointer else s.dataOutR
  outputValidR := !i.sreset && if fwftRead s i then !s.emptySig else s.outputValidR

/-! ## The queue -/

/-- The word in the output register, if it is valid. -/
def front (s : State D α) : List α := if s.outputValidR then [s.dataOutR] else []

/-- The words in the register and in the memory, the oldest first. -/
def content (s : State D α) : List α :=
  front s ++ (List.range (s.writePointer - s.readPointer).toNat).map fun k =>
    s.ram (s.readPointer + BitVec.ofNat D k)

/-- The words `l` stand in the memory, the oldest first. -/
structure Holds (s : State D α) (l : List α) : Prop where
  window : Window s.ram s.readPointer l
  pointers : s.writePointer = s.readPointer + BitVec.ofNat D l.length
  fits : l.length < 2 ^ D

/-- The word that goes into the memory in a cycle. -/
def written (s : State D α) (i : Inputs α) : List α :=
  if i.writeEn && !s.fullSig then [i.writeData] else []

/-- The word that is taken in a cycle. -/
def taken (s : State D α) (i : Inputs α) : List α := if i.readEn then front s else []

variable {s : State D α} {l : List α} {i : Inputs α}

theorem Holds.empty_iff (h : Holds s l) : s.emptySig = true ↔ l = [] := by
  have key := add_ofNat_inj (p := s.readPointer) (m := 0) (Nat.two_pow_pos D) h.fits
  rw [BitVec.add_zero] at key
  rw [State.emptySig, beq_iff_eq, h.pointers, key, eq_comm, List.length_eq_zero_iff]

theorem Holds.full_iff (h : Holds s l) : s.fullSig = true ↔ l.length = 2 ^ D - 1 := by
  have hpos := Nat.two_pow_pos D
  have hsub : s.writePointer - s.readPointer = BitVec.ofNat D l.length := by
    rw [h.pointers, BitVec.add_comm, BitVec.add_sub_cancel]
  have key := add_ofNat_inj (p := 0#D) h.fits (show 2 ^ D - 1 < 2 ^ D by omega)
  rw [BitVec.zero_add, BitVec.zero_add] at key
  rw [State.fullSig, beq_iff_eq, hsub, key]

theorem map_range_of_window {mem : BitVec D → α} {p : BitVec D} {l : List α}
    (h : Window mem p l) :
    (List.range l.length).map (fun k => mem (p + BitVec.ofNat D k)) = l := by
  induction l generalizing p with
  | nil => rfl
  | cons x l ih =>
    rw [List.length_cons, List.range_succ_eq_map, List.map_cons, List.map_map, BitVec.add_zero, h.1]
    apply congrArg (x :: ·)
    conv_rhs => rw [← ih h.2]
    apply List.map_congr_left
    intro k _
    rw [Function.comp_apply, Nat.succ_eq_add_one, add_ofNat_succ]

theorem Holds.content (h : Holds s l) : content s = front s ++ l := by
  have hlen : (s.writePointer - s.readPointer).toNat = l.length := by
    rw [h.pointers, BitVec.add_comm, BitVec.add_sub_cancel, BitVec.toNat_ofNat,
      Nat.mod_eq_of_lt h.fits]
  rw [Fifo.content, hlen, map_range_of_window h.window]

/-- The read side: a fetch moves the first word of the memory into the register. -/
theorem Holds.read (h : Holds s l) (hr : i.sreset = false) :
    ∃ l₁, l₁ = (if fwftRead s i then l.tail else l) ∧
      front (step s i) = (if fwftRead s i then l.take 1 else front s) ∧
      Window s.ram (step s i).readPointer l₁ ∧
      s.writePointer = (step s i).readPointer + BitVec.ofNat D l₁.length := by
  refine ⟨_, rfl, ?_⟩
  cases hf : fwftRead s i
  · refine ⟨by simp [front, step, hf, hr], ?_, ?_⟩
    · simpa [step, hf, hr] using h.window
    · simpa [step, hf, hr] using h.pointers
  · cases l with
    | nil =>
      have he : s.emptySig = true := h.empty_iff.mpr rfl
      refine ⟨by simp [front, step, hf, he], trivial, ?_⟩
      simpa [step, hf, hr, he] using h.pointers
    | cons x l =>
      have he : s.emptySig = false := by
        rw [← Bool.not_eq_true, h.empty_iff]
        simp
      refine ⟨by simp [front, step, hf, hr, he, h.window.1], ?_, ?_⟩
      · simpa [step, hf, hr, he] using h.window.2
      · have hp := h.pointers
        rw [List.length_cons, add_ofNat_succ] at hp
        simpa [step, hf, hr, he] using hp

/-- **One cycle of the queue**: the register fetches when it is read or empty, and the written
word joins the memory. -/
theorem Holds.step (h : Holds s l) (hr : i.sreset = false) :
    front (step s i) = (if fwftRead s i then l.take 1 else front s) ∧
      Holds (step s i) ((if fwftRead s i then l.tail else l) ++ written s i) := by
  obtain ⟨l₁, hl₁, hfront, hwin, hptr⟩ := h.read hr
  refine ⟨hfront, ?_⟩
  rw [← hl₁]
  have hle : l₁.length ≤ l.length := by
    rw [hl₁]
    split <;> simp
  have hlt := h.fits
  cases hw : (i.writeEn && !s.fullSig)
  · rw [written, hw, if_neg (by simp), List.append_nil]
    refine ⟨?_, ?_, by omega⟩
    · simpa [Fifo.step, hw] using hwin
    · simpa [Fifo.step, hw, hr] using hptr
  · have hfull : l.length ≠ 2 ^ D - 1 := by
      rw [Ne, ← h.full_iff]
      simp_all
    rw [written, hw, if_pos rfl]
    refine ⟨?_, ?_, by simp; omega⟩
    · have hpush := hwin.push i.writeData (by omega)
      rw [← hptr] at hpush
      simpa [Fifo.step, hw] using hpush
    · rw [List.length_append, List.length_singleton, BitVec.ofNat_add, ← BitVec.add_assoc, ← hptr]
      simp [Fifo.step, hw, hr]

/-- **Nothing is lost or reordered**: what is taken in a cycle and what the queue holds after it
are what the queue held before it and what is written. -/
theorem Holds.content_step (h : Holds s l) (hr : i.sreset = false) :
    taken s i ++ (front (Fifo.step s i) ++
      ((if fwftRead s i then l.tail else l) ++ written s i)) = front s ++ l ++ written s i := by
  rw [(h.step hr).1]
  cases hread : i.readEn
  · cases hv : s.outputValidR
    · cases l <;> simp [taken, hread, fwftRead, hv, front]
    · simp [taken, hread, fwftRead, hv]
  · cases l <;> simp [taken, hread, fwftRead]

/-- The output stays valid until it is read. -/
theorem Holds.front_step_of_not_read (h : Holds s l) (hr : i.sreset = false)
    (hread : i.readEn = false) (hne : front s ≠ []) : front (Fifo.step s i) = front s := by
  have hv : s.outputValidR = true := by
    by_contra hv
    exact hne (by simp [front, hv])
  rw [(h.step hr).1, fwftRead, hread, hv]
  rfl

/-- The output turns invalid only when there was nothing to fetch. -/
theorem Holds.eq_nil_of_front_step (h : Holds s l) (hr : i.sreset = false)
    (he : front (Fifo.step s i) = []) : l = [] ∧ (i.readEn = true ∨ front s = []) := by
  rw [(h.step hr).1] at he
  cases hread : i.readEn
  · cases hv : s.outputValidR
    · simpa [fwftRead, hread, hv, front] using he
    · simp [fwftRead, hread, hv, front] at he
  · simpa [fwftRead, hread] using he

theorem holds_step_sreset (hr : i.sreset = true) : Holds (step s i) [] ∧ front (step s i) = [] := by
  refine ⟨⟨trivial, ?_, Nat.two_pow_pos D⟩, ?_⟩ <;> simp [step, hr, front]

/-! ## Every run -/

/-- The initial values of the registers that have one. -/
structure PowerUp (s : State D α) : Prop where
  readPointer : s.readPointer = 0
  writePointer : s.writePointer = 0
  outputValidR : s.outputValidR = false

theorem PowerUp.holds (h : PowerUp s) : Holds s [] ∧ front s = [] := by
  refine ⟨⟨trivial, ?_, Nat.two_pow_pos D⟩, ?_⟩
  · simp [h.readPointer, h.writePointer]
  · simp [front, h.outputValidR]

/-- **Conservation**: what the queue held and what goes in is what comes out and what it holds. -/
theorem Holds.content_run {is : List (Inputs α)} (h : Holds s l) (hr : ∀ i ∈ is, i.sreset = false) :
    ∃ m, Holds (run Fifo.step s is) m ∧
      front s ++ l ++ collect Fifo.step written s is =
        collect Fifo.step taken s is ++ (front (run Fifo.step s is) ++ m) := by
  induction is generalizing s l with
  | nil => exact ⟨l, h, by simp⟩
  | cons i is ih =>
    have hi := hr i List.mem_cons_self
    obtain ⟨m, hm, e⟩ := ih (h.step (i := i) hi).2 fun j hj => hr j (List.mem_cons_of_mem _ hj)
    refine ⟨m, hm, ?_⟩
    rw [collect_cons, collect_cons, run_cons, List.append_assoc (taken s i), ← e,
      ← List.append_assoc, ← h.content_step hi]
    simp only [List.append_assoc]

/-- A read while the output is empty changes nothing: the register fetches anyway. -/
theorem step_readEn_of_empty (h : s.empty = true) (i : Inputs α) (b : Bool) :
    step s { i with readEn := b } = step s i := by
  have hv : s.outputValidR = false := by simpa [State.empty] using h
  have hread (j : Inputs α) : fwftRead s j = true := by simp [fwftRead, hv]
  simp only [step, hread]

theorem step_write_of_full (h : s.fullSig = true) (i : Inputs α) (b : Bool) (d : α) :
    step s { i with writeEn := b, writeData := d } = step s i := by
  simp [step, h, fwftRead]

/-- **The bounded queue.** In every run without a reset the words taken are the first of those
accepted, at most `2 ^ D` are left, and at least `2 ^ D - 1` when the queue is full. A word at the
output stays until it is read. A read of the empty queue and a write to the full one do nothing. -/
theorem bounded_queue (hs : PowerUp s) (is : List (Inputs α)) (hr : ∀ i ∈ is, i.sreset = false) :
    ∃ left, collect step written s is = collect step taken s is ++ left ∧ left.length ≤ 2 ^ D ∧
      ((run step s is).fullSig = true → 2 ^ D - 1 ≤ left.length) ∧
      ∀ i : Inputs α,
        (i.sreset = false → i.readEn = false → (run step s is).empty = false →
          (run step s (is ++ [i])).dataOutR = (run step s is).dataOutR ∧
            (run step s (is ++ [i])).empty = false) ∧
        ((run step s is).empty = true →
          ∀ b, step (run step s is) { i with readEn := b } = step (run step s is) i) ∧
        ((run step s is).fullSig = true → ∀ b d,
          step (run step s is) { i with writeEn := b, writeData := d } =
            step (run step s is) i) := by
  obtain ⟨hholds, hfront⟩ := hs.holds
  obtain ⟨m, hm, e⟩ := hholds.content_run hr
  rw [hfront, List.nil_append, List.nil_append] at e
  have hle : (front (run step s is)).length ≤ 1 := by
    unfold front
    split <;> simp
  have hfits := hm.fits
  refine ⟨_, e, ?_, fun hfull => ?_, fun i => ⟨fun hi hread he => ?_, fun he b => ?_,
    fun hfull b d => ?_⟩⟩
  · rw [List.length_append]
    omega
  · rw [List.length_append, ← hm.full_iff.mp hfull]
    omega
  · have hv : (run step s is).outputValidR = true := by simpa [State.empty] using he
    rw [run_concat]
    simp [step, fwftRead, State.empty, hi, hread, hv]
  · exact step_readEn_of_empty he i b
  · exact step_write_of_full hfull i b d

/-- Two writes into a queue of two rows. -/
theorem bounded_queue_two :
    let s : State 1 (BitVec 8) := ⟨fun _ => 0, 0, 0, 0, false⟩
    let is : List (Inputs (BitVec 8)) := [⟨false, 7, true, false⟩, ⟨false, 9, true, false⟩]
    ∃ left, collect step written s is = collect step taken s is ++ left ∧ left.length ≤ 2 :=
  let ⟨left, e, hle, _⟩ := bounded_queue ⟨rfl, rfl, rfl⟩
    [⟨false, 7, true, false⟩, ⟨false, 9, true, false⟩] (by decide)
  ⟨left, e, hle⟩

/-! ## The first round -/

/-- The word that is offered in a cycle. -/
def offered (_ : State D α) (i : Inputs α) : List α := if i.writeEn then [i.writeData] else []

/-- **On the first round** `n` words have been written, the other rows are still blank, and so is
the register while it is empty. -/
structure FirstRound (blank : α) (s : State D α) (n : ℕ) : Prop where
  holds : ∃ l, Holds s l ∧ l.length ≤ n
  writePointer : s.writePointer = BitVec.ofNat D n
  rows : ∀ m, n ≤ m → m < 2 ^ D → s.ram (BitVec.ofNat D m) = blank
  register : s.outputValidR = false → s.dataOutR = blank

section FirstRound

variable {blank : α} {n : ℕ}

theorem PowerUp.firstRound (h : PowerUp s) (hram : ∀ p, s.ram p = blank)
    (hregister : s.dataOutR = blank) : FirstRound blank s 0 :=
  ⟨⟨[], h.holds.1, le_rfl⟩, h.writePointer, fun _ _ _ => hram _, fun _ => hregister⟩

/-- On the first round the queue is not full. -/
theorem FirstRound.written_eq (h : FirstRound blank s n) (hn : n + (offered s i).length < 2 ^ D) :
    written s i = offered s i := by
  obtain ⟨l, hl, hle⟩ := h.holds
  cases hw : i.writeEn with
  | false => simp [written, offered, hw]
  | true =>
    simp only [offered, hw, if_pos, List.length_singleton] at hn
    have hfull : s.fullSig = false := by
      rw [← Bool.not_eq_true, hl.full_iff]
      omega
    simp [written, offered, hw, hfull]

/-- The register takes a word or a blank row. -/
theorem FirstRound.register_step (h : FirstRound blank s n) (hn : n < 2 ^ D)
    (hr : i.sreset = false) (hv : (step s i).outputValidR = false) :
    (step s i).dataOutR = blank := by
  simp only [step, hr, Bool.not_false, Bool.true_and] at hv ⊢
  split at hv
  · next hf =>
    have he : s.readPointer = s.writePointer := by simpa [State.emptySig] using hv
    rw [if_pos hf, he, h.writePointer]
    exact h.rows n le_rfl hn
  · next hf =>
    rw [if_neg hf]
    exact h.register hv

/-- **One cycle** of the first round. -/
theorem FirstRound.step (h : FirstRound blank s n) (hr : i.sreset = false)
    (hn : n + (offered s i).length < 2 ^ D) :
    FirstRound blank (step s i) (n + (offered s i).length) := by
  obtain ⟨l, hl, hle⟩ := h.holds
  have hwritten := h.written_eq hn
  have hlength : (offered s i).length = if i.writeEn && !s.fullSig then 1 else 0 := by
    rw [← hwritten, written]
    split <;> rfl
  refine ⟨⟨_, (hl.step (i := i) hr).2, ?_⟩, ?_, fun m hm hlt => ?_,
    h.register_step (by omega) hr⟩
  · rw [List.length_append, hwritten]
    have htail : (if fwftRead s i then l.tail else l).length ≤ l.length := by
      split <;> simp
    omega
  · simp only [Fifo.step, hr, Bool.false_eq_true, if_false, hlength, h.writePointer]
    split <;> simp [BitVec.ofNat_add]
  · have hblank := h.rows m (by omega) hlt
    rw [hlength] at hm
    simp only [Fifo.step]
    split
    · next hw =>
      rw [if_pos hw] at hm
      have hne : BitVec.ofNat D m ≠ s.writePointer := by
        rw [h.writePointer, Ne, eq_comm, ofNat_eq_ofNat_iff (by omega) (by omega)]
        omega
      rw [write_of_ne hne, hblank]
    · exact hblank

/-- As many words as there are rows but one go in, and no row that has not been written is read. -/
theorem FirstRound.run {is : List (Inputs α)} (h : FirstRound blank s n)
    (hr : ∀ i ∈ is, i.sreset = false) (hn : n + (collect Fifo.step offered s is).length < 2 ^ D) :
    FirstRound blank (run Fifo.step s is) (n + (collect Fifo.step offered s is).length) ∧
      collect Fifo.step written s is = collect Fifo.step offered s is := by
  induction is generalizing s n with
  | nil => exact ⟨h, rfl⟩
  | cons i is ih =>
    rw [collect_cons, List.length_append, ← Nat.add_assoc] at hn ⊢
    have hi := hr i List.mem_cons_self
    obtain ⟨h₁, h₂⟩ := ih (h.step hi (by omega)) (fun j hj => hr j (List.mem_cons_of_mem _ hj)) hn
    exact ⟨h₁, by rw [collect_cons, h.written_eq (by omega), h₂]⟩

end FirstRound

end RmiiEthernet.Fifo
