import RmiiEthernet.Afifo.Order
import RmiiEthernet.Sync.Clocks

/-!
# The asynchronous FIFO as a delay line

The receive FIFO of the MAC is read at every edge of its read clock. While no two words are written
between two of these edges, no word ever waits for another: with each edge all the words move one
place on, from the memory through the two flops of the pointer and the empty flag to the output
register of the memory and the output (`Slots`). A word comes out at the sixth edge after it has
been written, and the FIFO is never full (`delayed_of_spaced`).
-/

namespace RmiiEthernet.Afifo

open Sync

variable {D : ℕ} {α : Type*}

/-- The places of the delay line. Four of them are in the memory: a word that the reader cannot see,
one with its pointer in the first flop, one with its pointer in the second, and one that the empty
flag has admitted. -/
@[ext]
structure Slots (α : Type*) where
  written : Option α
  crossing : Option α
  crossed : Option α
  admitted : Option α
  fetched : Option α
  output : Option α

namespace Slots

/-- An empty line. -/
def empty : Slots α := ⟨none, none, none, none, none, none⟩

/-- The words in the memory. -/
def words (l : Slots α) : List α :=
  l.admitted.toList ++ (l.crossed.toList ++ (l.crossing.toList ++ l.written.toList))

/-- A word is written. -/
def write (l : Slots α) : List α → Slots α
  | [] => l
  | d :: _ => { l with written := some d }

/-- All the words move one place on. -/
def shift (l : Slots α) : Slots α :=
  ⟨none, l.written, l.crossing, l.crossed, l.admitted, l.fetched⟩

theorem length_words_le (l : Slots α) : l.words.length ≤ 4 := by
  obtain ⟨a, b, c, d, -, -⟩ := l
  cases a <;> cases b <;> cases c <;> cases d <;> simp [words]

theorem words_write {l : Slots α} {ds : List α} (hds : ds.length ≤ 1)
    (h : ds ≠ [] → l.written = none) : (l.write ds).words = l.words ++ ds := by
  cases ds with
  | nil => exact (List.append_nil _).symm
  | cons d ds =>
    obtain rfl : ds = [] := List.eq_nil_of_length_eq_zero (by simpa using hds)
    simp [words, write, h (by simp)]

end Slots

/-- **The FIFO holds the words of a delay line**: the counts of `Tracks` differ by the words in
the places between them. -/
structure Delays (s : State D α) (l : Slots α) : Prop where
  quiet : Quiet s
  tracks : ∃ w w₁ w₂ r r₁ r₂, Tracks s l.words w w₁ w₂ r r₁ r₂ ∧
    w = w₁ + l.written.toList.length ∧ w₁ = w₂ + l.crossing.toList.length ∧
    w₂ = r + l.admitted.toList.length + l.crossed.toList.length ∧ w ≤ r₁ + 5 ∧ w ≤ r₂ + 6
  full_eq : s.full = false
  emptyR : s.readLogic.emptyR = l.admitted.isNone
  bufferValid : s.fwft.bufferValid = false
  fetched_eq : l.fetched = if s.fwft.fifoValid then some s.doutB else none
  output_eq : l.output = if s.fwft.outputValid then some s.fwft.outputR else none

variable {s : State D α} {l : Slots α}

theorem PowerUp.delays (h : PowerUp s) : Delays s .empty where
  quiet := h.quiet
  tracks := ⟨0, 0, 0, 0, 0, 0, h.tracks, rfl, rfl, rfl, by omega, by omega⟩
  full_eq := by rw [State.full, h.writeLogic]
  emptyR := by rw [h.readLogic]; rfl
  bufferValid := h.bufferValid
  fetched_eq := by rw [h.fifoValid]; rfl
  output_eq := by rw [h.outputValid]; rfl

/-- **An edge of the write clock** puts a word into the first place. -/
theorem Delays.wrStep (hD : 3 ≤ D) (h : Delays s l) {writeEn : Bool} {d : α}
    (hroom : writeEn = true → l.written = none) :
    Delays (s.wrStep false writeEn d) (l.write (if writeEn then [d] else [])) := by
  obtain ⟨w, w₁, w₂, r, r₁, r₂, ht, h₁, h₂, h₃, hr₁, hr₂⟩ := h.tracks
  have hstored : stored s writeEn d = if writeEn then [d] else [] := by simp [stored, h.full_eq]
  have hlen : (stored s writeEn d).length ≤ 1 := by rw [hstored]; split <;> simp
  have hwords : (l.write (if writeEn then [d] else [])).words = l.words ++ stored s writeEn d := by
    rw [Slots.words_write (by rw [← hstored]; exact hlen) fun hne => hroom (by
      by_contra hw; simp [hw] at hne), hstored]
  have hcount := (l.write (if writeEn then [d] else [])).length_words_le
  have hwrite : (l.write (if writeEn then [d] else [])).written.toList.length =
      l.written.toList.length + (stored s writeEn d).length := by
    rw [hstored]
    cases writeEn
    · rfl
    · simp [Slots.write, hroom rfl]
  have hkeep : ∀ ds, (l.write ds).crossing = l.crossing ∧ (l.write ds).crossed = l.crossed ∧
      (l.write ds).admitted = l.admitted ∧ (l.write ds).fetched = l.fetched ∧
      (l.write ds).output = l.output := by
    rintro (_ | _) <;> exact ⟨rfl, rfl, rfl, rfl, rfl⟩
  obtain ⟨hc₁, hc₂, hc₃, hc₄, hc₅⟩ := hkeep (if writeEn then [d] else [])
  have htotal := ht.length
  rw [hwords, List.length_append] at hcount
  refine ⟨h.quiet.wrStep writeEn d, ⟨_, _, _, _, _, _, hwords ▸ ht.wrStep (by omega) h.quiet
    writeEn d, ?_, ?_, ?_, ?_, ?_⟩, ?_, ?_, h.bufferValid, ?_, ?_⟩
  · omega
  · rw [hc₁, h₂]
  · rw [hc₂, hc₃, h₃]
  · omega
  · omega
  · -- the writer is never a whole memory ahead of the reader it sees
    have hpow : 2 ^ 3 ≤ 2 ^ D := Nat.pow_le_pow_right (by omega) hD
    have hiff := WriteLogic.full_iff (by omega) (writeAddrNext_eq ht.writeLogic_addr writeEn d)
      (m := r₂) (by have := ht.order; omega) (by omega)
    have hne : s.writeLogic.fullSig writeEn (gray (BitVec.ofNat (D + 1) r₂)) = false := by
      rw [← Bool.not_eq_true, hiff]
      omega
    simp [State.full, State.wrStep, WriteLogic.step, ht.readPtrSync, hne]
  · rw [hc₃]
    exact h.emptyR
  · rw [hc₄]
    exact h.fetched_eq
  · rw [hc₅]
    exact h.output_eq

/-- **An edge of the read clock** moves every word one place on; the last one is delivered. -/
theorem Delays.rdStep [Zero α] (h : Delays s l) :
    Delays (s.rdStep true true) l.shift ∧ delivered true s (.rd true) = l.output.toList := by
  obtain ⟨w, w₁, w₂, r, r₁, r₂, ht, h₁, h₂, h₃, hr₁, hr₂⟩ := h.tracks
  have hreset := h.quiet.readReset
  have hen : s.readEnInternal true true = l.admitted.isSome := by
    simp [State.readEnInternal, FifoFwft.fifoReadEnSig, hreset, h.bufferValid, State.fifoEmpty,
      h.emptyR]
  obtain ⟨W, hW, ht'⟩ := ht.rdStep h.quiet true true
  have hlen : (fetched true s true).length = l.admitted.toList.length := by
    unfold fetched
    rw [hen]
    cases l.admitted <;> rfl
  obtain ⟨hadmitted, hrest⟩ := List.append_inj hW hlen.symm
  have hempty := ht.follows.emptyR_rdStep_iff hreset true true
  have hwords : l.shift.words = W := by
    rw [← hrest]
    simp [Slots.words, Slots.shift]
  have hcount : w₁ = r + (fetched true s true).length + l.shift.admitted.toList.length +
      l.shift.crossed.toList.length := by
    change w₁ = _ + l.crossed.toList.length + l.crossing.toList.length
    omega
  refine ⟨⟨h.quiet.rdStep true true, ⟨_, _, _, _, _, _, hwords.symm ▸ ht', rfl, h₁, hcount, hr₁,
    hr₂⟩, h.full_eq, ?_, ?_, ?_, ?_⟩, ?_⟩
  · change _ = l.crossed.isNone
    rw [Bool.eq_iff_iff, hempty, hlen, h₃]
    cases l.crossed <;> simp
  · simp [State.rdStep, FifoFwft.step, FifoFwft.updateBuffer, FifoFwft.updateOutput, hreset,
      h.bufferValid]
  · change l.admitted = _
    have hvalid : (s.rdStep true true).fwft.fifoValid = l.admitted.isSome := by
      rw [← hen]
      simp [State.rdStep, FifoFwft.step, FifoFwft.updateBuffer, FifoFwft.updateOutput, hreset,
        h.bufferValid, State.readEnInternal]
    rw [hvalid]
    cases ha : l.admitted with
    | none => rfl
    | some d =>
      have hd : [d] = [s.memory s.readLogic.readAddrOut] := by
        rw [ha, fetched, hen, ha] at hadmitted
        exact hadmitted
      rw [List.cons.injEq] at hd
      simp [State.rdStep, hen, ha, ← hd.1]
  · change l.fetched = _
    rw [h.fetched_eq]
    cases hv : s.fwft.fifoValid <;>
      simp [State.rdStep, FifoFwft.step, FifoFwft.updateOutput, hreset, h.bufferValid, hv]
  · rw [h.output_eq]
    cases hv : s.fwft.outputValid <;>
      simp [delivered, State.empty, State.readData, hv]

/-! ## Whole runs -/

section Runs

variable {es : List (Edge α)}

/-- The edges of the read clock. -/
def Edge.isRead : Edge α → Bool
  | .wr _ _ _ => false
  | .rd _ => true

/-- The edges at which a word is written. -/
def Edge.writes : Edge α → Bool
  | .wr _ writeEn _ => writeEn
  | .rd _ => false

/-- No reset, and the reader always reads. -/
def Edge.Streams : Edge α → Prop
  | .wr reset _ _ => reset = false
  | .rd readEn => readEn = true

instance (e : Edge α) : Decidable e.Streams := by
  cases e <;> unfold Edge.Streams <;> infer_instance

/-- What has been written since the last edge of the read clock. -/
def since (c : Option α) : Edge α → Option α
  | .wr _ writeEn d => if writeEn then some d else c
  | .rd _ => none

/-- What was written before an edge of the read clock and behind the one before. -/
def period (c : Option α) (e : Edge α) : List (Option α) := if e.isRead then [c] else []

/-- What is delivered at an edge of the read clock. -/
def answer [Zero α] (s : State D α) (e : Edge α) : List (Option α) :=
  if e.isRead then [(delivered true s e).head?] else []

/-- The words behind each other in the line, the next one to come out first. -/
def Slots.toList (l : Slots α) : List (Option α) :=
  [l.output, l.fetched, l.admitted, l.crossed, l.crossing]

/-- **One edge** of a line into which no second word is written. -/
theorem Delays.step [Zero α] (hD : 3 ≤ D) (h : Delays s l) {e : Edge α} (he : e.Streams)
    (hroom : e.writes = true → l.written = none) :
    ∃ l', Delays (step true s e) l' ∧ l'.written = since l.written e ∧
      l.toList ++ period l.written e = answer s e ++ l'.toList := by
  cases e with
  | wr reset writeEn d =>
    obtain rfl : reset = false := he
    refine ⟨_, h.wrStep hD hroom, ?_, ?_⟩ <;> cases writeEn <;> rfl
  | rd readEn =>
    obtain rfl : readEn = true := he
    obtain ⟨hnext, hout⟩ := h.rdStep
    refine ⟨_, hnext, rfl, ?_⟩
    have hanswer : answer s (.rd true) = [l.output] := by
      rw [answer, Edge.isRead, if_pos rfl, hout]
      cases l.output <;> rfl
    rw [hanswer]
    rfl

/-- A word that has been written since the last edge of the read clock was written behind it. -/
theorem exists_suffix_since {d : α} (h : run since none es = some d) :
    ∃ fs, fs <:+ es ∧ fs.any Edge.isRead = false ∧ 1 ≤ fs.countP Edge.writes := by
  induction es using List.reverseRecOn with
  | nil => cases h
  | append_singleton es e ih =>
    rw [run_concat] at h
    have hlater (hnot : e.isRead = false) (hes : run since none es = some d) :
        ∃ fs, fs <:+ es ++ [e] ∧ fs.any Edge.isRead = false ∧ 1 ≤ fs.countP Edge.writes := by
      obtain ⟨fs, ⟨gs, rfl⟩, hread, hcount⟩ := ih hes
      exact ⟨fs ++ [e], ⟨gs, by simp⟩, by simp [hread, hnot], by
        rw [List.countP_append]; omega⟩
    cases e with
    | rd readEn => cases h
    | wr reset writeEn c =>
      cases writeEn with
      | false => exact hlater rfl h
      | true => exact ⟨[.wr reset true c], ⟨es, rfl⟩, rfl, le_rfl⟩

/-- Where two words are never written without an edge of the read clock between them, the first
place is free whenever a word is written. -/
theorem always_since (h : Paces 1 Edge.isRead Edge.writes es) :
    Always since (fun c e => e.writes = true → c = none) none es := by
  refine always_of_forall_split fun fs e gs hes hwrites => ?_
  by_contra hne
  obtain ⟨d, hd⟩ := Option.ne_none_iff_exists'.mp hne
  obtain ⟨ks, ⟨js, rfl⟩, hread, hcount⟩ := exists_suffix_since hd
  have hnot : e.isRead = false := by
    cases e with
    | wr => rfl
    | rd => cases hwrites
  have hle := h (ks ++ [e]) ⟨js, gs, by simp [hes]⟩ (by simp [hread, hnot])
  rw [List.countP_append, List.countP_singleton, if_pos hwrites] at hle
  omega

/-- A run of the line. -/
theorem delays_run [Zero α] (hD : 3 ≤ D) (h : Delays s l)
    (hstreams : ∀ e ∈ es, e.Streams)
    (hroom : Always since (fun c e => e.writes = true → c = none) l.written es) :
    ∃ l', Delays (run (step true) s es) l' ∧
      l.toList ++ collect since period l.written es =
        collect (step true) answer s es ++ l'.toList := by
  induction es generalizing s l with
  | nil => exact ⟨l, h, List.append_nil _⟩
  | cons e es ih =>
    obtain ⟨l₁, h₁, hw₁, e₁⟩ := h.step hD (hstreams e (by simp)) hroom.1
    obtain ⟨l₂, h₂, e₂⟩ := ih h₁ (fun f hf => hstreams f (by simp [hf])) (hw₁ ▸ hroom.2)
    refine ⟨l₂, h₂, ?_⟩
    rw [collect_cons, ← List.append_assoc, e₁, List.append_assoc, ← hw₁, e₂, collect_cons,
      List.append_assoc]

/-- **The FIFO delays every word by the same number of edges.** Whatever the order of the edges of
the two clocks, as long as the reader always reads and no two words are written without an edge of
the read clock between them: the FIFO is never full, and at each edge of the read clock the word
comes out that was written five periods of that clock before, or none if none was. -/
theorem delayed_of_spaced [Zero α] (hD : 3 ≤ D) (h : PowerUp s)
    (hstreams : ∀ e ∈ es, e.Streams) (hspaced : Paces 1 Edge.isRead Edge.writes es) :
    Always (step true) (fun s _ => s.full = false) s es ∧
      collect (step true) answer s es =
        (List.replicate 5 none ++ collect since period none es).take (es.countP Edge.isRead) := by
  constructor
  · refine always_of_forall_split fun fs e gs hes => ?_
    have hinfix : Paces 1 Edge.isRead Edge.writes fs := fun ks hks =>
      hspaced ks (hks.trans ⟨[], e :: gs, by simp [hes]⟩)
    obtain ⟨l, hl, -⟩ := delays_run hD h.delays
      (fun f hf => hstreams f (by simp [hes, hf])) (always_since hinfix)
    exact hl.full_eq
  · obtain ⟨l, -, e⟩ := delays_run hD h.delays hstreams (always_since hspaced)
    have hlen : (collect (step true) answer s es).length = es.countP Edge.isRead := by
      clear e hspaced hstreams h
      induction es generalizing s with
      | nil => rfl
      | cons e es ih =>
        rw [collect_cons, List.length_append, ih, List.countP_cons, answer]
        split <;> simp_all [Nat.add_comm]
    rw [← hlen]
    exact (List.prefix_iff_eq_take.mp ⟨_, e.symm⟩)

/-- Two words, the second one an edge of the read clock later than it could be. -/
theorem delayed_of_spaced_two :
    let es : List (Edge (BitVec 8)) := [.wr false true 5, .rd true, .wr false false 6, .rd true,
      .wr false true 7] ++ List.replicate 7 (.rd true)
    Always (step true) (fun s _ => s.full = false) (initial 3) es ∧
      collect (step true) answer (initial 3) es =
        [none, none, none, none, none, some 5, none, some 7, none] := by
  intro es
  obtain ⟨hfull, hanswer⟩ := delayed_of_spaced (show 3 ≤ 3 from le_rfl) (initial_powerUp 3)
    (show ∀ e ∈ es, e.Streams by decide +kernel) (by decide +kernel)
  exact ⟨hfull, hanswer.trans (by decide +kernel)⟩

end Runs

end RmiiEthernet.Afifo
