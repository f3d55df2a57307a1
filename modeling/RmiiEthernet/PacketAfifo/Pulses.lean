import RmiiEthernet.Afifo.Pulses
import RmiiEthernet.PacketAfifo.Packets

/-!
# The packet FIFO and resets at any time

`s_axis_tready_out` is high whenever the `afifo` is not full, also while it is busy with a reset and
takes nothing; a beat accepted then is dropped. A writer that waits for the end of the reset and
does not count on a stale read pointer loses nothing, as long as no handshake ends before the read
side has noticed the request (`Heeds`): all the beats accepted since the last reset are among those
sent and those held, in order and behind all others (`Kept`).

The reset of the `fifo` travels by itself and clears it three edges of the read clock after the
pulse. `Awaits` says why no word written since then is there so early.
-/

namespace RmiiEthernet.PacketAfifo

open Sync EthernetFcs

variable {D : ℕ}

/-- At an edge of the write clock without a reset a beat is accepted only if the `afifo` is not busy
and has room, and no handshake ends before the read side has noticed the request. -/
def Heeds (s : State D) : Edge → Prop
  | .wr reset tdata tvalid tlast =>
    (reset = false → (tvalid && s.sAxisTready) = true →
      s.afifo.resetBusySig = false ∧ s.afifo.unread < 2 ^ D) ∧
    Afifo.Noticed s.afifo (.wr reset (tvalid && !s.afifo.resetBusySig) (wordOf (tdata, tlast)))
  | .rd _ => True

instance (s : State D) : ∀ e, Decidable (Heeds s e)
  | .wr _ _ _ _ => inferInstanceAs (Decidable (_ ∧ _))
  | .rd _ => inferInstanceAs (Decidable True)

/-- The edge carries a reset. -/
def Edge.resets : Edge → Bool
  | .wr reset _ _ _ => reset
  | .rd _ => false

/-- The beats on their way to the output, the oldest first. -/
def held (s : State D) : List (Byte × Bool) :=
  (Fifo.content s.fifo ++ s.skidBuffer.caught ++ Afifo.held s.afifo).map beatOf

/-- What an observer of the ports has seen since the last reset. -/
def lately {B : Type*} (obs : State D → Edge → List B) (x : State D × List B) (e : Edge) :
    State D × List B :=
  (step x.1 e, if e.resets then [] else x.2 ++ obs x.1 e)

/-- What is observed in a run since the last reset in it. -/
def sinceReset {B : Type*} (obs : State D → Edge → List B) (s : State D) (es : List Edge) :
    List B :=
  (run (lately obs) (s, []) es).2

/-! ## The reset of the `fifo` -/

section Cycle

variable {s : State D} {S T : List (Byte × Bool)} {W : List Word} {w w₁ w₂ r : ℕ}

/-- While a reset of the `fifo` is on its way, the read side of the `afifo` has seen no word: the
reset arrives first. -/
structure Awaits (s : State D) (w₁ w₂ r : ℕ) : Prop where
  far : s.resetPulseTransfer.aPulseR = true → s.resetPulseTransfer.bFf0 = false → w₁ = 0
  near : s.resetPulseTransfer.bFf0 = true → s.resetPulseTransfer.bFf1 = false → w₂ = 0
  here : s.resetRdClk = true → r = 0 ∧ s.afifo.readLogic.emptyR = true

theorem awaits_zero (h : s.afifo.readLogic.emptyR = true) : Awaits s 0 0 0 :=
  ⟨fun _ _ => rfl, fun _ _ => rfl, fun _ => ⟨rfl, h⟩⟩

theorem Awaits.wrStep (h : Awaits s w₁ w₂ r) (d : Byte) (tvalid tlast : Bool) :
    Awaits (s.wrStep false d tvalid tlast) w₁ w₂ r := by
  refine ⟨fun hpulse hff => h.far ?_ hff, h.near, h.here⟩
  simp only [State.wrStep, PulseTransfer.stepA, Bool.false_eq_true, if_false] at hpulse
  by_contra hne
  simp [hne] at hpulse

theorem Awaits.rdStep (h : Awaits s w₁ w₂ r)
    (hf : Afifo.Follows s.afifo W w w₁ w₂ r) (hreset : s.afifo.readReset = false) (tready : Bool) :
    Awaits (s.rdStep tready) w w₁
      (r + (Afifo.fetched true s.afifo s.skidBuffer.readyOut).length) := by
  refine ⟨fun hpulse hff => ?_, fun hff0 hff1 => h.far hff0 hff1, fun hhere => ?_⟩
  · have hff : s.resetPulseTransfer.aPulseR = false := hff
    have hpulse : s.resetPulseTransfer.aPulseR = true := hpulse
    simp [hff] at hpulse
  · obtain ⟨hff0, hff1⟩ : s.resetPulseTransfer.bFf1 = false ∧ s.resetPulseTransfer.bFf0 = true := by
      simpa [State.resetRdClk, PulseTransfer.bPulseOut, State.rdStep, PulseTransfer.stepB] using
        hhere
    have hzero := h.near hff1 hff0
    have hle := hf.reads true s.skidBuffer.readyOut
    refine ⟨by omega, ?_⟩
    by_contra hne
    have := hf.emptyR_rdStep hreset true s.skidBuffer.readyOut (Bool.eq_false_of_not_eq_true hne)
    omega

/-! ## What is kept -/

/-- Behind the reset of the `afifo`, when `T` are the beats accepted since the last reset and `S`
those sent: `T` is the last part of what has been sent and of what is on its way. The read side has
fetched `r` of the words of `T`, and `W` are the others. -/
structure Linked (s : State D) (S T : List (Byte × Bool)) (W : List Word) (w₁ w₂ r : ℕ) :
    Prop where
  quiet : Afifo.Quiet s.afifo
  holds : ∃ l, Fifo.Holds s.fifo l
  follows : Afifo.Follows s.afifo W T.length w₁ w₂ r
  awaits : Awaits s w₁ w₂ r
  suffix : T <:+ S ++ (Fifo.content s.fifo ++ s.skidBuffer.caught ++
    (Afifo.stages s.afifo ++ W)).map beatOf

/-- While the reset of the `afifo` is pending, `T` stands in its memory. -/
structure Pending (s : State D) (T : List (Byte × Bool)) (W : List Word) : Prop where
  handshake : Afifo.Handshake s.afifo
  holds : ∃ l, Fifo.Holds s.fifo l
  resetPending : s.afifo.resetPending = true
  filling : Afifo.Filling s.afifo W
  words : T = W.map beatOf

/-- `T` are the beats accepted since the last reset, `S` those sent. -/
inductive Kept (s : State D) (S T : List (Byte × Bool)) : Prop
  | pending (W : List Word) : Pending s T W → Kept s S T
  | linked (W : List Word) (w₁ w₂ r : ℕ) : Linked s S T W w₁ w₂ r → Kept s S T

theorem Kept.handshake (h : Kept s S T) : Afifo.Handshake s.afifo := by
  cases h with
  | pending W h => exact h.handshake
  | linked W w₁ w₂ r h =>
    exact .inr ⟨h.quiet.resetState, h.quiet.resetToRead, h.quiet.resetBusySig⟩

theorem Kept.holds (h : Kept s S T) : ∃ l, Fifo.Holds s.fifo l := by
  cases h with
  | pending W h => exact h.holds
  | linked W w₁ w₂ r h => exact h.holds

/-- What is kept is sent or held. -/
theorem Kept.suffix (h : Kept s S T) : T <:+ S ++ held s := by
  cases h with
  | pending W h =>
    rw [held, h.filling.held h.resetPending, h.words, List.map_append, ← List.append_assoc]
    exact List.suffix_append _ _
  | linked W w₁ w₂ r h =>
    rw [held, h.follows.held h.quiet]
    exact h.suffix

/-- The read side begins behind a reset. -/
theorem linked_of_follows (hq : Afifo.Quiet s.afifo) (hl : ∃ l, Fifo.Holds s.fifo l)
    (hf : Afifo.Follows s.afifo W W.length 0 0 0) (S : List (Byte × Bool)) :
    Linked s S (W.map beatOf) W 0 0 0 := by
  refine ⟨hq, hl, by rwa [List.length_map], awaits_zero ?_, ?_⟩
  · by_contra hne
    have := hf.notEmpty (Bool.eq_false_of_not_eq_true hne)
    omega
  · simp only [List.map_append, ← List.append_assoc]
    exact List.suffix_append _ _

/-- The end of a handshake that finds the read side cleared. -/
theorem pending_or_linked (hs : Afifo.Handshake s.afifo) (hl : ∃ l, Fifo.Holds s.fifo l)
    (hf : Afifo.Filling s.afifo W) (hp : s.afifo.resetPending = true ∨ s.afifo.ReadCleared)
    (S : List (Byte × Bool)) :
    Pending s (W.map beatOf) W ∨ Linked s S (W.map beatOf) W 0 0 0 := by
  cases hpend : s.afifo.resetPending with
  | true => exact .inl ⟨hs, hl, hpend, hf, rfl⟩
  | false =>
    have hclear : s.afifo.ReadCleared := hp.resolve_left (by simp [hpend])
    exact .inr (linked_of_follows (hs.quiet hpend) hl (hf.follows hclear) S)

theorem kept_of_or (h : Pending s T W ∨ Linked s S T W 0 0 0) : Kept s S T :=
  h.elim (.pending W) (.linked W 0 0 0)

/-- An edge with a reset. -/
theorem Kept.reset (h : Kept s S T) {tdata : Byte} {tvalid tlast : Bool}
    (he : Heeds s (.wr true tdata tvalid tlast)) : Kept (s.wrStep true tdata tvalid tlast) [] [] :=
  kept_of_or (pending_or_linked (s := s.wrStep true tdata tvalid tlast) (W := [])
    (h.handshake.wrStep _ _ _) h.holds (Afifo.filling_wrStep _ _ _)
    (he.2.wrStep h.handshake (.inr rfl)) [])

/-- The word that goes into the `afifo` at an edge. -/
theorem accepted_wr {tdata : Byte} {tvalid tlast : Bool}
    (he : Heeds s (.wr false tdata tvalid tlast)) :
    accepted s (.wr false tdata tvalid tlast) = (Afifo.stored s.afifo
      (tvalid && !s.afifo.resetBusySig) (wordOf (tdata, tlast))).map beatOf := by
  have hroom := he.1 rfl
  cases hv : (tvalid && s.sAxisTready) with
  | false =>
    have hen : (tvalid && !s.afifo.resetBusySig && !s.afifo.full) = false := by
      simp only [State.sAxisTready] at hv
      cases tvalid <;> simp_all
    simp [accepted, Afifo.stored, hv, hen]
  | true =>
    have hen : (tvalid && !s.afifo.resetBusySig && !s.afifo.full) = true := by
      obtain ⟨hbusy, -⟩ := hroom hv
      simp only [State.sAxisTready] at hv
      simp_all
    simp only [accepted, Afifo.stored, hv, hen, if_true, List.map_cons, List.map_nil, beatOf_wordOf]

/-- The `afifo` gets what it may take. -/
theorem Heeds.afifo {tdata : Byte} {tvalid tlast : Bool}
    (he : Heeds s (.wr false tdata tvalid tlast)) :
    Afifo.Heeds s.afifo
      (.wr false (tvalid && !s.afifo.resetBusySig) (wordOf (tdata, tlast))) := by
  intro hen
  refine he.1 rfl ?_
  simp only [State.sAxisTready]
  cases tvalid <;> simp_all

/-- An edge of the write clock without a reset, while the reset of the `afifo` is pending. -/
theorem Pending.wrStep (h : Pending s T W) {tdata : Byte} {tvalid tlast : Bool}
    (he : Heeds s (.wr false tdata tvalid tlast)) (S : List (Byte × Bool)) :
    ∃ W', Pending (s.wrStep false tdata tvalid tlast)
        (T ++ accepted s (.wr false tdata tvalid tlast)) W' ∨
      Linked (s.wrStep false tdata tvalid tlast) S
        (T ++ accepted s (.wr false tdata tvalid tlast)) W' 0 0 0 := by
  have hf : Afifo.Filling (Afifo.step true s.afifo
      (.wr false (tvalid && !s.afifo.resetBusySig) (wordOf (tdata, tlast)))) _ :=
    h.filling.step h.resetPending rfl he.afifo
  rw [Afifo.written_wr he.afifo] at hf
  refine ⟨W ++ Afifo.stored s.afifo (tvalid && !s.afifo.resetBusySig) (wordOf (tdata, tlast)), ?_⟩
  rw [accepted_wr he, h.words, ← List.map_append]
  exact pending_or_linked (s := s.wrStep false tdata tvalid tlast) (h.handshake.wrStep _ _ _)
    h.holds hf (he.2.wrStep h.handshake (.inl h.resetPending)) S

/-- An edge of the write clock without a reset, behind the reset of the `afifo`. -/
theorem Linked.wrStep {w₁ w₂ r : ℕ} (h : Linked s S T W w₁ w₂ r) {tdata : Byte}
    {tvalid tlast : Bool} (he : Heeds s (.wr false tdata tvalid tlast)) :
    ∃ W', Linked (s.wrStep false tdata tvalid tlast) S
      (T ++ accepted s (.wr false tdata tvalid tlast)) W' w₁ w₂ r := by
  have hroom (hne : Afifo.stored s.afifo (tvalid && !s.afifo.resetBusySig)
      (wordOf (tdata, tlast)) ≠ []) := he.afifo.room hne
  have hf := h.follows.wrStep (tvalid && !s.afifo.resetBusySig) (wordOf (tdata, tlast))
    fun hne => by
      have hlt := hroom hne
      rw [h.follows.unread h.quiet] at hlt
      exact ⟨hlt.1, by omega⟩
  refine ⟨W ++ Afifo.stored s.afifo (tvalid && !s.afifo.resetBusySig) (wordOf (tdata, tlast)),
    h.quiet.wrStep _ _, h.holds, ?_, h.awaits.wrStep tdata tvalid tlast, ?_⟩
  · rw [accepted_wr he, List.length_append, List.length_map]
    exact hf
  · obtain ⟨Z, hZ⟩ := h.suffix
    refine ⟨Z, ?_⟩
    rw [accepted_wr he, ← List.append_assoc, hZ]
    simp only [List.map_append, List.append_assoc]
    rfl

/-- An edge of the write clock without a reset. -/
theorem Kept.wrStep (h : Kept s S T) {tdata : Byte} {tvalid tlast : Bool}
    (he : Heeds s (.wr false tdata tvalid tlast)) :
    Kept (s.wrStep false tdata tvalid tlast) S
      (T ++ accepted s (.wr false tdata tvalid tlast)) := by
  cases h with
  | pending W h =>
    obtain ⟨W', h'⟩ := h.wrStep he S
    exact kept_of_or h'
  | linked W w₁ w₂ r h =>
    obtain ⟨W', h'⟩ := h.wrStep he
    exact .linked W' w₁ w₂ r h'

theorem holds_rdStep (h : ∃ l, Fifo.Holds s.fifo l) (tready : Bool) :
    ∃ l, Fifo.Holds (s.rdStep tready).fifo l := by
  obtain ⟨l, hl⟩ := h
  cases hreset : s.resetRdClk with
  | true => exact ⟨[], (Fifo.holds_step_sreset hreset).1⟩
  | false => exact ⟨_, (hl.step hreset).2⟩

/-- An edge of the read clock, while the reset of the `afifo` is pending. -/
theorem Pending.rdStep (h : Pending s T W) (tready : Bool) (S : List (Byte × Bool)) :
    Pending (s.rdStep tready) T W ∨ Linked (s.rdStep tready) S T W 0 0 0 := by
  have hl := holds_rdStep h.holds tready
  have hf := h.filling
  cases hp : (s.rdStep tready).afifo.resetPending with
  | true =>
    exact .inl ⟨h.handshake, hl, hp,
      ⟨hf.writeLogic_addr, hf.writeLogic_pointer, hf.window, hf.fits⟩, h.words⟩
  | false =>
    obtain ⟨hq, hfollows, -⟩ := hf.leave h.handshake h.resetPending hp
    rw [h.words]
    exact .inr (linked_of_follows hq hl hfollows S)

/-- While the reset of the `fifo` comes, no word of `T` has been fetched. -/
theorem Linked.fetched_eq_nil {w₁ w₂ r : ℕ} (h : Linked s S T W w₁ w₂ r)
    (hreset : s.resetRdClk = true) (readEn : Bool) : Afifo.fetched true s.afifo readEn = [] := by
  unfold Afifo.fetched
  split
  · next hen =>
    have hempty := (h.awaits.here hreset).2
    rw [Afifo.readEnInternal_notEmpty hen] at hempty
    cases hempty
  · rfl

/-- An edge of the read clock, behind the reset of the `afifo`. -/
theorem Linked.rdStep {w₁ w₂ r : ℕ} (h : Linked s S T W w₁ w₂ r) (tready : Bool) :
    ∃ W', Linked (s.rdStep tready) (S ++ sent s (.rd tready)) T W' T.length w₁
      (r + (Afifo.fetched true s.afifo s.skidBuffer.readyOut).length) := by
  obtain ⟨W', hW, hf⟩ := h.follows.rdStep h.quiet.readReset true s.skidBuffer.readyOut
  refine ⟨W', h.quiet.rdStep _ _, holds_rdStep h.holds tready, hf,
    h.awaits.rdStep h.follows h.quiet.readReset tready, ?_⟩
  cases hreset : s.resetRdClk with
  | true =>
    -- the words since the reset are all in the memory of the `afifo`
    have hr : r = 0 := (h.awaits.here hreset).1
    have hsame : W = W' := by rw [hW, h.fetched_eq_nil hreset, List.nil_append]
    have hall : T = W.map beatOf := by
      have hlen := h.follows.length
      have hT := h.suffix
      simp only [List.map_append, ← List.append_assoc] at hT
      refine (List.suffix_of_suffix_length_le hT (List.suffix_append _ _) ?_).eq_of_length ?_
      all_goals rw [List.length_map]; omega
    rw [hall, hsame]
    simp only [List.map_append, ← List.append_assoc]
    exact List.suffix_append _ _
  | false =>
    obtain ⟨l, hl⟩ := h.holds
    have honWay := Afifo.onWay_rdStep h.quiet.readReset true s.skidBuffer.readyOut W'
    rw [← hW, if_pos rfl, if_pos rfl] at honWay
    have hT := h.suffix
    rw [content_rdStep hl hreset tready honWay, List.map_append, ← sent_eq_taken,
      ← List.append_assoc] at hT
    exact hT

/-- An edge of the read clock. -/
theorem Kept.rdStep (h : Kept s S T) (tready : Bool) :
    Kept (s.rdStep tready) (S ++ sent s (.rd tready)) T := by
  cases h with
  | pending W h => exact kept_of_or (h.rdStep tready _)
  | linked W w₁ w₂ r h =>
    obtain ⟨W', h'⟩ := h.rdStep tready
    exact .linked W' _ _ _ h'

/-- **One edge**: what is kept stays kept, unless the edge carries a reset. -/
theorem Kept.step (h : Kept s S T) {e : Edge} (he : Heeds s e) :
    Kept (step s e) (if e.resets then [] else S ++ sent s e)
      (if e.resets then [] else T ++ accepted s e) := by
  cases e with
  | wr reset tdata tvalid tlast =>
    cases reset with
    | true => exact h.reset he
    | false =>
      have hnone : S ++ sent s (.wr false tdata tvalid tlast) = S := List.append_nil S
      rw [Edge.resets, if_neg (by simp), if_neg (by simp), hnone]
      exact h.wrStep he
  | rd tready =>
    have hnone : T ++ accepted s (.rd tready) = T := List.append_nil T
    rw [Edge.resets, if_neg (by simp), if_neg (by simp), hnone]
    exact h.rdStep tready

end Cycle

/-! ## Every interleaving -/

section Runs

variable {s : State D} {S T : List (Byte × Bool)} {es : List Edge}

theorem kept_run (h : Kept s S T) (he : Always step Heeds s es) :
    Kept (run step s es) (run (lately sent) (s, S) es).2 (run (lately accepted) (s, T) es).2 := by
  induction es generalizing s S T with
  | nil => exact h
  | cons e es ih => exact ih (h.step he.1) he.2

theorem kept_powerUp (h : PowerUp s) : Kept s [] [] := by
  refine .linked [] 0 0 0 ⟨h.afifo.quiet, ⟨[], h.holds⟩, h.afifo.tracks.follows, awaits_zero ?_, ?_⟩
  · rw [h.afifo.readLogic]
  · exact List.nil_suffix

end Runs

end RmiiEthernet.PacketAfifo
