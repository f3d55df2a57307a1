import RmiiEthernet.Sync.Run
import Mathlib.Data.Bool.Basic

/-!
# The word transfer

`word_transfer` holds a word still on the one clock and turns `en_a` over to say so; the other clock
sees `en_a` change two of its edges later, captures the word and sends the change back as the
acknowledgement. A word is outstanding as long as the last flop of the one chain has not followed
`en_a`, and the next word is taken only when the whole way round has (`Handshake`).
-/

namespace RmiiEthernet.WordTransfer

open Sync

variable {α : Type*}

/-- `sync_pulse_gen`: a pulse when the input changes. -/
structure SyncPulseGen where
  q1 : Bool
  q2 : Bool
  q3 : Bool

namespace SyncPulseGen

variable (g : SyncPulseGen)

/-- An edge of the clock to which the change goes. -/
def step (din : Bool) : SyncPulseGen where
  q1 := din
  q2 := g.q1
  q3 := g.q2

/-- `pulse`: the last two registers differ. -/
def pulse : Bool := g.q2 ^^ g.q3

/-- `dout`. -/
def dout : Bool := g.q3

end SyncPulseGen

/-- All registers; `enASync` runs on `clk_b` and `ackBSync` on `clk_a`. -/
structure State (α : Type*) where
  dataInAR : α
  validInAR : Bool
  enA : Bool
  enASync : SyncPulseGen
  dataB : α
  validB : Bool
  ackBSync : SyncPulseGen

/-- A rising edge of one of the two clocks, with the inputs of its side. -/
inductive Edge (α : Type*)
  | a (dataInA : α) (validInA : Bool)
  | b

namespace State

variable (s : State α)

/-- `ready_out_a`: no word is on its way. -/
def readyOutA : Bool := !s.validInAR

/-- `en_b`. -/
def enB : Bool := s.enASync.pulse

/-- `ack_b`. -/
def ackB : Bool := s.enASync.dout

/-- `ack_a`. -/
def ackA : Bool := s.ackBSync.pulse

/-- An edge of `clk_a`. -/
def stepA (dataInA : α) (validInA : Bool) : State α :=
  { s with
    dataInAR := if s.readyOutA then dataInA else s.dataInAR
    validInAR := if s.ackA then false else if s.readyOutA then validInA else s.validInAR
    enA := s.enA ^^ (s.readyOutA && validInA)
    ackBSync := s.ackBSync.step s.ackB }

/-- An edge of `clk_b`. -/
def stepB : State α :=
  { s with
    enASync := s.enASync.step s.enA
    dataB := if s.enB then s.dataInAR else s.dataB
    validB := s.enB }

end State

/-- One edge of one of the clocks. -/
def step (s : State α) : Edge α → State α
  | .a dataInA validInA => s.stepA dataInA validInA
  | .b => s.stepB

/-- The initial values; the two data registers have none. -/
def initial (dataInAR dataB : α) : State α where
  dataInAR := dataInAR
  validInAR := false
  enA := false
  enASync := ⟨false, false, false⟩
  dataB := dataB
  validB := false
  ackBSync := ⟨false, false, false⟩

/-- The word that an edge of `clk_a` accepts. -/
def accepted (s : State α) : Edge α → List α
  | .a dataInA validInA => if s.readyOutA && validInA then [dataInA] else []
  | .b => []

/-- The word that an edge of `clk_b` puts into `data_b`. -/
def captured (s : State α) : Edge α → List α
  | .a _ _ => []
  | .b => if s.enB then [s.stepB.dataB] else []

/-- The word that an edge of `clk_b` sees at the output. -/
def delivered (s : State α) : Edge α → List α
  | .a _ _ => []
  | .b => if s.validB then [s.dataB] else []

/-! ## The handshake -/

namespace State

/-- The phases of the handshake. Without a word all flops agree with `en_a`; with one the change of
`en_a` runs through them, and the last has not seen it. -/
def Handshake (s : State α) : Prop :=
  (s.validInAR = true ∧ s.ackBSync.q3 = !s.enA ∧ (s.ackBSync.q2 = s.enA → s.ackBSync.q1 = s.enA) ∧
      (s.ackBSync.q1 = s.enA → s.enASync.q3 = s.enA) ∧
      (s.enASync.q3 = s.enA → s.enASync.q2 = s.enA) ∧
      (s.enASync.q2 = s.enA → s.enASync.q1 = s.enA)) ∨
    (s.validInAR = false ∧ s.enASync = ⟨s.enA, s.enA, s.enA⟩ ∧ s.ackBSync = ⟨s.enA, s.enA, s.enA⟩)

/-- The word that has been accepted and not been captured. -/
def outstanding (s : State α) : List α := if s.enA ^^ s.ackB then [s.dataInAR] else []

/-- The word that has been captured and not been seen. -/
def shown (s : State α) : List α := if s.validB then [s.dataB] else []

theorem length_outstanding_le (s : State α) : s.outstanding.length ≤ 1 := by
  unfold outstanding
  split <;> simp

end State

variable {s : State α}

theorem handshake_step (h : s.Handshake) (e : Edge α) : (step s e).Handshake := by
  obtain ⟨dataInAR, validInAR, enA, ⟨b1, b2, b3⟩, dataB, validB, ⟨a1, a2, a3⟩⟩ := s
  obtain ⟨rfl, ha3, ha21, hab, hb32, hb21⟩ | ⟨rfl, hb, ha⟩ := h
  · cases e with
    | a dataInA validInA =>
      by_cases ha2 : a2 = enA
      · -- the acknowledgement: the change has come all the way round
        obtain rfl : a1 = enA := ha21 ha2
        obtain rfl : b3 = a1 := hab rfl
        obtain rfl : b2 = b3 := hb32 rfl
        obtain rfl : b1 = b2 := hb21 rfl
        obtain rfl : a2 = b1 := ha2
        obtain rfl : a3 = !a2 := ha3
        exact .inr (by simp [step, State.stepA, State.readyOutA, State.ackA, State.ackB,
          SyncPulseGen.step, SyncPulseGen.pulse, SyncPulseGen.dout])
      · obtain rfl : a2 = !enA := Bool.eq_not_of_ne ha2
        obtain rfl : a3 = !enA := ha3
        exact .inl (by simpa [step, State.stepA, State.readyOutA, State.ackA, State.ackB,
          SyncPulseGen.step, SyncPulseGen.pulse, SyncPulseGen.dout] using ⟨hab, hb32, hb21⟩)
    | b => exact .inl ⟨rfl, ha3, ha21, fun h => hb32 (hab h), hb21, fun _ => rfl⟩
  · obtain ⟨rfl, rfl, rfl⟩ := SyncPulseGen.mk.injEq .. ▸ hb
    obtain ⟨rfl, rfl, rfl⟩ := SyncPulseGen.mk.injEq .. ▸ ha
    cases e with
    | a dataInA validInA =>
      cases validInA
      · exact .inr (by simp [step, State.stepA, State.readyOutA, State.ackA, State.ackB,
          SyncPulseGen.step, SyncPulseGen.pulse, SyncPulseGen.dout])
      · exact .inl (by simp [step, State.stepA, State.readyOutA, State.ackA, State.ackB,
          SyncPulseGen.step, SyncPulseGen.pulse, SyncPulseGen.dout])
    | b => exact .inr ⟨rfl, rfl, rfl⟩

/-- **One edge** keeps the words: an edge of `clk_a` takes one only when none is outstanding, and
an edge of `clk_b` captures the outstanding one. -/
theorem outstanding_step (h : s.Handshake) (e : Edge α) :
    s.outstanding ++ accepted s e = captured s e ++ (step s e).outstanding := by
  obtain ⟨dataInAR, validInAR, enA, ⟨b1, b2, b3⟩, dataB, validB, ⟨a1, a2, a3⟩⟩ := s
  cases e with
  | a dataInA validInA =>
    cases validInAR with
    | true => simp [State.outstanding, accepted, captured, step, State.stepA, State.readyOutA,
        State.ackB]
    | false =>
      obtain ⟨h, -⟩ | ⟨-, hb, -⟩ := h
      · cases h
      obtain ⟨rfl, rfl, rfl⟩ := SyncPulseGen.mk.injEq .. ▸ hb
      cases validInA <;>
        simp [State.outstanding, accepted, captured, step, State.stepA, State.readyOutA,
          State.ackB, SyncPulseGen.dout]
  | b =>
    cases hb : b2 ^^ b3 with
    | true =>
      obtain ⟨rfl, rfl⟩ : b3 = (!enA) ∧ b2 = enA := by
        obtain ⟨-, -, -, -, hb32, -⟩ | ⟨-, hb', -⟩ := h
        · simp only at hb32
          revert b2 b3 enA
          decide
        · obtain ⟨rfl, rfl, rfl⟩ := SyncPulseGen.mk.injEq .. ▸ hb'
          simp at hb
      simp [State.outstanding, accepted, captured, step, State.stepB, State.enB, State.ackB,
        SyncPulseGen.step, SyncPulseGen.pulse, SyncPulseGen.dout]
    | false =>
      obtain rfl : b2 = b3 := by simpa using hb
      simp [State.outstanding, accepted, captured, step, State.stepB, State.enB, State.ackB,
        SyncPulseGen.step, SyncPulseGen.pulse, SyncPulseGen.dout]

/-- The output shows each captured word at the next edge. -/
theorem shown_step (s : State α) (e : Edge α) :
    s.shown ++ captured s e = delivered s e ++ (step s e).shown := by
  cases e with
  | a dataInA validInA => simp [captured, delivered, State.shown, step, State.stepA]
  | b => rfl

/-! ## Runs -/

theorem handshake_run (h : s.Handshake) (es : List (Edge α)) : (run step s es).Handshake := by
  induction es generalizing s with
  | nil => exact h
  | cons e es ih => exact ih (handshake_step h e)

theorem outstanding_run (h : s.Handshake) (es : List (Edge α)) :
    s.outstanding ++ collect step accepted s es =
      collect step captured s es ++ (run step s es).outstanding := by
  induction es generalizing s with
  | nil => simp
  | cons e es ih =>
    rw [collect_cons, ← List.append_assoc, outstanding_step h, List.append_assoc,
      ih (handshake_step h e), collect_cons, List.append_assoc, run_cons]

theorem shown_run (s : State α) (es : List (Edge α)) :
    s.shown ++ collect step captured s es =
      collect step delivered s es ++ (run step s es).shown := by
  induction es generalizing s with
  | nil => simp
  | cons e es ih =>
    rw [collect_cons, ← List.append_assoc, shown_step, List.append_assoc, ih, collect_cons,
      List.append_assoc, run_cons]

/-- The register holds an accepted word until it is captured. -/
theorem dataInAR_of_not_captured (h : s.Handshake) {d : α} (hd : accepted s (.a d true) = [d])
    {es : List (Edge α)} (hes : collect step captured (step s (.a d true)) es = []) :
    (run step s (.a d true :: es)).dataInAR = d := by
  have hone := outstanding_step h (.a d true)
  have hrest := outstanding_run (handshake_step h (.a d true)) es
  have hlength := (step s (.a d true)).length_outstanding_le
  rw [hd, captured, List.nil_append] at hone
  rw [hes, List.nil_append, ← hone] at hrest
  rw [← hone, List.length_append, List.length_singleton] at hlength
  have hnil : s.outstanding = [] := List.eq_nil_of_length_eq_zero (by omega)
  rw [hnil, List.nil_append, List.singleton_append] at hrest
  rw [run_cons]
  unfold State.outstanding at hrest
  split at hrest
  · rw [List.cons.injEq] at hrest
    exact hrest.1.symm
  · cases hrest

/-- **Each word once, and intact.** For any order of the edges and any inputs, the words seen on the
other clock are the first of those accepted, all of which but one have been captured; and an
accepted word stands in its register until it is. -/
theorem delivers_words (dataInAR dataB : α) (es : List (Edge α)) :
    collect step delivered (initial dataInAR dataB) es <+:
        collect step accepted (initial dataInAR dataB) es ∧
      (∃ ws, ws.length ≤ 1 ∧ collect step accepted (initial dataInAR dataB) es =
        collect step captured (initial dataInAR dataB) es ++ ws) ∧
      ∀ ps d ms, es = ps ++ .a d true :: ms →
        (run step (initial dataInAR dataB) ps).readyOutA = true →
        collect step captured (run step (initial dataInAR dataB) (ps ++ [.a d true])) ms = [] →
        (run step (initial dataInAR dataB) es).dataInAR = d := by
  have h : (initial dataInAR dataB).Handshake := Or.inr ⟨rfl, rfl, rfl⟩
  have hsum := outstanding_run h es
  have hshown := shown_run (initial dataInAR dataB) es
  rw [show (initial dataInAR dataB).outstanding = [] from rfl, List.nil_append] at hsum
  rw [show (initial dataInAR dataB).shown = [] from rfl, List.nil_append] at hshown
  refine ⟨?_, ⟨_, State.length_outstanding_le _, hsum⟩, fun ps d ms hes hready hms => ?_⟩
  · rw [hsum, hshown, List.append_assoc]
    exact List.prefix_append _ _
  · rw [run_concat] at hms
    rw [hes, run_append]
    refine dataInAR_of_not_captured (handshake_run h ps) ?_ hms
    simp [accepted, hready]

end RmiiEthernet.WordTransfer
