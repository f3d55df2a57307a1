import RmiiEthernet.PacketAfifo.Circuit

/-!
# The pulse transfer

`pulse_transfer` holds a pulse of the one clock until it has come back from the other: four phases,
in which `a_pulse_r` rises, `b_ff` follows, `a_pulse_r` falls and `b_ff` follows again. The pulse is
owed from its acceptance to the edge of `clk_b` that sees `b_ff` rise (`owes_step`).
-/

namespace RmiiEthernet.PacketAfifo.PulseTransfer

open Sync

/-- A rising edge of one of the two clocks. -/
inductive Edge
  | a (aPulseIn : Bool)
  | b
  deriving DecidableEq

variable (c : PulseTransfer) (e : Edge)

/-- `a_ready_out`: no pulse is on its way. -/
def aReadyOut : Bool := !(c.ack.syncOut || c.aPulseR)

/-- One edge of one of the clocks. -/
def step : PulseTransfer :=
  match e with
  | .a aPulseIn => c.stepA aPulseIn
  | .b => c.stepB

/-- The initial values. -/
def initial : PulseTransfer := ⟨false, ⟨false, false⟩, false, false, false⟩

/-- A pulse comes only when the circuit is ready. -/
def Heeds : Prop := e = .a true → c.aReadyOut = true

instance : Decidable (Heeds c e) := inferInstanceAs (Decidable (_ → _))

/-- The pulse that an edge of `clk_a` accepts. -/
def accepted : List Unit := if e = .a true then [()] else []

/-- The pulse that an edge of `clk_b` sees. -/
def delivered : List Unit := if e = .b ∧ c.bPulseOut = true then [()] else []

/-- Whether a pulse has been accepted and not delivered, in each of the phases: `a_pulse_r` has
risen, `b_ff` has risen, its last stage has, and both fall. -/
def Owes (owed : Bool) : Prop :=
  (owed = true ∧ c.aPulseR = true ∧ c.bFf1 = false ∧ c.ack.ff0 = false ∧ c.ack.ff1 = false) ∨
    (owed = true ∧ c.bFf0 = true ∧ c.bFf1 = true ∧ c.bFf2 = false ∧
      (c.ack.ff1 = true → c.ack.ff0 = true) ∧ (c.aPulseR = false → c.ack.ff1 = true)) ∨
    (owed = false ∧ c.bFf1 = true ∧ c.bFf2 = true ∧ (c.aPulseR = true → c.bFf0 = true) ∧
      (c.ack.ff1 = true → c.ack.ff0 = true) ∧ (c.aPulseR = false → c.ack.ff1 = true)) ∨
    (owed = false ∧ c.aPulseR = false ∧ c.bFf0 = false ∧ c.bFf1 = false ∧
      (c.ack.ff0 = true → c.ack.ff1 = true))

instance (owed : Bool) : Decidable (c.Owes owed) := inferInstanceAs (Decidable (_ ∨ _))

variable {c e}

/-- **One edge** conserves the pulses. -/
theorem owes_step {owed : Bool} (h : c.Owes owed) (he : Heeds c e) :
    ∃ owed' : Bool, (c.step e).Owes owed' ∧
      List.replicate owed.toNat () ++ accepted e =
        delivered c e ++ List.replicate owed'.toNat () := by
  obtain ⟨aPulseR, ⟨ff0, ff1⟩, bFf0, bFf1, bFf2⟩ := c
  cases e with
  | a aPulseIn =>
    revert aPulseR ff0 ff1 bFf0 bFf1 bFf2 aPulseIn owed
    decide
  | b =>
    revert aPulseR ff0 ff1 bFf0 bFf1 bFf2 owed
    decide

/-- Nothing is owed when the circuit is ready. -/
theorem Owes.eq_false_of_ready {owed : Bool} (h : c.Owes owed) (hready : c.aReadyOut = true) :
    owed = false := by
  simp only [aReadyOut, Afifo.BitSynchroniser.syncOut, Bool.not_eq_true',
    Bool.or_eq_false_iff] at hready
  rcases h with ⟨-, ha, -⟩ | ⟨-, -, -, -, -, ha⟩ | ⟨h, -⟩ | ⟨h, -⟩
  · simp [hready.2] at ha
  · simp [hready.1, hready.2] at ha
  · exact h
  · exact h

/-- The pulses of a run are delivered, but for one that is owed. -/
theorem Owes.run {owed : Bool} (h : c.Owes owed) {es : List Edge} (hes : Always step Heeds c es) :
    ∃ owed' : Bool, (run step c es).Owes owed' ∧
      List.replicate owed.toNat () ++ es.flatMap accepted =
        collect step delivered c es ++ List.replicate owed'.toNat () := by
  induction es generalizing c owed with
  | nil => exact ⟨owed, h, by simp⟩
  | cons e es ih =>
    obtain ⟨owed₁, h₁, hone⟩ := owes_step h hes.1
    obtain ⟨owed₂, h₂, hrest⟩ := ih h₁ hes.2
    refine ⟨owed₂, h₂, ?_⟩
    rw [List.flatMap_cons, collect_cons, ← List.append_assoc, hone, List.append_assoc, hrest,
      List.append_assoc]

/-- The last stage follows the one before it at every edge of `clk_b`, and no edge of `clk_a`
changes them. -/
theorem bPulseOut_step_b (hpulse : c.bPulseOut = true) {es : List Edge}
    (hes : ∀ e ∈ es, e ≠ .b) : (run step (c.step .b) es).bPulseOut = false := by
  have hb : (run step (c.step .b) es).bFf2 = true := by
    induction es using List.reverseRecOn with
    | nil =>
      simp only [bPulseOut, Bool.and_eq_true] at hpulse
      exact hpulse.2
    | append_singleton es e ih =>
      rw [run_concat]
      cases e with
      | a aPulseIn => exact ih fun e he => hes e (List.mem_append_left _ he)
      | b => exact absurd rfl (hes .b (by simp))
  rw [bPulseOut, hb]
  rfl

/-- **Each pulse once.** For any order of the edges and any pulses that come when the circuit is
ready, the pulses seen on the other clock are as many as those accepted, but for one at most, and
for none when the circuit is ready; and no pulse is seen twice. -/
theorem delivers_pulses {es : List Edge} (h : Always step Heeds initial es) :
    (collect step delivered initial es).length ≤ (es.flatMap accepted).length ∧
      (es.flatMap accepted).length ≤ (collect step delivered initial es).length + 1 ∧
      ((run step initial es).aReadyOut = true →
        (es.flatMap accepted).length = (collect step delivered initial es).length) ∧
      ∀ as, (∀ e ∈ as, e ≠ .b) → (run step initial es).bPulseOut = true →
        (run step initial (es ++ .b :: as)).bPulseOut = false := by
  obtain ⟨owed, howes, hsum⟩ := Owes.run (show Owes initial false by decide) h
  have hlength := congrArg List.length hsum
  rw [Bool.toNat_false, List.replicate_zero, List.nil_append, List.length_append,
    List.length_replicate] at hlength
  have howed := owed.toNat_le
  refine ⟨by omega, by omega, fun hready => ?_, fun as has hpulse => ?_⟩
  · rw [howes.eq_false_of_ready hready, Bool.toNat_false] at hlength
    exact hlength
  · rw [run_append, run_cons]
    exact bPulseOut_step_b hpulse has

/-- Two pulses, the second of which has been accepted and not been seen. -/
theorem delivers_pulses_twice :
    ∃ es : List Edge, Always step Heeds initial es ∧ (es.flatMap accepted).length = 2 ∧
      (collect step delivered initial es).length = 1 ∧
      (es.flatMap accepted).length ≤ (collect step delivered initial es).length + 1 :=
  ⟨[.a true, .b, .b, .b, .a false, .a false, .a false, .b, .b, .a false, .a false, .a true, .b],
    by decide, by decide, by decide, (delivers_pulses (by decide)).2.1⟩

end RmiiEthernet.PacketAfifo.PulseTransfer
