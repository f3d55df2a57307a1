import RmiiEthernet.Mdio.Slots

/-!
# The frames of the management interface

An observer notes the line at each rising edge of `mdc_out`. What it has noted of an operation is a
row of ones and the beginning of a frame (`Shown`), and each cycle keeps this (`shown_step`). So
every operation sends a frame and takes its end as the data, in a number of cycles that is known
when it is accepted (`sends_frames`).
-/

namespace RmiiEthernet.Mdio

open Sync

/-- The line at a rising edge. -/
structure Edge where
  driven : Option Bool
  mdioIn : Bool

/-- The value of the line, which is pulled up. -/
def Edge.line (e : Edge) : Bool := e.driven.getD true

/-- The circuit with the value of `mdc_out` one cycle ago. -/
structure Scope (n : ℕ) where
  mdcBefore : Bool
  circuit : State (counterBits n)

variable {n : ℕ}

namespace Scope

variable (x : Scope n) (i : Inputs)

/-- One clock edge. -/
def step : Scope n := ⟨mdcOut x.circuit, Mdio.step x.circuit i⟩

/-- The edge of this cycle. -/
def edge : List Edge :=
  if mdcOut x.circuit && !x.mdcBefore then [⟨Mdio.driven x.circuit, i.mdioIn⟩] else []

end Scope

/-- The rising edges of `mdc_out` in the cycles after this one. -/
def edges (s : State (counterBits n)) (is : List Inputs) : List Edge :=
  collect Scope.step Scope.edge ⟨mdcOut s, s⟩ is

theorem edges_cons (s : State (counterBits n)) (i : Inputs) (is : List Inputs) :
    edges s (i :: is) = collect Scope.step Scope.edge (Scope.step ⟨mdcOut s, s⟩ i) is := by
  rw [edges, collect_cons]
  simp [Scope.edge]

/-- No operation is in progress, and none has ended just now. -/
structure Resting (s : State (counterBits n)) : Prop where
  fsmState : s.fsmState = .idle
  opInProgress : s.opInProgress = false
  opDone : s.opDone = false

/-- An operation is observed. After its acceptance the clock may rise at once. -/
structure Watched (x : Scope n) : Prop where
  sending : Sending x.circuit
  before_low : phase x.circuit = n / 2 + 1 → x.mdcBefore = false
  before_high : x.circuit.fsmState ≠ .idle → x.circuit.opInProgress = true →
    n / 2 + 1 < phase x.circuit → x.mdcBefore = true

/-- The clock rises out of phase. -/
def early (x : Scope n) : Bool :=
  x.circuit.fsmState == .idle && (decide (n / 2 + 1 < phase x.circuit) && !x.mdcBefore)

/-- The ones that are left before the frame. -/
def due (x : Scope n) : ℕ := ones x.circuit + (early x).toNat

variable {x : Scope n} {i : Inputs}

@[simp] theorem Scope.step_circuit : (x.step i).circuit = Mdio.step x.circuit i := rfl

theorem Sending.mdcOut_eq {s : State (counterBits n)} (h : Sending s) :
    mdcOut s = decide (n / 2 < phase s ∧ (s.fsmState = .done → phase s = n / 2 + 2)) := by
  rw [mdcOut, h.mdc, h.opInProgress, Bool.decide_and]

/-- The edges of an operation: at the end of each slot but the last, and out of phase. -/
theorem Watched.edge_eq (h : Watched x) :
    x.edge i =
      if (phase x.circuit = n / 2 + 1 ∧ x.circuit.fsmState ≠ .done) ∨ early x = true then
        [⟨driven x.circuit, i.mdioIn⟩]
      else [] := by
  have hprog := h.sending.opInProgress
  have hlow := h.before_low
  have hhigh := h.before_high
  rw [Scope.edge, h.sending.mdcOut_eq]
  congr 1
  simp only [early, Bool.and_eq_true, decide_eq_true_eq, beq_iff_eq, Bool.not_eq_true', eq_iff_iff]
  by_cases hdone : x.circuit.fsmState = .done
  · by_cases hfirst : phase x.circuit = n / 2 + 2
    · simp [hdone, hfirst, hhigh (by simp [hdone]) (by simp [hprog, hdone, hfirst]) (by omega)]
    · simp [hdone, hfirst]
  · have hprog' : x.circuit.opInProgress = true := by simp [hprog, hdone]
    by_cases hphase : phase x.circuit = n / 2 + 1
    · simp [hdone, hphase, hlow hphase]
    · by_cases hgt : n / 2 + 1 < phase x.circuit
      · by_cases hidle : x.circuit.fsmState = .idle
        · simp [hidle, hphase, hgt, show n / 2 < phase x.circuit by omega]
        · simp [hidle, hphase, hhigh hidle hprog' hgt]
      · simp [hphase, hgt, show ¬n / 2 < phase x.circuit by omega]

/-- Each cycle but the last keeps the operation observed. -/
theorem Watched.step (hn : Fits n) (h : Watched x) (hreset : i.reset = false)
    (hlast : ¬(phase x.circuit = n / 2 + 1 ∧ x.circuit.fsmState = .done)) :
    Watched (x.step i) := by
  have hle := h.sending.phase_le
  have hphase := phase_step hn hle hreset
  have hsending : Sending (Mdio.step x.circuit i) := by
    by_cases htick : phase x.circuit = n / 2 + 1
    · exact h.sending.tick hn hreset htick fun hdone => hlast ⟨htick, hdone⟩
    · exact h.sending.step hn hreset htick
  refine ⟨hsending, fun hnext => ?_, fun hidle hprog hnext => ?_⟩
  · rw [Scope.step_circuit, hphase] at hnext
    have hlow : ¬n / 2 < phase x.circuit := by
      split at hnext <;> omega
    simp [Scope.step, h.sending.mdcOut_eq, hlow]
  · rw [Scope.step_circuit, opInProgress_step h.sending hreset] at hprog
    rw [Scope.step_circuit, hphase] at hnext
    have hhigh : n / 2 < phase x.circuit := by
      split at hnext <;> omega
    simp_all [Scope.step, h.sending.mdcOut_eq]

theorem Watched.early_step (hn : Fits n) (h : Watched x) (hreset : i.reset = false)
    (hlast : ¬(phase x.circuit = n / 2 + 1 ∧ x.circuit.fsmState = .done)) :
    early (x.step i) = false := by
  by_contra hne
  simp only [early, Bool.not_eq_false, Bool.and_eq_true, beq_iff_eq, decide_eq_true_eq,
    Bool.not_eq_true'] at hne
  obtain ⟨hidle, hgt, hbefore⟩ := hne
  rw [Scope.step_circuit, phase_step hn h.sending.phase_le hreset] at hgt
  rw [Scope.step_circuit] at hidle
  have hdone : x.circuit.fsmState ≠ .done := by
    intro hdone
    have htick : phase x.circuit ≠ n / 2 + 1 := fun htick => hlast ⟨htick, hdone⟩
    rw [(h.sending.sameSlot hreset htick).fsmState, hdone] at hidle
    cases hidle
  have hhigh : n / 2 < phase x.circuit := by
    split at hgt <;> omega
  simp [Scope.step, h.sending.mdcOut_eq, hhigh, hdone] at hbefore

/-! ## What has been observed -/

theorem Operation.length_afterAddresses (o : Operation) : o.afterAddresses.length = 18 := by
  unfold afterAddresses
  split <;> simp [bitsBelow_length]

theorem Operation.length_frame (o : Operation) : o.frame.length = 32 := by
  simp [frame, bitsBelow_length, o.length_afterAddresses]

/-- The data come last. -/
theorem seventeen_le_owed {s : State (counterBits n)} (hwrite : s.fsmState ≠ .writeData)
    (hread : s.fsmState ≠ .readData) (hdone : s.fsmState ≠ .done) : 17 ≤ (owed s).length := by
  cases hstate : s.fsmState with
  | writeData => exact absurd hstate hwrite
  | readData => exact absurd hstate hread
  | done => exact absurd hstate hdone
  | _ =>
    simp [owed, Operation.rest, hstate, bitsBelow_length, Operation.length_afterAddresses,
      Operation.length_frame]
    try omega

theorem ne_writeData_step {s : State (counterBits n)} (hwrite : s.opIsWriteR = false)
    (hstate : s.fsmState ≠ .writeData) : nextState s ≠ .writeData := by
  unfold nextState
  split
  all_goals try split
  all_goals simp_all

/-- What an observer has noted of an operation: ones, and then a part of the frame, the last 16
slots of which have been read. -/
structure Shown (o : Operation) (total : ℕ) (x : Scope n) (ps fs : List Edge) : Prop where
  operation : operation x.circuit = o
  line : ∀ e ∈ ps, e.line = true
  length : ps.length + due x = total
  frame : fs.map Edge.driven ++ owed x.circuit = o.frame
  read : o.isWrite = false → x.circuit.fsmState ≠ .writeData ∧
    bitsBelow x.circuit.readDataOut 16 =
      (fs.drop 16).map Edge.mdioIn ++ bitsBelow x.circuit.readDataOut (unread x.circuit)

variable {o : Operation} {total : ℕ} {ps fs : List Edge}

theorem Shown.length_add (h : Shown o total x ps fs) :
    fs.length + (owed x.circuit).length = 32 := by
  rw [← o.length_frame, ← h.frame, List.length_append, List.length_map]

/-- Before the frame nothing of it has been shown. -/
theorem Shown.eq_nil (h : Shown o total x ps fs)
    (hstate : x.circuit.fsmState = .idle ∨ x.circuit.fsmState = .preamble) : fs = [] := by
  have hlength := h.length_add
  have howed : (owed x.circuit).length = 32 := by
    rcases hstate with hstate | hstate <;>
      simp [owed, Operation.rest, hstate, Operation.length_frame]
  exact List.eq_nil_of_length_eq_zero (by omega)

theorem mem_append_line {e : Edge} (hps : ∀ e ∈ ps, e.line = true) (he : e.line = true) :
    ∀ e' ∈ ps ++ [e], e'.line = true := by
  intro e' he'
  rcases List.mem_append.mp he' with hmem | hmem
  · exact hps e' hmem
  · rwa [List.mem_singleton.mp hmem]

theorem Watched.due_step (hn : Fits n) (hx : Watched x) (hreset : i.reset = false)
    (hlast : ¬(phase x.circuit = n / 2 + 1 ∧ x.circuit.fsmState = .done)) :
    due (x.step i) = ones (Mdio.step x.circuit i) := by
  rw [due, hx.early_step hn hreset hlast, Bool.toNat_false, Nat.add_zero, Scope.step_circuit]

/-- Within a slot nothing is noted but an edge out of phase. -/
theorem Shown.within (hn : Fits n) (hx : Watched x) (h : Shown o total x ps fs)
    (hreset : i.reset = false) (hne : phase x.circuit ≠ n / 2 + 1) :
    ∃ ps' fs', ps' ++ fs' = ps ++ fs ++ x.edge i ∧ Shown o total (x.step i) ps' fs' := by
  have hdue := hx.due_step hn hreset fun hlast => hne hlast.1
  have hsame := hx.sending.sameSlot hreset hne
  have hop := hsame.operation.trans h.operation
  have hread : o.isWrite = false → (x.step i).circuit.fsmState ≠ .writeData ∧
      bitsBelow (x.step i).circuit.readDataOut 16 = (fs.drop 16).map Edge.mdioIn ++
        bitsBelow (x.step i).circuit.readDataOut (unread (x.step i).circuit) := by
    rw [Scope.step_circuit, hsame.fsmState, hsame.readDataOut, hsame.unread_eq]
    exact h.read
  have hframe : fs.map Edge.driven ++ owed (x.step i).circuit = o.frame := by
    rw [Scope.step_circuit, hsame.owed_eq]
    exact h.frame
  have hlength := h.length
  rw [due] at hlength
  rw [hx.sending.ones_step hreset hne] at hdue
  cases hearly : early x with
  | true =>
    have hidle : x.circuit.fsmState = .idle := by
      simp only [early, Bool.and_eq_true, beq_iff_eq] at hearly
      exact hearly.1
    obtain rfl := h.eq_nil (.inl hidle)
    rw [hearly, Bool.toNat_true] at hlength
    refine ⟨ps ++ [⟨driven x.circuit, i.mdioIn⟩], [], ?_, hop, mem_append_line h.line ?_, ?_,
      hframe, hread⟩
    · simp [hx.edge_eq, hearly]
    · exact (line_eq _).symm.trans (hx.sending.line_idle hidle)
    · rw [hdue, List.length_append, List.length_singleton]
      omega
  | false =>
    rw [hearly, Bool.toNat_false, Nat.add_zero] at hlength
    refine ⟨ps, fs, ?_, hop, h.line, ?_, hframe, hread⟩
    · simp [hx.edge_eq, hearly, hne]
    · rw [hdue, hlength]

/-- At the end of a slot its bit is noted. -/
theorem Watched.edge_tick (hx : Watched x) (htick : phase x.circuit = n / 2 + 1)
    (hdone : x.circuit.fsmState ≠ .done) : x.edge i = [⟨driven x.circuit, i.mdioIn⟩] := by
  rw [hx.edge_eq, if_pos (.inl ⟨htick, hdone⟩)]

theorem Watched.due_tick (htick : phase x.circuit = n / 2 + 1) : due x = ones x.circuit := by
  simp [due, early, htick]

/-- The slots before the frame. -/
theorem Shown.tick_ones (hn : Fits n) (hx : Watched x) (h : Shown o total x ps fs)
    (hreset : i.reset = false) (htick : phase x.circuit = n / 2 + 1)
    (hstate : x.circuit.fsmState = .idle ∨ x.circuit.fsmState = .preamble) :
    ∃ ps' fs', ps' ++ fs' = ps ++ fs ++ x.edge i ∧ Shown o total (x.step i) ps' fs' := by
  have hdone : x.circuit.fsmState ≠ .done := by
    rcases hstate with hstate | hstate <;> simp [hstate]
  have hwrite : x.circuit.fsmState ≠ .writeData := by
    rcases hstate with hstate | hstate <;> simp [hstate]
  have hread : x.circuit.fsmState ≠ .readData := by
    rcases hstate with hstate | hstate <;> simp [hstate]
  have hdue := hx.due_step hn hreset fun hlast => hdone hlast.2
  have hop := (operation_step hreset hx.sending.not_accepts (i := i)).trans h.operation
  have hlength := h.length
  rw [Watched.due_tick htick] at hlength
  obtain rfl := h.eq_nil hstate
  obtain ⟨hones, howed⟩ := hx.sending.ones_tick hreset htick hstate (i := i)
  refine ⟨ps ++ [⟨Mdio.driven x.circuit, i.mdioIn⟩], [], ?_, hop, mem_append_line h.line ?_, ?_, ?_,
    fun hw => ?_⟩
  · simp [hx.edge_tick htick hdone]
  · have hline : Mdio.line x.circuit = true := by
      rcases hstate with hidle | hpre
      · exact hx.sending.line_idle hidle
      · rw [line_eq, hx.sending.driven_eq (by simp [hpre]) (by omega) (by omega)]
        simp [drive, mdioTristateComb, mdioOutputComb, hpre]
    exact (line_eq _).symm.trans hline
  · rw [hdue, List.length_append, List.length_singleton]
    omega
  · rw [Scope.step_circuit, howed]
    exact h.frame
  · obtain ⟨hunread, hdata⟩ := hx.sending.unread_tick hreset htick hread hwrite hdone (i := i)
    rw [Scope.step_circuit, hunread, hdata]
    refine ⟨?_, (h.read hw).2⟩
    rw [hx.sending.fsmState_tick hreset htick]
    exact ne_writeData_step (by rw [← hw, ← h.operation]; rfl) hwrite

/-- The slots of the frame. -/
theorem Shown.tick_frame (hn : Fits n) (hx : Watched x) (h : Shown o total x ps fs)
    (hreset : i.reset = false) (htick : phase x.circuit = n / 2 + 1)
    (hidle : x.circuit.fsmState ≠ .idle) (hpre : x.circuit.fsmState ≠ .preamble)
    (hdone : x.circuit.fsmState ≠ .done) :
    ∃ ps' fs', ps' ++ fs' = ps ++ fs ++ x.edge i ∧ Shown o total (x.step i) ps' fs' := by
  have hdue := hx.due_step hn hreset fun hlast => hdone hlast.2
  have hop := (operation_step hreset hx.sending.not_accepts (i := i)).trans h.operation
  have hlength := h.length
  have hadd := h.length_add
  have howed := hx.sending.owed_tick hreset htick hidle hpre hdone (i := i)
  have hstate := hx.sending.fsmState_tick hreset htick (i := i)
  rw [Watched.due_tick htick, ones_eq_zero hidle hpre] at hlength
  refine ⟨ps, fs ++ [⟨Mdio.driven x.circuit, i.mdioIn⟩], ?_, hop, h.line, ?_, ?_, fun hw => ?_⟩
  · rw [hx.edge_tick htick hdone, List.append_assoc]
  · rw [hdue, ones_eq_zero (hstate ▸ hx.sending.nextState_ne_idle hdone)
      (hstate ▸ nextState_ne_preamble hidle hpre), hlength]
  · rw [List.map_append, List.append_assoc, List.map_singleton, Scope.step_circuit,
      hx.sending.driven_eq hidle (by omega) (by omega), List.singleton_append, ← howed]
    exact h.frame
  · obtain ⟨hwrite, hread⟩ := h.read hw
    rw [Scope.step_circuit, hstate]
    refine ⟨ne_writeData_step (by rw [← hw, ← h.operation]; rfl) hwrite, ?_⟩
    by_cases hreads : x.circuit.fsmState = .readData
    · -- a bit of the data
      have hsixteen : 16 ≤ fs.length := by
        have hbits := congrArg List.length hread
        have howes : (owed x.circuit).length = unread x.circuit := by
          simp [owed, Operation.rest, unread, hreads]
        simp only [List.length_append, List.length_map, List.length_drop, bitsBelow_length] at hbits
        omega
      rw [hx.sending.read_tick hreset htick hreads hread, List.drop_append_of_le_length hsixteen,
        List.map_append]
      rfl
    · have hfew : fs.length ≤ 15 := by
        have hmany := seventeen_le_owed hwrite hreads hdone
        omega
      obtain ⟨hunread, hdata⟩ := hx.sending.unread_tick hreset htick hreads hwrite hdone (i := i)
      rw [hunread, hdata, hread, List.drop_eq_nil_of_le (by omega),
        List.drop_eq_nil_of_le (by rw [List.length_append, List.length_singleton]; omega)]

/-- **Each cycle** but the last notes a one before the frame, the next slot of the frame, or
nothing. -/
theorem Shown.step (hn : Fits n) (hx : Watched x) (h : Shown o total x ps fs)
    (hreset : i.reset = false)
    (hlast : ¬(phase x.circuit = n / 2 + 1 ∧ x.circuit.fsmState = .done)) :
    ∃ ps' fs', ps' ++ fs' = ps ++ fs ++ x.edge i ∧ Shown o total (x.step i) ps' fs' := by
  by_cases htick : phase x.circuit = n / 2 + 1
  · by_cases hstate : x.circuit.fsmState = .idle ∨ x.circuit.fsmState = .preamble
    · exact h.tick_ones hn hx hreset htick hstate
    · obtain ⟨hidle, hpre⟩ := not_or.mp hstate
      exact h.tick_frame hn hx hreset htick hidle hpre fun hdone => hlast ⟨htick, hdone⟩
  · exact h.within hn hx hreset htick

/-! ## Whole operations -/

theorem Resting.ready_eq {s : State (counterBits n)} (h : Resting s) : ready s = true := by
  simp [ready, h.fsmState, h.opInProgress]

theorem Resting.step {s : State (counterBits n)} (h : Resting s) (hreset : i.reset = false)
    (haccepts : accepts s i = false) : Resting (step s i) := by
  refine ⟨?_, ?_, ?_⟩
  · rw [fsmState_step hreset, nextState, h.fsmState]
    simp [h.opInProgress]
  · simp [Mdio.step, haccepts, h.opInProgress]
  · simp [opDone_step, h.fsmState]

theorem Resting.edge_eq (h : Resting x.circuit) : x.edge i = [] := by
  simp [Scope.edge, mdcOut, h.opInProgress]

/-- The last cycle of an operation. -/
theorem Watched.finish (h : Watched x) (hreset : i.reset = false)
    (htick : phase x.circuit = n / 2 + 1) (hdone : x.circuit.fsmState = .done) :
    Resting (Mdio.step x.circuit i) ∧ x.edge i = [] ∧ left x.circuit = 1 := by
  refine ⟨⟨?_, ?_, ?_⟩, ?_, ?_⟩
  · rw [h.sending.fsmState_tick hreset htick, nextState, hdone]
  · rw [opInProgress_step h.sending hreset, hdone]
    simp
  · rw [opDone_step, h.sending.opFinishedR, hdone, htick]
    simp
  · rw [h.edge_eq, hdone, early, hdone]
    simp
  · rw [left, toTick, htick, ones_eq_zero (by simp [hdone]) (by simp [hdone]), owed, hdone]
    simp [Operation.rest]

theorem Watched.left_step (hn : Fits n) (h : Watched x) (hreset : i.reset = false)
    (hlast : ¬(phase x.circuit = n / 2 + 1 ∧ x.circuit.fsmState = .done)) :
    left x.circuit = left (Mdio.step x.circuit i) + 1 := by
  by_cases htick : phase x.circuit = n / 2 + 1
  · exact h.sending.left_tick hn hreset htick fun hdone => hlast ⟨htick, hdone⟩
  · exact h.sending.left_step hn hreset htick

/-- An operation that goes on has ended its slots `n + 1` cycles before it is over. -/
theorem Watched.opDone_iff (hn : Fits n) (h : Watched x) :
    (x.circuit.opDone = true ↔ left x.circuit = n) ∧
      (left x.circuit ≤ n → x.circuit.fsmState = .done) := by
  have h6 := hn.six_le
  have hle := h.sending.phase_le
  rw [h.sending.opDone]
  by_cases hdone : x.circuit.fsmState = .done
  · have hleft : left x.circuit = toTick x.circuit + 1 := by
      rw [left, ones_eq_zero (by simp [hdone]) (by simp [hdone]), owed, hdone]
      simp [Operation.rest]
    refine ⟨?_, fun _ => hdone⟩
    rw [hleft, toTick]
    simp only [hdone, true_and, decide_eq_true_eq]
    split <;> omega
  · have hpos : 1 ≤ ones x.circuit + (owed x.circuit).length := by
      by_cases hwrite : x.circuit.fsmState = .writeData ∨ x.circuit.fsmState = .readData
      · rcases hwrite with hstate | hstate <;>
          simp [owed, Operation.rest, hstate, bitsBelow_length] <;> omega
      · obtain ⟨hwrite, hread⟩ := not_or.mp hwrite
        have := seventeen_le_owed hwrite hread hdone
        omega
    have hmul := Nat.mul_le_mul_left (n + 1) hpos
    have hleft : n + 2 ≤ left x.circuit := by
      rw [left]
      omega
    refine ⟨?_, fun h => ?_⟩
    · simp only [hdone, false_and, decide_false, Bool.false_eq_true, false_iff]
      omega
    · omega

/-- At the end of the last slot nothing is left to be noted. -/
theorem Shown.whole (h : Shown o total x ps fs) (hdone : x.circuit.fsmState = .done) :
    ps.length = total ∧ fs.map Edge.driven = o.frame := by
  have hlength := h.length
  have hframe := h.frame
  have hearly : early x = false := by simp [early, hdone]
  rw [due, ones_eq_zero (by simp [hdone]) (by simp [hdone]), hearly] at hlength
  rw [owed, hdone, Operation.rest, List.append_nil] at hframe
  exact ⟨hlength, hframe⟩

/-- Where an operation stands after `m` cycles of `endAt`: it goes on, or it is over. -/
def Stands (o : Operation) (total endAt m : ℕ) (x : Scope n) (ps fs : List Edge) : Prop :=
  (Watched x ∧ Shown o total x ps fs ∧ m + left x.circuit = endAt) ∨
    (Resting x.circuit ∧ (∀ e ∈ ps, e.line = true) ∧ ps.length = total ∧
      fs.map Edge.driven = o.frame ∧ endAt ≤ m)

theorem stands_step (hn : Fits n) {endAt m : ℕ} (h : Stands o total endAt m x ps fs)
    (hreset : i.reset = false) (haccepts : accepts x.circuit i = false) :
    ∃ ps' fs', ps' ++ fs' = ps ++ fs ++ x.edge i ∧
      Stands o total endAt (m + 1) (x.step i) ps' fs' := by
  rcases h with ⟨hx, hshown, hm⟩ | ⟨hrest, hline, hlength, hframe, hm⟩
  · by_cases hlast : phase x.circuit = n / 2 + 1 ∧ x.circuit.fsmState = .done
    · obtain ⟨htick, hdone⟩ := hlast
      obtain ⟨hrest, hedge, hleft⟩ := hx.finish hreset htick hdone
      obtain ⟨hlength, hframe⟩ := hshown.whole hdone
      exact ⟨ps, fs, by rw [hedge, List.append_nil],
        .inr ⟨hrest, hshown.line, hlength, hframe, by omega⟩⟩
    · obtain ⟨ps', fs', heq, hshown'⟩ := hshown.step hn hx hreset hlast
      have hleft := hx.left_step hn hreset hlast
      refine ⟨ps', fs', heq, .inl ⟨hx.step hn hreset hlast, hshown', ?_⟩⟩
      rw [Scope.step_circuit]
      omega
  · exact ⟨ps, fs, by rw [hrest.edge_eq, List.append_nil],
      .inr ⟨hrest.step hreset haccepts, hline, hlength, hframe, by omega⟩⟩

theorem stands_run (hn : Fits n) {endAt : ℕ} (h : Stands o total endAt 0 x [] [])
    {js : List Inputs}
    (hjs : Always Scope.step (fun x j => j.reset = false ∧ accepts x.circuit j = false) x js) :
    ∃ ps fs, collect Scope.step Scope.edge x js = ps ++ fs ∧
      Stands o total endAt js.length (run Scope.step x js) ps fs := by
  induction js using List.reverseRecOn with
  | nil => exact ⟨[], [], rfl, h⟩
  | append_singleton js j ih =>
    rw [always_append, always_cons] at hjs
    obtain ⟨hjs, ⟨hreset, haccepts⟩, -⟩ := hjs
    obtain ⟨ps, fs, heq, hstands⟩ := ih hjs
    obtain ⟨ps', fs', heq', hstands'⟩ := stands_step hn hstands hreset haccepts
    refine ⟨ps', fs', ?_, ?_⟩
    · rw [collect_concat, heq, heq']
    · rw [run_concat, List.length_append, List.length_singleton]
      exact hstands'

section Stands

variable {endAt m : ℕ}

theorem Stands.ready_iff (h : Stands o total endAt m x ps fs) :
    ready x.circuit = true ↔ endAt ≤ m := by
  rcases h with ⟨hx, -, hm⟩ | ⟨hrest, -, -, -, hm⟩
  · have hpos : 1 ≤ left x.circuit := by
      rw [left]
      omega
    rw [hx.sending.ready_eq]
    simp only [Bool.false_eq_true, false_iff]
    omega
  · exact iff_of_true hrest.ready_eq hm

theorem Stands.opDone_iff (hn : Fits n) (hend : n < endAt)
    (h : Stands o total endAt m x ps fs) : x.circuit.opDone = true ↔ m = endAt - n := by
  have h6 := hn.six_le
  rcases h with ⟨hx, -, hm⟩ | ⟨hrest, -, -, -, hm⟩
  · rw [(hx.opDone_iff hn).1]
    omega
  · rw [hrest.opDone]
    simp only [Bool.false_eq_true, false_iff]
    omega

/-- From `op_done` on the whole frame has been shown. -/
theorem Stands.whole (hn : Fits n) (h : Stands o total endAt m x ps fs) (hm : endAt - n ≤ m) :
    (∀ e ∈ ps, e.line = true) ∧ ps.length = total ∧ fs.map Edge.driven = o.frame := by
  rcases h with ⟨hx, hshown, hleft⟩ | ⟨-, hline, hlength, hframe, -⟩
  · exact ⟨hshown.line, hshown.whole ((hx.opDone_iff hn).2 (by omega))⟩
  · exact ⟨hline, hlength, hframe⟩

/-- With `op_done` the word that has been read is there. -/
theorem Stands.readDataOut (hn : Fits n) (hend : n < endAt) (h : Stands o total endAt m x ps fs)
    (hm : m = endAt - n) (hread : o.isWrite = false) :
    bitsBelow x.circuit.readDataOut 16 = (fs.drop 16).map Edge.mdioIn := by
  have h6 := hn.six_le
  rcases h with ⟨hx, hshown, hleft⟩ | ⟨-, -, -, -, hleft⟩
  · rw [(hshown.read hread).2, unread, (hx.opDone_iff hn).2 (by omega), bitsBelow,
      List.append_nil]
  · omega

end Stands

section Acceptance

variable {s : State (counterBits n)}

theorem operation_accepted (hreset : i.reset = false) (haccepts : accepts s i = true) :
    operation (step s i) = i.operation := by
  simp [operation, Inputs.operation, step, hreset, haccepts]

/-- The acceptance begins an operation. -/
theorem watched_accepted (hn : Fits n) (hs : Sound s) (hreset : i.reset = false)
    (haccepts : accepts s i = true) : Watched (Scope.step ⟨mdcOut s, s⟩ i) := by
  obtain ⟨hidle, hprog⟩ := idle_of_accepts haccepts
  have hnext := fsmState_accepted hreset haccepts
  refine ⟨⟨hs.toTimed.step hn, hs.toTimed.mdcFalling_step hn hreset, ?_, ?_, ?_,
    fun h => absurd hnext h, fun h => absurd hnext h, fun _ => ?_⟩, fun _ => ?_,
    fun h => absurd hnext h⟩
  · simp [opInProgress_accepted hreset haccepts, hnext]
  · simp [opFinishedR_step, hidle, hnext]
  · simp [opDone_step, hidle, hnext]
  · exact line_step_eq_true hreset (fun _ => hs.line_idle hidle) (.inl hidle)
  · simp [Scope.step, mdcOut, hprog]

theorem shown_accepted (hreset : i.reset = false) (haccepts : accepts s i = true) :
    Shown i.operation (due (Scope.step ⟨mdcOut s, s⟩ i)) (Scope.step ⟨mdcOut s, s⟩ i) [] [] := by
  have hnext := fsmState_accepted hreset haccepts
  have hop := operation_accepted hreset haccepts
  refine ⟨hop, by simp, by simp, ?_, fun _ => ⟨?_, ?_⟩⟩
  · simp [owed, Operation.rest, hnext, hop]
  · simp [hnext]
  · simp [unread, hnext]

end Acceptance

/-- Without a request nothing is accepted. -/
theorem always_quiet {s : State (counterBits n)} (m : ℕ) :
    Always step (fun s j => j.reset = false ∧ accepts s j = false) s (List.replicate m quiet) :=
  (always_of_forall (P := fun j => j.reset = false ∧ j.sendMsgIn = false)
    (fun j hj => List.eq_of_mem_replicate hj ▸ ⟨rfl, rfl⟩) s).mono
    fun _ _ h => ⟨h.1, by simp [accepts, h.2]⟩

/-- **Every operation sends its frame.** From any reachable state in which an operation is accepted,
for all inputs that come afterwards, up to the next acceptance: it is ready again after `endAt`
cycles and not before, and `op_done` is high in one cycle, before that. By then the line has been at
`1` at some rising edges of `mdc_out` and shown the frame at the others, and for a read the word is
what has come in at the last 16 of them. -/
theorem sends_frames (hn : Fits n) {s₀ : State (counterBits n)} (hs₀ : PowerUp s₀)
    (hs : List Inputs) {i : Inputs} (hreset : i.reset = false)
    (haccepts : accepts (run step s₀ hs) i = true) :
    ∃ doneAt endAt, doneAt < endAt ∧
      ∀ js, Always step (fun s j => j.reset = false ∧ accepts s j = false)
          (step (run step s₀ hs) i) js →
        (ready (run step s₀ (hs ++ i :: js)) = true ↔ endAt ≤ js.length) ∧
        ((run step s₀ (hs ++ i :: js)).opDone = true ↔ js.length = doneAt) ∧
        (doneAt ≤ js.length →
          ∃ ps fs, edges (run step s₀ hs) (i :: js) = ps ++ fs ∧ (∀ e ∈ ps, e.line = true) ∧
            fs.map Edge.driven = i.operation.frame ∧
            (js.length = doneAt → i.writeEnableIn = false →
              bitsBelow (run step s₀ (hs ++ i :: js)).readDataOut 16 =
                (fs.drop 16).map Edge.mdioIn)) := by
  have hsound := sound_run hn hs₀ hs
  have hx := watched_accepted hn hsound hreset haccepts
  have hshown := shown_accepted hreset haccepts
  generalize hy : Scope.step ⟨mdcOut (run step s₀ hs), run step s₀ hs⟩ i = y at hx hshown
  have hcircuit : y.circuit = step (run step s₀ hs) i := by rw [← hy, Scope.step_circuit]
  have h6 := hn.six_le
  have hfirst : n < left y.circuit := by
    by_contra hlt
    have hidle := fsmState_accepted hreset haccepts
    rw [← hcircuit, (hx.opDone_iff hn).2 (by omega)] at hidle
    cases hidle
  refine ⟨left y.circuit - n, left y.circuit, by omega, fun js hjs => ?_⟩
  rw [← hcircuit] at hjs
  rw [run_append, run_cons, ← hcircuit]
  have hedges : edges (run step s₀ hs) (i :: js) = collect Scope.step Scope.edge y js := by
    rw [edges_cons, hy]
  obtain ⟨ps, fs, heq, hstands⟩ := stands_run hn (.inl ⟨hx, hshown, Nat.zero_add _⟩)
    ((always_proj (π := Scope.circuit) (fun _ _ => rfl) y js).mpr hjs)
  have hrun : (run Scope.step y js).circuit = run step y.circuit js :=
    run_proj (π := Scope.circuit) (fun _ _ => rfl) y js
  rw [hedges, heq, ← hrun]
  refine ⟨hstands.ready_iff, hstands.opDone_iff hn hfirst, fun hdone => ⟨ps, fs, rfl, ?_⟩⟩
  obtain ⟨hline, -, hframe⟩ := hstands.whole hn hdone
  exact ⟨hline, hframe, hstands.readDataOut hn hfirst⟩

/-- A read from power-up, and nothing else: it comes to its end. -/
theorem sends_frames_read :
    ∃ doneAt endAt, doneAt < endAt ∧
      (run step (initial (counterBits 6))
        (⟨false, true, false, 9, 3, 0, false⟩ :: List.replicate doneAt quiet)).opDone = true ∧
      ready (run step (initial (counterBits 6))
        (⟨false, true, false, 9, 3, 0, false⟩ :: List.replicate endAt quiet)) = true := by
  obtain ⟨doneAt, endAt, hlt, h⟩ := sends_frames (n := 6) ⟨by decide, by decide⟩
    (powerUp_initial _) [] (i := ⟨false, true, false, 9, 3, 0, false⟩) rfl rfl
  refine ⟨doneAt, endAt, hlt, (h _ (always_quiet doneAt)).2.1.mpr List.length_replicate,
    (h _ (always_quiet endAt)).1.mpr List.length_replicate.ge⟩

end RmiiEthernet.Mdio
