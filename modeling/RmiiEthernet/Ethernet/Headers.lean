import RmiiEthernet.Ethernet.Framer

/-!
# The headers of the frames

`ethernet_framer` samples the address of the receiver and the type when it begins a frame, and reads
the address of the sender from its port byte by byte while it sends the header. So the port has to
stand still for a frame, but not for a run. `frames` lists the frames of a run with the cycle in
which each was begun; whatever happens at the ports, resets included, a frame has the receiver and
the type with which it was begun, and if it was begun after the last change of the port, its sender
(`good_frames`).

What is followed is the frame in progress up to the byte between the two state machines (`Current`).
-/

namespace RmiiEthernet.EthernetFramer

open Sync EthernetFcs EthernetFrame

/-! ## Frames and their beginnings -/

/-- The beginning of a frame: the address of the receiver, the `tuser` bit and the cycle. -/
structure Begun where
  dst : BitVec 48
  tuser : Bool
  cycle : ℕ
  deriving DecidableEq

/-- The frame that is begun in cycle `t`. -/
def begun (t : ℕ) (s : State) (i : Inputs) : List Begun :=
  if starts s i then [⟨i.destinationMacIn, i.sAxisTuser, t⟩] else []

/-- The framer under observation. -/
structure Observed where
  /-- The framer and what has been taken of the frame in progress. -/
  port : State × List Byte
  cycle : ℕ
  /-- The frames that are not complete. -/
  begun : List Begun

/-- The frame that a cycle completes. -/
def completed (x : Observed) (i : Inputs) : List (List Byte) := completes taken x.port i

/-- One clock edge. A reset cuts off the frames that are not complete. -/
def observe (x : Observed) (i : Inputs) : Observed where
  port := cutting step (fun _ i => i.reset) taken x.port i
  cycle := x.cycle + 1
  begun :=
    if i.reset then []
    else x.begun.drop (completed x i).length ++ begun x.cycle x.port.1 i

/-- The frame that a cycle completes, with its beginning. -/
def framesOf (x : Observed) (i : Inputs) : List (Begun × List Byte) :=
  x.begun.zip (completed x i)

/-- Nothing has been observed yet. -/
def observed (s : State) : Observed := ⟨(s, []), 0, []⟩

/-- **The frames of a run**, each with its beginning. -/
def frames (s : State) (is : List Inputs) : List (Begun × List Byte) :=
  collect observe framesOf (observed s) is

/-- A state between two frames: the initial one, and the one that a reset leads to. -/
structure AtRest (s : State) : Prop where
  framerState : s.framerState = .idle
  fcsState : s.fcsState = .data
  framedTvalid : s.framedTvalid = false
  framedTlast : s.framedTlast = false
  outputTvalid : s.outputTvalid = false

instance (s : State) : Decidable (AtRest s) :=
  decidable_of_iff (s.framerState = .idle ∧ s.fcsState = .data ∧ s.framedTvalid = false ∧
      s.framedTlast = false ∧ s.outputTvalid = false)
    ⟨fun ⟨h₁, h₂, h₃, h₄, h₅⟩ => ⟨h₁, h₂, h₃, h₄, h₅⟩,
      fun ⟨h₁, h₂, h₃, h₄, h₅⟩ => ⟨h₁, h₂, h₃, h₄, h₅⟩⟩

theorem atRest_reset {s : State} {i : Inputs} (h : i.reset = true) : AtRest (step s i) := by
  constructor <;> simp [step, framerProcess, outputProcess, h]

theorem AfterReset.atRest {s : State} (h : AfterReset s) : AtRest s := by
  obtain ⟨s₀, i, hi, rfl⟩ := h
  exact atRest_reset hi

section Cycle

variable {src : BitVec 48} {T t : ℕ} {s : State} {i : Inputs} {a : Begun} {f o : List Byte}

/-- Where the bytes `f` are those of the header, as far as it is known: the address of the sender is
known from cycle `T` on. -/
def Shows (src : BitVec 48) (T : ℕ) (a : Begun) (f : List Byte) : Prop :=
  ∀ j < f.length, j < 14 → T ≤ a.cycle ∨ j < 6 ∨ 12 ≤ j →
    f[j]? = (header a.dst src a.tuser)[j]?

theorem shows_nil : Shows src T a [] := fun _ h => absurd h (Nat.not_lt_zero _)

/-- Behind the header anything may follow. -/
theorem Shows.append (h : Shows src T a f) (hlen : 14 ≤ f.length) (d : List Byte) :
    Shows src T a (f ++ d) := by
  intro j _ hlt hknown
  rw [List.getElem?_append_left (by omega)]
  exact h j (by omega) hlt hknown

/-- Outside the address of the sender the header does not depend on it. -/
theorem getElem?_header {j : ℕ} (h : j < 6 ∨ 12 ≤ j) (dst src src' : BitVec 48) (arp : Bool) :
    (header dst src arp)[j]? = (header dst src' arp)[j]? := by
  rcases h with h | h
  · rw [header, header, List.append_assoc, List.append_assoc,
      List.getElem?_append_left (by simpa using h), List.getElem?_append_left (by simpa using h)]
  · rw [header, header, List.getElem?_append_right (by simpa using h),
      List.getElem?_append_right (by simpa using h)]
    rfl

/-- One more byte of the header. -/
theorem Shows.concat (h : Shows src T a f) {src' : BitVec 48} (hsrc : T ≤ a.cycle → src' = src)
    {b : Byte} (hb : (header a.dst src' a.tuser)[f.length]? = some b) :
    Shows src T a (f ++ [b]) := by
  intro j hj hlt hknown
  rw [List.length_append, List.length_singleton] at hj
  rcases Nat.lt_succ_iff_lt_or_eq.mp hj with hj | rfl
  · rw [List.getElem?_append_left hj]
    exact h j hj hlt hknown
  · rw [List.getElem?_concat_length, ← hb]
    rcases hknown with hlate | hout
    · rw [hsrc hlate]
    · exact getElem?_header hout _ _ _ _

/-- A frame with its header. -/
def Good (src : BitVec 48) (T : ℕ) (f : List Byte) (a : Begun) : Prop :=
  14 ≤ f.length ∧ Shows src T a f

theorem Good.append (h : Good src T f a) (d : List Byte) : Good src T (f ++ d) a := by
  refine ⟨?_, h.2.append h.1 d⟩
  rw [List.length_append]
  exact Nat.le_add_right_of_le h.1

/-- **The frame in progress**, of which the bytes `o` have come as far as the output register. -/
inductive Current (src : BitVec 48) (T : ℕ) (s : State) (o : List Byte) : List Begun → Prop
  | idle : s.framerState = .idle → s.fcsState = .data → held s = [] → s.framedTlast = false →
      o = [] → Current src T s o []
  | busy (k : ℕ) (a : Begun) : s.framerState.position = some k → s.fcsState = .data →
      s.framedTlast = false → s.destMacR = a.dst → s.ethertypeSelect = a.tuser →
      min (o ++ held s).length 14 = k → Shows src T a (o ++ held s) → Current src T s o [a]
  | closing (a : Begun) : s.framerState = .fcs1 → s.fcsState = .data → s.framedTlast = true →
      Good src T (o ++ held s) a → Current src T s o [a]
  | inserting (a : Begun) : s.fcsState ≠ .data → s.framerState = s.fcsState.ahead →
      held s = [] → s.framedTlast = false → Good src T o a → Current src T s o [a]

theorem begun_eq_nil (h : s.framerState ≠ .idle) : begun t s i = [] := by
  simp [begun, starts, h]

theorem Current.step_stalled {cur : List Begun} (h : Current src T s o cur)
    (hready : outputReady s i = false) (hreset : i.reset = false) :
    Current src T (step s i) o cur := by
  rw [step_of_stalled hready hreset]
  cases h with
  | idle h₁ h₂ h₃ h₄ h₅ => exact .idle h₁ h₂ h₃ h₄ h₅
  | busy k a h₁ h₂ h₃ h₄ h₅ h₆ h₇ => exact .busy k a h₁ h₂ h₃ h₄ h₅ h₆ h₇
  | closing a h₁ h₂ h₃ h₄ => exact .closing a h₁ h₂ h₃ h₄
  | inserting a h₁ h₂ h₃ h₄ h₅ => exact .inserting a h₁ h₂ h₃ h₄ h₅

/-- The framer is idle: it goes on waiting or begins the next frame. -/
theorem current_idle (hidle : s.framerState = .idle) (hready : outputReady s i = true)
    (hreset : i.reset = false) (hdata : (step s i).fcsState = .data) :
    Current src T (step s i) [] (begun t s i) := by
  have hstep := step_of_ready hready hreset
  cases hst : (i.sAxisTvalid && i.enableIn)
  · have hnone : begun t s i = [] := by simp [begun, starts, hst]
    rw [hnone]
    refine .idle ?_ hdata ?_ ?_ rfl <;> simp [hstep, advance, hidle, hst, State.pause, held]
  · have hsome : begun t s i = [⟨i.destinationMacIn, i.sAxisTuser, t⟩] := by
      simp [begun, starts, hidle, hready, hst]
    have hheld : held (step s i) = [] := by simp [hstep, advance, hidle, hst, State.pause, held]
    rw [hsome]
    refine .busy 0 _ ?_ hdata ?_ ?_ ?_ (by simp [hheld]) (by rw [hheld]; exact shows_nil) <;>
      simp [hstep, advance, hidle, hst, State.pause, FramerState.position]

/-- The framer produces the next byte of the header. -/
theorem current_header (hready : outputReady s i = true) (hreset : i.reset = false) {k : ℕ}
    (hk : s.framerState.position = some k) (hlt : k < 14) (hdata : s.fcsState = .data)
    (hlast : s.framedTlast = false) (hdst : s.destMacR = a.dst) (hu : s.ethertypeSelect = a.tuser)
    (hlen : min (o ++ held s).length 14 = k) (hshows : Shows src T a (o ++ held s))
    (hsrc : T ≤ a.cycle → i.sourceMacIn = src) :
    Current src T (step s i) (o ++ held s) [a] := by
  obtain ⟨b, hb, hnext, hadv⟩ := advance_header rfl hk hlt
  have hstep := step_of_ready hready hreset
  have hlen' : (o ++ held s).length = k := by omega
  have hbyte : (header a.dst i.sourceMacIn a.tuser)[(o ++ held s).length]? = some b := by
    have := congrArg (·[0]?) hb
    rw [hlen', ← hdst, ← hu]
    simpa using this
  have hheld : held (step s i) = [b] := by
    rw [hstep, hadv]
    rfl
  refine .busy (k + 1) a ?_ ?_ ?_ ?_ ?_ ?_ ?_
  · rw [hstep]
    exact hnext
  · simp [hstep, addFcs, hdata, hlast]
  · rw [hstep, hadv]
    rfl
  · rw [hstep, hadv]
    exact hdst
  · rw [hstep, hadv]
    exact hu
  · rw [hheld, List.length_append, hlen', List.length_singleton]
    omega
  · rw [hheld]
    exact hshows.concat hsrc hbyte

/-- The framer passes a byte of the payload, or waits for it. -/
theorem current_payload (hready : outputReady s i = true) (hreset : i.reset = false)
    (hs : s.framerState = .payload) (hdata : s.fcsState = .data) (hlast : s.framedTlast = false)
    (hdst : s.destMacR = a.dst) (hu : s.ethertypeSelect = a.tuser)
    (hgood : Good src T (o ++ held s) a) : Current src T (step s i) (o ++ held s) [a] := by
  have hstep := step_of_ready hready hreset
  have hdata' : (step s i).fcsState = .data := by simp [hstep, addFcs, hdata, hlast]
  have hgood' : Good src T (o ++ held s ++ held (step s i)) a := hgood.append _
  cases hl : (i.sAxisTvalid && i.sAxisTlast) with
  | false =>
    refine .busy 14 a ?_ hdata' ?_ ?_ ?_ (Nat.min_eq_right hgood'.1) hgood'.2
    · simp [hstep, advance, hs, hl, FramerState.position]
    · simp [hstep, advance, hs, hl]
    · simp [hstep, advance, hs, hdst]
    · simp [hstep, advance, hs, hu]
  | true =>
    refine .closing a ?_ hdata' ?_ hgood'
    · simp [hstep, advance, hs, hl]
    · simp [hstep, advance, hs, hl]

/-- The last byte of the payload goes to the output. -/
theorem current_closing (hready : outputReady s i = true) (hreset : i.reset = false)
    (hs : s.framerState = .fcs1) (hdata : s.fcsState = .data) (hlast : s.framedTlast = true)
    (hgood : Good src T (o ++ held s) a) : Current src T (step s i) (o ++ held s) [a] := by
  have hstep := step_of_ready hready hreset
  have hnext : (step s i).fcsState = .fcs1 := by simp [hstep, addFcs, hdata, hlast]
  refine .inserting a (by simp [hnext]) ?_ ?_ ?_ hgood
  · rw [hnext]
    simp [hstep, advance, hs, FcsState.ahead, State.pause]
  · simp [hstep, advance, hs, held, State.pause]
  · simp [hstep, advance, hs, State.pause]

theorem shown_inserting (hready : outputReady s i = true) (hreset : i.reset = false)
    (hs : s.fcsState ≠ .data) : ∃ b, shown (step s i) = [(b, s.fcsState == .fcs4)] := by
  rw [step_of_ready hready hreset]
  cases h : s.fcsState <;> first
    | exact absurd h hs
    | exact ⟨s.fcs.fcsByte, by simp [shown, addFcs, h, State.insert]⟩

/-- A byte of the check sequence, not the last one, is inserted. -/
theorem current_inserting (hready : outputReady s i = true) (hreset : i.reset = false)
    (hs : s.fcsState ≠ .data) (hs' : s.fcsState ≠ .fcs4)
    (hahead : s.framerState = s.fcsState.ahead) (hgood : Good src T o a) :
    Current src T (step s i) o [a] := by
  have hnext : (step s i).fcsState ≠ .data ∧ (step s i).framerState = (step s i).fcsState.ahead ∧
      held (step s i) = [] ∧ (step s i).framedTlast = false := by
    rw [step_of_ready hready hreset]
    cases h : s.fcsState <;> rw [h] at hahead <;> first
      | exact absurd h hs
      | exact absurd h hs'
      | simp [advance, hahead, FcsState.ahead, addFcs, h, State.insert, State.pause, held]
  obtain ⟨h₁, h₂, h₃, h₄⟩ := hnext
  exact .inserting a h₁ h₂ h₃ h₄ hgood

/-- The framer waits for the last byte of the checksum. -/
theorem FcsState.ahead_ne_idle {f : FcsState} (hdata : f ≠ .data) (h4 : f ≠ .fcs4) :
    f.ahead ≠ .idle := by
  cases f with
  | data => exact absurd rfl hdata
  | fcs4 => exact absurd rfl h4
  | _ => simp [FcsState.ahead]

/-- **One cycle that moves**, with the beat that it puts into the output register. -/
theorem Current.step_ready {cur : List Begun} (h : Current src T s o cur)
    (hready : outputReady s i = true) (hreset : i.reset = false)
    (hsrc : ∀ a ∈ cur, T ≤ a.cycle → i.sourceMacIn = src) :
    ∃ done cur', cur ++ begun t s i = done ++ cur' ∧
      List.Forall₂ (Good src T) (collect cutStep cutEmit o (shown (step s i))) done ∧
      Current src T (step s i) (run cutStep o (shown (step s i))) cur' := by
  cases h with
  | idle h₁ h₂ h₃ h₄ h₅ =>
    have hdata : (step s i).fcsState = .data := by
      simp [step_of_ready hready hreset, addFcs, h₂, h₄]
    rw [shown_step_data hready hreset h₂, h₃, h₅]
    exact ⟨[], _, rfl, .nil, current_idle h₁ hready hreset hdata⟩
  | busy k a h₁ h₂ h₃ h₄ h₅ h₆ h₇ =>
    have hidle : s.framerState ≠ .idle := by
      intro h
      simp [h, FramerState.position] at h₁
    rw [shown_step_data hready hreset h₂, collect_map_false, run_map_false, begun_eq_nil hidle]
    refine ⟨[], [a], rfl, .nil, ?_⟩
    by_cases hlt : k < 14
    · exact current_header hready hreset h₁ hlt h₂ h₃ h₄ h₅ h₆ h₇ (hsrc a (by simp))
    · obtain ⟨hs, rfl⟩ : s.framerState = .payload ∧ k = 14 := by
        cases h : s.framerState <;> rw [h] at h₁ <;> cases h₁ <;>
          first | exact ⟨rfl, rfl⟩ | exact absurd (by decide) hlt
      exact current_payload hready hreset hs h₂ h₃ h₄ h₅ ⟨by omega, h₇⟩
  | closing a h₁ h₂ h₃ h₄ =>
    rw [shown_step_data hready hreset h₂, collect_map_false, run_map_false,
      begun_eq_nil (by simp [h₁])]
    exact ⟨[], [a], rfl, .nil, current_closing hready hreset h₁ h₂ h₃ h₄⟩
  | inserting a h₁ h₂ h₃ h₄ h₅ =>
    obtain ⟨b, hb⟩ := shown_inserting hready hreset h₁
    have hgood : Good src T (o ++ [b]) a := h₅.append _
    rw [hb]
    by_cases h4 : s.fcsState = .fcs4
    · -- the frame is complete, and the next one may begin
      have hidle : s.framerState = .idle := by
        rw [h₂, h4]
        rfl
      have hdata : (step s i).fcsState = .data := by
        simp [step_of_ready hready hreset, addFcs, h4, State.insert]
      refine ⟨[a], _, rfl, ?_, ?_⟩
      · simpa [h4, cutEmit] using hgood
      · simpa [h4, cutStep] using current_idle hidle hready hreset hdata
    · rw [begun_eq_nil (h₂ ▸ FcsState.ahead_ne_idle h₁ h4)]
      refine ⟨[], [a], rfl, ?_, ?_⟩
      · simp [h4, cutEmit]
      · simpa [h4, cutStep] using current_inserting hready hreset h₁ h4 h₂ hgood

/-- Of the frames that have been begun, those at the output register and the one in progress are
left; they have been begun before. -/
structure Headed (src : BitVec 48) (T : ℕ) (x : Observed) : Prop where
  before : ∀ a ∈ x.begun, a.cycle < x.cycle
  split : ∃ done cur, x.begun = done ++ cur ∧
    List.Forall₂ (Good src T) (collect cutStep cutEmit x.port.2 (shown x.port.1)) done ∧
    Current src T x.port.1 (run cutStep x.port.2 (shown x.port.1)) cur

variable {x : Observed}

theorem headed_atRest (h : AtRest s) (t : ℕ) : Headed src T ⟨(s, []), t, []⟩ where
  before := by simp
  split := by
    have hshown : shown s = [] := by simp [shown, h.outputTvalid]
    refine ⟨[], [], rfl, ?_, ?_⟩
    · rw [hshown]
      exact .nil
    · rw [hshown]
      exact .idle h.framerState h.fcsState (by simp [held, h.framedTvalid]) h.framedTlast rfl

theorem Headed.step (h : Headed src T x) (hsrc : T ≤ x.cycle → i.sourceMacIn = src) :
    Headed src T (observe x i) := by
  cases hreset : i.reset with
  | true =>
    have hcut : observe x i = ⟨(EthernetFramer.step x.port.1 i, []), x.cycle + 1, []⟩ := by
      simp [observe, cutting, hreset]
    rw [hcut]
    exact headed_atRest (atRest_reset hreset) _
  | false =>
    obtain ⟨hbefore, done, cur, hsplit, hdone, hcur⟩ := h
    refine ⟨?_, ?_⟩
    · intro a ha
      rw [observe, hreset, if_neg Bool.false_ne_true] at ha
      rcases List.mem_append.mp ha with ha | ha
      · exact (hbefore a (List.mem_of_mem_drop ha)).trans (Nat.lt_succ_self _)
      · unfold begun at ha
        split at ha
        · rw [List.mem_singleton.mp ha]
          exact Nat.lt_succ_self _
        · cases ha
    cases hready : outputReady x.port.1 i with
    | false =>
      have hshown : shown (EthernetFramer.step x.port.1 i) = shown x.port.1 := by
        rw [step_of_stalled hready hreset]
        rfl
      have htaken : taken x.port.1 i = [] := by
        simp only [outputReady, Bool.or_eq_false_iff] at hready
        simp [taken, hready.1]
      have hstill : observe x i =
          ⟨(EthernetFramer.step x.port.1 i, x.port.2), x.cycle + 1, x.begun⟩ := by
        simp [observe, cutting, completed, completes, hreset, htaken, begun, starts, hready]
      rw [hstill]
      refine ⟨done, cur, hsplit, ?_, ?_⟩
      · rwa [hshown]
      · rw [hshown]
        exact hcur.step_stalled hready hreset
    | true =>
      have htaken : taken x.port.1 i = shown x.port.1 := by
        cases ht : i.mAxisTready <;> cases ho : x.port.1.outputTvalid <;>
          simp_all [outputReady, taken, shown]
      have hlate : ∀ a ∈ cur, T ≤ a.cycle → i.sourceMacIn = src := by
        intro a ha hT
        have := hbefore a (by simp [hsplit, ha])
        exact hsrc (by omega)
      obtain ⟨done', cur', hsplit', hdone', hcur'⟩ :=
        hcur.step_ready (t := x.cycle) hready hreset hlate
      refine ⟨done', cur', ?_, ?_, ?_⟩
      · rw [← hsplit', observe, hreset, if_neg Bool.false_ne_true, completed, completes, htaken,
          hdone.length_eq, hsplit, List.drop_left]
      · simpa [observe, cutting, hreset, htaken] using hdone'
      · simpa [observe, cutting, hreset, htaken] using hcur'

/-- A frame that a cycle completes has been begun as it is listed. -/
theorem Headed.good (h : Headed src T x) : ∀ f ∈ framesOf x i, Good src T f.2 f.1 := by
  intro f hf
  obtain ⟨-, done, cur, hsplit, hdone, -⟩ := h
  have htaken : taken x.port.1 i = shown x.port.1 ∨ taken x.port.1 i = [] := by
    cases ht : i.mAxisTready <;> simp [taken, shown, ht]
  rw [framesOf, completed, completes, hsplit] at hf
  rcases htaken with htaken | htaken
  · rw [htaken] at hf
    obtain ⟨n, hn, rfl⟩ := List.getElem_of_mem hf
    have hn' : n < done.length := by
      rw [← hdone.length_eq]
      exact List.lt_length_right_of_zip hn
    rw [List.getElem_zip, List.getElem_append_left hn']
    exact hdone.get _ hn'
  · simp [htaken] at hf

end Cycle

/-! ## Whole runs -/

section Runs

variable {src : BitVec 48} {T : ℕ} {s : State} {is js ks : List Inputs}

/-- The framer and the clock of the observation. -/
theorem run_observe (s : State) (is : List Inputs) :
    (run observe (observed s) is).port.1 = run step s is ∧
      (run observe (observed s) is).cycle = is.length := by
  induction is using List.reverseRecOn with
  | nil => exact ⟨rfl, rfl⟩
  | append_singleton is i ih =>
    rw [run_concat, run_concat, List.length_append]
    exact ⟨congrArg (step · i) ih.1, congrArg (· + 1) ih.2⟩

/-- The observation sees every frame that is complete. -/
theorem headed_run (hs : AtRest s)
    (hsrc : ∀ as i bs, is = as ++ i :: bs → T ≤ as.length → i.sourceMacIn = src) :
    Headed src T (run observe (observed s) is) := by
  induction is using List.reverseRecOn with
  | nil => exact headed_atRest hs 0
  | append_singleton is i ih =>
    rw [run_concat]
    refine Headed.step (ih fun as j bs hsplit => hsrc as j (bs ++ [i]) (by simp [hsplit]))
      fun hT => ?_
    rw [(run_observe s is).2] at hT
    exact hsrc is i [] rfl hT

/-- **Every run**: the frames have the headers with which they were begun, and those that are begun
during `ks` the address of the sender that stands at the port then. -/
theorem good_frames (hs : AtRest s) (hsrc : ∀ i ∈ ks, i.sourceMacIn = src) :
    ∀ f ∈ frames s (js ++ ks), Good src js.length f.2 f.1 := by
  intro f hf
  obtain ⟨as, i, bs, hsplit, hmem⟩ := mem_collect_iff.mp hf
  refine (headed_run hs fun cs j ds has hle => ?_).good f hmem
  rw [has, List.append_assoc, List.cons_append] at hsplit
  exact hsrc j (mem_of_append_eq hsplit hle)

theorem exists_of_mem_begun (s : State) (is : List Inputs) :
    ∀ a ∈ (run observe (observed s) is).begun, ∃ as i bs, is = as ++ i :: bs ∧
      a ∈ begun as.length (run step s as) i := by
  induction is using List.reverseRecOn with
  | nil => exact nofun
  | append_singleton is i ih =>
    intro a ha
    rw [run_concat] at ha
    simp only [observe] at ha
    split at ha
    · cases ha
    · rcases List.mem_append.mp ha with ha | ha
      · obtain ⟨as, j, bs, rfl, hj⟩ := ih a (List.mem_of_mem_drop ha)
        exact ⟨as, j, bs ++ [i], by simp, hj⟩
      · rw [(run_observe s is).1, (run_observe s is).2] at ha
        exact ⟨is, i, [], rfl, ha⟩

/-- A frame has been begun in the cycle with which it is listed. -/
theorem exists_begun (s : State) (is : List Inputs) :
    ∀ f ∈ frames s is, ∃ as i bs, is = as ++ i :: bs ∧ f.1 ∈ begun as.length (run step s as) i := by
  intro f hf
  obtain ⟨js, j, ks, rfl, hmem⟩ := mem_collect_iff.mp hf
  obtain ⟨as, i, bs, rfl, hi⟩ := exists_of_mem_begun s js f.1 (List.of_mem_zip hmem).1
  exact ⟨as, i, bs ++ j :: ks, by simp, hi⟩

/-- For every frame that is completed there is a beginning. -/
theorem Headed.map_snd {x : Observed} {i : Inputs} (h : Headed src T x) :
    (framesOf x i).map Prod.snd = completed x i := by
  obtain ⟨-, done, cur, hsplit, hdone, -⟩ := h
  have hlen : (completed x i).length ≤ done.length := by
    rw [← hdone.length_eq, completed, completes]
    cases ht : i.mAxisTready <;> simp [taken, shown, ht]
  refine List.map_snd_zip ?_
  rw [hsplit, List.length_append]
  exact hlen.trans (Nat.le_add_right _ _)

/-- Without the beginnings, `frames` is what comes out of the framer. -/
theorem map_snd_frames (hs : AtRest s) :
    (frames s is).map Prod.snd = wholePackets step (fun _ i => i.reset) taken s is := by
  induction is using List.reverseRecOn with
  | nil => rfl
  | append_singleton is i ih =>
    have hheaded : Headed 0 is.length (run observe (observed s) is) :=
      headed_run hs fun as j bs hsplit hle => by
        have hlength := congrArg List.length hsplit
        simp only [List.length_append, List.length_cons] at hlength
        omega
    rw [frames, collect_concat, List.map_append, wholePackets, collect_concat, hheaded.map_snd]
    refine congrArg₂ (· ++ ·) ih (congrArg (completes taken · i) ?_)
    exact run_proj (π := Observed.port) (fun _ _ => rfl) (observed s) is

end Runs

/-! ## Parts of the header -/

section Parts

variable {src : BitVec 48} {T : ℕ} {f : List Byte} {a : Begun}

/-- A part of the header that is known. -/
theorem Good.slice (h : Good src T f a) {k n : ℕ} (hlt : k + n ≤ 14)
    (hknown : T ≤ a.cycle ∨ k + n ≤ 6 ∨ 12 ≤ k) :
    (f.drop k).take n = ((header a.dst src a.tuser).drop k).take n := by
  apply List.ext_getElem?
  intro j
  rw [List.getElem?_take, List.getElem?_take]
  split
  · next hj =>
    rw [List.getElem?_drop, List.getElem?_drop]
    have hlen := h.1
    exact h.2 (k + j) (by omega) (by omega) (hknown.imp_right fun hout => by omega)
  · rfl

theorem Good.destination (h : Good src T f a) : f.take 6 = macBytes a.dst :=
  h.slice (k := 0) (by omega) (.inr (.inl le_rfl))

theorem Good.source (h : Good src T f a) (hT : T ≤ a.cycle) : (f.drop 6).take 6 = macBytes src :=
  h.slice (by omega) (.inl hT)

theorem Good.type (h : Good src T f a) :
    (f.drop 12).take 2 = [0x08, if a.tuser then 0x06 else 0x00] :=
  h.slice (by omega) (.inr (.inr le_rfl))

end Parts

end RmiiEthernet.EthernetFramer
