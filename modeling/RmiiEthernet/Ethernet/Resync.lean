import RmiiEthernet.Ethernet.Deframer

/-!
# Frame boundaries at the Ethernet deframer

The machine of `ethernet_deframer` looks at `tlast` only while it passes a payload or discards a
frame. In the states of the header it counts on, so a fragment that ends there leaves it in the
middle of a header, and the first bytes of the next frame are taken for the rest of it.

`Resyncs` lists the frames after which the machine is back in `idle`, and `resyncs_iff` says that
these are exactly the ones: the machine is in `idle` after every frame of a run if and only if
every frame of the run is one of them.
-/

namespace RmiiEthernet.EthernetDeframer

open Sync EthernetFcs EthernetFrame

/-! ## Frames that end behind the header -/

section Frames

variable {cfg : Config} {f : List Byte} {b : Byte}

/-- The frame has a byte behind its header, or is ruled out before its last byte: by the
destination address, which is compared with the seventh byte, or by the source address or the
Ethertype, which are compared with the thirteenth. -/
def Resyncs (cfg : Config) (f : List Byte) : Prop :=
  15 ≤ f.length ∨ (8 ≤ f.length ∧ ¬ DestMatches cfg f) ∨
    (f.length = 14 ∧ ¬ (SourceMatches cfg f ∧ f[12]? = some 0x08))

instance (cfg : Config) (f : List Byte) : Decidable (Resyncs cfg f) :=
  inferInstanceAs (Decidable (_ ∨ _ ∨ _))

/-- The same in terms of the bytes before the last one. -/
theorem resyncs_concat : Resyncs cfg (f ++ [b]) ↔ ¬ Admitted cfg f ∨ 14 ≤ f.length := by
  unfold Resyncs
  rw [List.length_append, List.length_singleton]
  constructor
  · rintro (hlen | ⟨hlen, hdst⟩ | ⟨hlen, hsrc⟩)
    · exact .inr (by omega)
    · rw [destMatches_append (by omega)] at hdst
      exact .inl fun ha => hdst (ha.1 (by omega))
    · rw [sourceMatches_append (by omega), getElem?_concat_of_le (by omega), if_neg (by omega)]
        at hsrc
      exact .inl fun ha => hsrc (ha.2.1 (by omega))
  · rintro (ha | hlen)
    · by_contra hnot
      push Not at hnot
      obtain ⟨hlen, hdst, hsrc⟩ := hnot
      refine ha ⟨fun h => ?_, fun h => ?_, fun h => by omega⟩
      · exact (destMatches_append (by omega)).mp (hdst (by omega))
      · have := hsrc (by omega)
        rwa [sourceMatches_append (by omega), getElem?_concat_of_le (by omega), if_neg (by omega)]
          at this
    · exact .inl (by omega)

end Frames

/-! ## One cycle -/

section Cycle

variable {cfg : Config} {f : List Byte} {s : State} {i : Inputs}

/-- The edge that takes the last byte of a frame leads to `idle`. -/
def ReturnsToIdle (s : State) (i : Inputs) : Prop :=
  i.sAxisTvalid = true → i.sAxisTlast = true → (step s i).deframerState = .idle

instance (s : State) (i : Inputs) : Decidable (ReturnsToIdle s i) :=
  inferInstanceAs (Decidable (_ → _))

/-- Between frames nothing is known of the address registers, and nothing needed. -/
theorem parses_nil_iff : Parses cfg s [] ↔ s.deframerState = .idle := by
  have hadm : Admitted cfg [] := ⟨by simp, by simp, by simp⟩
  have hstate : stateAfter cfg [] = .idle := if_pos hadm
  constructor
  · exact fun h => h.state.trans hstate
  · exact fun h => ⟨h.trans hstate.symm, ⟨_, rfl⟩, fun _ => ⟨_, rfl⟩⟩

theorem Parses.step_quiet (h : Parses cfg s f) (hi : Steady cfg s i)
    (hv : i.sAxisTvalid = false) : Parses cfg (EthernetDeframer.step s i) f := by
  have hreset := hi.1
  refine ⟨?_, ?_, ?_⟩
  · simpa [EthernetDeframer.step, hreset, hv] using h.state
  · simpa [EthernetDeframer.step, hreset, hv] using h.dst
  · simpa [EthernetDeframer.step, hreset, hv] using h.src

/-- A byte leads to `idle` only behind the header, and only as the last of its frame. -/
theorem advance_eq_idle_iff (henable : i.enableIn = true) :
    advance s i = .idle ↔ i.sAxisTlast = true ∧
      (s.deframerState = .payloadAndFcs ∨ s.deframerState = .discard) := by
  cases hs : s.deframerState <;> simp [advance, hs, henable]
  all_goals split <;> simp

theorem Parses.discard_iff (h : Parses cfg s f) :
    s.deframerState = .discard ↔ ¬ Admitted cfg f := by
  rw [h.state, stateAfter]
  by_cases ha : Admitted cfg f
  · by_cases hlen : 14 ≤ f.length
    · simp [ha, stateAt_of_le hlen]
    · simp only [ha, if_true, not_true_eq_false, iff_false]
      generalize f.length = n at hlen
      interval_cases n <;> simp [stateAt]
  · simp [ha]

/-- The states in which the machine looks at `tlast`. -/
theorem Parses.looks_iff (h : Parses cfg s f) :
    s.deframerState = .payloadAndFcs ∨ s.deframerState = .discard ↔
      ¬ Admitted cfg f ∨ 14 ≤ f.length := by
  rw [h.payload_iff, h.discard_iff, matches_iff]
  by_cases ha : Admitted cfg f <;> simp [ha]

/-- **The last byte of a frame** leads to `idle` exactly if the frame is one of `Resyncs`. -/
theorem Parses.step_last_iff (h : Parses cfg s f) (hi : Steady cfg s i)
    (hv : i.sAxisTvalid = true) (hl : i.sAxisTlast = true) :
    (EthernetDeframer.step s i).deframerState = .idle ↔ Resyncs cfg (f ++ [i.sAxisTdata]) := by
  have hnext : (EthernetDeframer.step s i).deframerState = advance s i := by
    simp [EthernetDeframer.step, hi.1, hv]
  rw [hnext, advance_eq_idle_iff hi.2.1, and_iff_right hl, h.looks_iff, resyncs_concat]

end Cycle

/-! ## Every run -/

section Runs

variable {cfg : Config} {f : List Byte} {s : State} {i : Inputs} {is : List Inputs}

/-- The deframer reads frames, as long as they end where it looks for it. -/
theorem reads (cfg : Config) :
    Reads EthernetDeframer.step arrived (Steady cfg) (Resyncs cfg) (Parses cfg) := by
  intro s f i h hi hres
  cases hv : i.sAxisTvalid with
  | false =>
    have hnone : arrived s i = [] := by simp [arrived, hv]
    rw [hnone]
    exact h.step_quiet hi hv
  | true =>
    have hone : arrived s i = [(i.sAxisTdata, i.sAxisTlast)] := by simp [arrived, hv]
    rw [hone] at hres ⊢
    cases hl : i.sAxisTlast with
    | false => simpa [cutStep] using h.step hi hv hl
    | true =>
      have hidle := (h.step_last_iff hi hv hl).mpr
        (hres (f ++ [i.sAxisTdata]) (by simp [cutEmit, hl]))
      simpa [cutStep] using parses_nil_iff.mpr hidle

theorem Parses.returnsToIdle_iff (h : Parses cfg s f) (hi : Steady cfg s i) :
    ReturnsToIdle s i ↔ ∀ g ∈ collect cutStep cutEmit f (arrived s i), Resyncs cfg g := by
  cases hv : i.sAxisTvalid with
  | false => simp [ReturnsToIdle, arrived, hv]
  | true =>
    cases hl : i.sAxisTlast with
    | false => simp [ReturnsToIdle, arrived, hv, hl, cutEmit]
    | true => simp [ReturnsToIdle, arrived, hv, hl, cutEmit, h.step_last_iff hi hv hl]

/-- **When the deframer resynchronises**: in a run from reset the machine is in `idle` after the
last byte of every frame, if and only if every frame of the run has a byte behind its header or is
ruled out before its last byte. -/
theorem resyncs_iff (cfg : Config) {s : State} {is : List Inputs}
    (h : ∃ s₀ i, i.reset = true ∧ s = step s₀ i) (hsteady : Always step (Steady cfg) s is) :
    Always step ReturnsToIdle s is ↔
      ∀ f ∈ packets (collect step arrived s is), Resyncs cfg f := by
  obtain ⟨s₀, i, hi, rfl⟩ := h
  have hidle : (step s₀ i).deframerState = .idle := by simp [step, hi]
  exact (reads cfg).always_bound_iff (fun _ _ _ h hi => h.returnsToIdle_iff hi)
    (parses_nil_iff.mpr hidle) hsteady

/-- A frame of 15 bytes for the configured address and a fragment of eight for another one. -/
theorem resyncs_two :
    let idle : Inputs := { destinationMacIn := 0x0A0B0C0D0E0F }
    let frames := [macBytes 0x0A0B0C0D0E0F ++ macBytes 0x001122334455 ++ [0x08, 0x00, 0x45],
      List.replicate 8 0x77]
    Always step ReturnsToIdle cleared ((frames.flatMap beats).map fun b =>
      { idle with sAxisTdata := b.1, sAxisTlast := b.2, sAxisTvalid := true }) :=
  (resyncs_iff ⟨false, 0, 0x0A0B0C0D0E0F⟩ ⟨_, _, rfl, rfl⟩ (by decide +kernel)).mpr
    (by decide +kernel)

/-- After a fragment of one byte the machine waits for the second byte of an address. -/
theorem not_always_returnsToIdle :
    ¬ ∀ (cfg : Config) (s : State) (is : List Inputs),
      (∃ s₀ i, i.reset = true ∧ s = step s₀ i) → Always step (Steady cfg) s is →
        Always step ReturnsToIdle s is := by
  intro h
  have := h ⟨false, 0, 0⟩ cleared
    [{ destinationMacIn := 0, sAxisTvalid := true, sAxisTlast := true }] ⟨_, _, rfl, rfl⟩
    (by decide)
  revert this
  decide

end Runs

end RmiiEthernet.EthernetDeframer
