import RmiiEthernet.Udp.Framer

/-!
# The input register of the UDP framer

The register in front of the two FIFOs of `udp_ip_framer` is loaded when there is room and the
framer is enabled. It takes `tlast` whether or not there is a beat, and the FIFOs are written from
it whether or not the framer is enabled.

* `agree_of_same_tlast`: two runs with the same beats show the same at the outputs, as long as
  `tlast` is the same in the cycles without a beat in which the register is loaded. The data in
  these cycles does not matter.
* `storesOnce_of_halts`: every accepted beat is stored once, as long as the framer is halted only
  while the register is empty and nothing is offered, or while there is no room.
-/

namespace RmiiEthernet.UdpFramer

open Sync EthernetFcs Udp

/-! ## Cycles without a beat -/

section Quiet

variable {s t : State} {i j : Inputs}

/-- The same beat is offered, or none, with the same on the other ports; no reset, enabled. -/
def SameBeat (i j : Inputs) : Prop :=
  i.reset = false ∧ j.reset = false ∧ i.enableIn = true ∧ j.enableIn = true ∧
    i.sourcePortIn = j.sourcePortIn ∧ i.destinationPortIn = j.destinationPortIn ∧
    i.srcAddressIn = j.srcAddressIn ∧ i.destinationAddressIn = j.destinationAddressIn ∧
    i.ipChecksumInitIn = j.ipChecksumInitIn ∧ i.mAxisTready = j.mAxisTready ∧ offer i = offer j

instance (i j : Inputs) : Decidable (SameBeat i j) := inferInstanceAs (Decidable (_ ∧ _))

/-- Where the register is loaded without a beat, `tlast` is the same. -/
def SameTlast (s : State) (i j : Inputs) : Prop :=
  ready s = true → i.sAxisTvalid = false → i.sAxisTlast = j.sAxisTlast

instance (s : State) (i j : Inputs) : Decidable (SameTlast s i j) :=
  inferInstanceAs (Decidable (_ → _))

/-- The same at the outputs. -/
def Agree (s t : State) : Prop :=
  s.outputTvalid = t.outputTvalid ∧ s.outputTdata = t.outputTdata ∧
    s.outputTlast = t.outputTlast ∧ ready s = ready t

instance (s t : State) : Decidable (Agree s t) := inferInstanceAs (Decidable (_ ∧ _))

/-- The states differ in the data of an empty register at most. -/
structure Alike (s t : State) : Prop where
  rest : t = { s with dataFifoDin := t.dataFifoDin }
  data : s.dataFifoWe = true → t.dataFifoDin = s.dataFifoDin

theorem Alike.refl (s : State) : Alike s s := ⟨rfl, fun _ => rfl⟩

theorem Alike.ready_eq (h : Alike s t) : ready t = ready s := by
  rw [h.rest]
  rfl

theorem Alike.agree (h : Alike s t) : Agree s t := by
  refine ⟨?_, ?_, ?_, h.ready_eq.symm⟩ <;> rw [h.rest]

/-- The state machine does not look at the input register. -/
theorem advance_dataFifoDin (s : State) (d : Byte) (hij : SameBeat i j) :
    advance { s with dataFifoDin := d } j = { advance s i with dataFifoDin := d } := by
  obtain ⟨-, -, hen, hen', hport, hport', haddr, haddr', -⟩ := hij
  unfold advance
  cases hs : s.framerState <;>
    simp only [State.frame, packetAvailable, hen, hen', hport, hport', haddr, haddr']
  split <;> rfl

theorem framerProcess_dataFifoDin (s : State) (d : Byte) (hij : SameBeat i j) :
    framerProcess { s with dataFifoDin := d } j =
      { framerProcess s i with dataFifoDin := d } := by
  have hadvance := advance_dataFifoDin s d hij
  obtain ⟨hreset, hreset', -, -, -, -, -, -, -, htready, -⟩ := hij
  unfold framerProcess
  simp only [hreset, hreset', outputReady, htready, hadvance, if_false, Bool.false_eq_true]
  split <;> rfl

/-- An empty register is not written to the FIFO. -/
theorem Alike.dataFifo_step (h : Alike s t) (hij : SameBeat i j) :
    Fifo.step t.dataFifo (dataFifoInputs t j) = Fifo.step s.dataFifo (dataFifoInputs s i) := by
  obtain ⟨hreset, hreset', -, -, -, -, -, -, -, htready, -⟩ := hij
  have hready := h.ready_eq
  cases hw : s.dataFifoWe with
  | true =>
    have hinputs : dataFifoInputs t j = dataFifoInputs s i := by
      unfold dataFifoInputs dataFifoRe outputReady
      rw [hready, h.data hw, hreset, hreset', ← htready, h.rest]
    rw [hinputs, h.rest]
  | false =>
    have hw' : t.dataFifoWe = false := by
      rw [h.rest]
      exact hw
    have hre : dataFifoRe t j = dataFifoRe s i := by
      unfold dataFifoRe outputReady
      rw [← htready, h.rest]
    have hfifo : t.dataFifo = s.dataFifo := by rw [h.rest]
    simp [Fifo.step, Fifo.fwftRead, dataFifoInputs, hw, hw', hreset, hreset', hre, hfifo]

/-- **One cycle** of two runs with the same beats. -/
theorem Alike.step (h : Alike s t) (hij : SameBeat i j) (hlast : SameTlast s i j) :
    Alike (step s i) (step t j) := by
  have hready := h.ready_eq
  have hfifo := h.dataFifo_step hij
  have hprocess : framerProcess t j = { framerProcess s i with dataFifoDin := t.dataFifoDin } := by
    rw [h.rest]
    exact framerProcess_dataFifoDin s _ hij
  obtain ⟨hreset, hreset', hen, hen', -, -, -, -, hinit, htready, hoffer⟩ := hij
  have hvalid : i.sAxisTvalid = j.sAxisTvalid ∧ (i.sAxisTvalid = true →
      i.sAxisTdata = j.sAxisTdata ∧ i.sAxisTlast = j.sAxisTlast) := by
    unfold offer at hoffer
    cases hi : i.sAxisTvalid <;> cases hj : j.sAxisTvalid <;> simp_all
  have htlast : ready s = true → i.sAxisTlast = j.sAxisTlast := by
    intro hr
    cases hv : i.sAxisTvalid with
    | true => exact (hvalid.2 hv).2
    | false => exact hlast hr hv
  have hlength : lengthFifoInputs t j = lengthFifoInputs s i := by
    unfold lengthFifoInputs lengthFifoWe lengthFifoRe outputReady
    rw [hready, hreset, hreset', ← htready, h.rest]
  have hloads : loads t j = ready s ∧ loads s i = ready s := by
    simp [loads, hready, hen, hen']
  constructor
  · have hchecksum : ipChecksumGo t j = ipChecksumGo s i := by
      unfold ipChecksumGo outputReady
      rw [← htready, h.rest]
    have hout : outputReady t j = outputReady s i := by
      unfold outputReady
      rw [← htready, h.rest]
    simp only [UdpFramer.step, hfifo, hprocess, hlength, hloads, hchecksum, hout, hreset, hreset',
      ← hvalid.1, ← hinit, State.mk.injEq]
    rw [h.rest]
    cases hr : ready s with
    | false => simp
    | true => simp [htlast hr]
  · intro hw
    cases hr : ready s with
    | false =>
      simp only [UdpFramer.step, hloads, hr, hreset] at hw ⊢
      exact h.data (by simpa using hw)
    | true =>
      simp only [UdpFramer.step, hloads, hr, hreset] at hw ⊢
      simpa using ((hvalid.2 (by simpa using hw)).1).symm

/-- **Every run**: the two states stay alike. -/
theorem Alike.run {ps : List (Inputs × Inputs)} (h : Alike s t)
    (hps : Always (fun s (p : Inputs × Inputs) => UdpFramer.step s p.1)
      (fun s p => SameBeat p.1 p.2 ∧ SameTlast s p.1 p.2) s ps) :
    Alike (run UdpFramer.step s (ps.map Prod.fst)) (run UdpFramer.step t (ps.map Prod.snd)) := by
  induction ps generalizing s t with
  | nil => exact h
  | cons p ps ih => exact ih (h.step hps.1.1 hps.1.2) hps.2

/-- **When only beats count**: two runs from one state with the same beats agree at the outputs in
every cycle, if `tlast` is the same in the cycles without a beat in which the register is loaded;
the data in these cycles may differ. -/
theorem agree_of_same_tlast (s : State) {ps qs : List (Inputs × Inputs)}
    (hps : Always (fun s (p : Inputs × Inputs) => step s p.1)
      (fun s p => SameBeat p.1 p.2 ∧ SameTlast s p.1 p.2) s ps) (hqs : qs <+: ps) :
    Agree (run step s (qs.map Prod.fst)) (run step s (qs.map Prod.snd)) := by
  obtain ⟨rs, rfl⟩ := hqs
  exact ((Alike.refl s).run ((always_append _ _ _).mp hps).1).agree

/-- The inputs of a cycle with or without a beat, for the runs below. -/
def quiet : Inputs :=
  ⟨false, true, 1000, 2000, 0xC0A80002, 0xC0A80001, 0x1234, 0, false, false, true⟩

/-- A payload of one byte, with other data in the cycles around it. -/
theorem agree_of_same_tlast_one :
    let beat : Inputs := { quiet with sAxisTdata := 7, sAxisTvalid := true, sAxisTlast := true }
    let ps : List (Inputs × Inputs) := (quiet, { quiet with sAxisTdata := 0xFF }) :: (beat, beat) ::
      List.replicate 20 (quiet, { quiet with sAxisTdata := 0x55 })
    Agree (run step cleared (ps.map Prod.fst)) (run step cleared (ps.map Prod.snd)) :=
  agree_of_same_tlast cleared (by decide +kernel) (List.prefix_refl _)

/-- A stale `tlast` before the first beat: a datagram is sent in one of the runs only. -/
theorem not_always_agree :
    ¬ ∀ (s : State) (ps qs : List (Inputs × Inputs)), AfterReset s →
      (∀ p ∈ ps, SameBeat p.1 p.2) → qs <+: ps →
      Agree (run step s (qs.map Prod.fst)) (run step s (qs.map Prod.snd)) := by
  intro h
  have := h cleared ((quiet, { quiet with sAxisTlast := true }) :: List.replicate 8 (quiet, quiet))
    _ cleared_afterReset (by decide +kernel) (List.prefix_refl _)
  revert this
  decide +kernel

end Quiet

/-! ## Cycles in which the framer is halted -/

section Halted

variable {s : State} {i : Inputs} {g : List Byte} {is : List Inputs} {bs : List (Byte × Bool)}

/-- The byte that goes into `i_data_fifo` in a cycle. -/
def dataWritten (s : State) (i : Inputs) : List Byte :=
  Fifo.written s.dataFifo (dataFifoInputs s i)

/-- The length that goes into `i_length_fifo` in a cycle. -/
def lengthWritten (s : State) (i : Inputs) : List (BitVec 11) :=
  Fifo.written s.lengthFifo (lengthFifoInputs s i)

/-- The length that waits with the last byte of a payload in the register. -/
def pendingLength (s : State) : List (BitVec 11) :=
  if s.packetLengthValid then [s.payloadLengthCounter] else []

/-- **Every accepted beat is stored once**: at any time the bytes accepted are those written and the
one in the register, and the lengths of the payloads accepted are those written and the one that
waits. -/
def StoresOnce (s : State) (is : List Inputs) : Prop :=
  ∀ js, js <+: is →
    (collect step accepted s js).map Prod.fst =
        collect step dataWritten s js ++ (inputReg (run step s js)).map Prod.fst ∧
      (packets (collect step accepted s js)).map lengthOf =
        collect step lengthWritten s js ++ pendingLength (run step s js)

/-- No reset, and `tlast` low with `tvalid`. -/
def Clean (_ : State) (i : Inputs) : Prop :=
  i.reset = false ∧ (i.sAxisTvalid = false → i.sAxisTlast = false)

instance (s : State) (i : Inputs) : Decidable (Clean s i) := inferInstanceAs (Decidable (_ ∧ _))

/-- A halted framer has no room, or an empty register and nothing offered to it. -/
def HaltsEmpty (s : State) (i : Inputs) : Prop :=
  i.enableIn = false → ready s = true → s.dataFifoWe = false ∧ i.sAxisTvalid = false

instance (s : State) (i : Inputs) : Decidable (HaltsEmpty s i) :=
  inferInstanceAs (Decidable (_ → _))

/-- **One cycle** of the register, halted or not: the beat that is stored and the one that is
accepted, and the count of the payload in progress. -/
theorem Counts.step_halts (h : Counts s g) (hi : Clean s i) (hhalt : HaltsEmpty s i) :
    stored s ++ inputReg (UdpFramer.step s i) = inputReg s ++ accepted s i ∧
      Counts (UdpFramer.step s i) (run cutStep g (stored s)) := by
  obtain ⟨hreset, hlast⟩ := hi
  cases hen : i.enableIn with
  | true =>
    have hsteady : Steady ⟨i.sourcePortIn, i.destinationPortIn, i.srcAddressIn,
        i.destinationAddressIn, i.ipChecksumInitIn⟩ s i :=
      ⟨hreset, hen, hlast, rfl, rfl, rfl, rfl, rfl⟩
    exact ⟨stored_append_inputReg hsteady, h.step hsteady⟩
  | false =>
    have hloads : loads s i = false := by simp [loads, hen]
    have hnone : stored s = [] ∧ accepted s i = [] := by
      cases hr : ready s with
      | false => simp [stored, accepted, hr]
      | true =>
        obtain ⟨hw, hv⟩ := hhalt hen hr
        simp [stored, inputReg, accepted, hw, hv]
    have hkeep : inputReg (UdpFramer.step s i) = inputReg s := by
      simp [inputReg, UdpFramer.step, hloads, hreset]
    rw [hnone.1, hnone.2, hkeep, run_nil, List.append_nil, List.nil_append]
    refine ⟨rfl, ?_, ?_, ?_, ?_⟩
    · simpa [UdpFramer.step, hloads, hreset] using h.valid
    · rw [hkeep]
      simpa [UdpFramer.step, hloads, hreset] using h.firstWord
    · rw [hkeep]
      simpa [UdpFramer.step, hloads] using h.counter
    · simpa [UdpFramer.step, hloads, hreset] using h.length

/-- The beats that have gone through the register. -/
theorem exists_stored (hs : AfterReset s)
    (his : Always step (fun s i => Clean s i ∧ HaltsEmpty s i) s is) :
    ∃ bs, collect step accepted s is = bs ++ inputReg (run step s is) ∧
      collect step dataWritten s is = bs.map Prod.fst ∧
      collect step lengthWritten s is = (packets bs).map lengthOf ∧
      Counts (run step s is) (openPacket bs) := by
  induction is using List.reverseRecOn with
  | nil =>
    obtain ⟨s₀, i₀, hi₀, rfl⟩ := hs
    refine ⟨[], ?_, rfl, rfl, ?_, ?_, ?_, ?_⟩ <;>
      simp [inputReg, step, hi₀]
  | append_singleton is i ih =>
    rw [always_append] at his
    obtain ⟨bs, haccepted, hdata, hlength, hcounts⟩ := ih his.1
    obtain ⟨hreg, hnext⟩ := hcounts.step_halts his.2.1.1 his.2.1.2
    refine ⟨bs ++ stored (run step s is), ?_, ?_, ?_, ?_⟩
    · rw [collect_concat, haccepted, run_concat, List.append_assoc, List.append_assoc, hreg]
    · rw [collect_concat, hdata, dataWritten, written_data, List.map_append]
    · rw [collect_concat, hlength, lengthWritten, hcounts.written_length, packets_append,
        List.map_append]
    · rw [run_concat, openPacket_append]
      exact hnext

/-- **When every accepted beat is stored once**: in a run from reset whose source keeps `tlast` low
with `tvalid`, if the framer is halted only while it has no room, or with an empty register and
nothing offered to it. -/
theorem storesOnce_of_halts {s : State} {is : List Inputs} (hs : AfterReset s)
    (his : Always step (fun s i => Clean s i ∧ HaltsEmpty s i) s is) : StoresOnce s is := by
  rintro js ⟨ks, rfl⟩
  obtain ⟨bs, haccepted, hdata, hlength, hcounts⟩ :=
    exists_stored hs ((always_append _ _ _).mp his).1
  rw [haccepted, hdata, hlength, List.map_append, packets_append, List.map_append,
    List.append_cancel_left_eq, List.append_cancel_left_eq]
  refine ⟨rfl, ?_⟩
  have hvalid := hcounts.valid
  have hlast := hcounts.length
  generalize run step s js = t at *
  cases hw : t.dataFifoWe with
  | false => simp [inputReg, pendingLength, hw, hvalid hw]
  | true =>
    cases hv : t.packetLengthValid with
    | false => simp [inputReg, pendingLength, hw, hv, cutEmit]
    | true => simp [inputReg, pendingLength, hw, hv, cutEmit, hlast hv]

/-- Two bytes, with the framer halted before, between and after them. -/
theorem storesOnce_of_halts_two :
    let halted : Inputs := { quiet with enableIn := false }
    let beat : Inputs := { quiet with sAxisTdata := 7, sAxisTvalid := true }
    StoresOnce cleared [halted, beat, quiet, halted, { beat with sAxisTlast := true }, quiet,
      halted] :=
  storesOnce_of_halts cleared_afterReset (by decide +kernel)

/-- A beat that is offered to a halted framer is accepted and lost. -/
theorem not_always_storesOnce :
    ¬ ∀ (s : State) (bs : List (Byte × Bool)) (is : List Inputs), AfterReset s →
      Always step Clean s is → Feeds false step offer sAxisTready bs s is → StoresOnce s is := by
  intro h
  have := (h cleared [(7, true)]
    [{ quiet with enableIn := false, sAxisTdata := 7, sAxisTvalid := true, sAxisTlast := true }]
    cleared_afterReset (by decide +kernel) (by decide +kernel) _ (List.prefix_refl _)).1
  revert this
  decide +kernel

end Halted

end RmiiEthernet.UdpFramer
