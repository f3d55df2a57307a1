import RmiiEthernet.Ethernet.FcsRuns
import RmiiEthernet.Ethernet.Timing

/-!
# Error bursts

Two messages whose bits differ in a window of 32 bits do not both pass the check
(`circuitRegister_ne_of_burstApart`). `ethernet_deframer` gives its verdict over the bytes that its
CRC has seen, so it refuses every frame damaged in this way that the CRC has seen from its first
byte on (`bursts_caught`). A frame that follows another one without a pause has not been seen so:
one with the check sequence of all its bytes but the first is accepted (`not_bursts_caught`).
-/

namespace RmiiEthernet.EthernetDeframer

open Sync EthernetFcs EthernetFrame

/-- Two different messages of one length, whose bits in the order of transmission differ only in a
window of 32. -/
def BurstApart (a b : List Byte) : Prop :=
  a.length = b.length ∧ a ≠ b ∧
    ∃ p, ∀ k, k < p ∨ p + 32 ≤ k → (messageBits a)[k]? = (messageBits b)[k]?

/-- A right frame hit by a burst. -/
def Damaged (g : List Byte) : Prop := ∃ a, 4 ≤ a.length ∧ Checked a ∧ BurstApart a g

theorem byteBits_injective : Function.Injective byteBits := by
  intro d e h
  apply BitVec.eq_of_getLsbD_eq
  intro i hi
  have hbit := congrArg (·[i]?) h
  simpa [byteBits, hi] using hbit

theorem messageBits_injective : Function.Injective messageBits := by
  intro a
  induction a with
  | nil =>
    intro b h
    have hlen := congrArg List.length h
    rw [length_messageBits, length_messageBits] at hlen
    exact (List.length_eq_zero_iff.mp (by simpa using hlen.symm)).symm
  | cons d a ih =>
    intro b h
    cases b with
    | nil =>
      have hlen := congrArg List.length h
      rw [length_messageBits, length_messageBits] at hlen
      simp at hlen
    | cons e b =>
      obtain ⟨h₁, h₂⟩ := List.append_inj h (by simp [byteBits])
      rw [byteBits_injective h₁, ih h₂]

/-- **The register tells messages apart that differ by a burst.** -/
theorem circuitRegister_ne_of_burstApart {a b : List Byte} (h : BurstApart a b) :
    circuitRegister a ≠ circuitRegister b := by
  obtain ⟨hlen, hne, p, hout⟩ := h
  intro heq
  have hreg : crcRegister a = crcRegister b := by
    rw [← BitVec.reverse_reverse_eq (x := crcRegister a), ← circuitRegister, heq, circuitRegister,
      BitVec.reverse_reverse_eq]
  have hbits : messageBits a = messageBits b :=
    crcBits_burst (by decide) _ (by rw [length_messageBits, length_messageBits, hlen]) hout hreg
  exact hne (messageBits_injective hbits)

theorem not_checked_of_damaged {g : List Byte} (h : Damaged g) : circuitRegister g ≠ crcVerify := by
  obtain ⟨a, hlen, hchecked, hapart⟩ := h
  rw [← (circuitRegister_eq_crcVerify_iff hlen).mpr hchecked]
  exact (circuitRegister_ne_of_burstApart hapart).symm

/-- Two check sequences behind the same bytes. -/
theorem burstApart_append (m : List Byte) {f f' : List Byte} (hf : f.length = 4)
    (hf' : f'.length = 4) (hne : f ≠ f') : BurstApart (m ++ f) (m ++ f') := by
  refine ⟨by simp [hf, hf'], by simpa using hne, 8 * m.length, fun k hk => ?_⟩
  have hm : (messageBits m).length = 8 * m.length := length_messageBits m
  rw [messageBits_append, messageBits_append]
  rcases hk with hk | hk
  · rw [List.getElem?_append_left (by omega), List.getElem?_append_left (by omega)]
  · rw [List.getElem?_eq_none (by rw [List.length_append, hm, length_messageBits]; omega),
      List.getElem?_eq_none (by rw [List.length_append, hm, length_messageBits]; omega)]

/-! ## Frames that the CRC sees -/

/-- The beats of the cycles `ks`, after the cycles `js`, are those of the frame `g`. -/
structure Occupies (s : State) (js ks : List Inputs) (g : List Byte) : Prop where
  before : openPacket (collect step arrived s js) = []
  bytes : collect step arrived (run step s js) ks = beats g
  first : ∀ i ∈ ks.head?, i.sAxisTvalid = true
  last : ∀ i ∈ ks.getLast?, i.sAxisTvalid = true

/-- The CRC register is clear when the cycles `ks` begin and is not cleared in them. -/
def Undisturbed (s : State) (ks : List Inputs) : Prop :=
  s.fcs.crcReg = crcInitVal ∧ Always step (fun s i => s.fcsReset = false ∧ i.reset = false) s ks

/-- The end of a frame is shown without the mark for a bad one. -/
def accepts (s : State) : Bool := s.mAxisTvalid && s.mAxisTlast && !s.mAxisTuser

section Runs

variable {s : State} {js ks : List Inputs} {k : Inputs} {g q : List Byte}

theorem crcReg_undisturbed (hs : s.fcs.crcReg = circuitRegister q)
    (h : Always step (fun s i => s.fcsReset = false ∧ i.reset = false) s ks) :
    (run step s ks).fcs.crcReg =
      circuitRegister (q ++ (collect step arrived s ks).map Prod.fst) := by
  induction ks generalizing s q with
  | nil => simpa using hs
  | cons i ks ih =>
    obtain ⟨⟨hclear, hreset⟩, hrest⟩ := h
    have hnext : (step s i).fcs.crcReg =
        circuitRegister (q ++ (arrived s i).map Prod.fst) := by
      cases hv : i.sAxisTvalid with
      | false => simpa [step, EthernetFcs.step, hclear, hreset, hv, arrived] using hs
      | true =>
        simp [step, EthernetFcs.step, hclear, hreset, hv, arrived, crcNext_circuitRegister hs]
    rw [run_cons, ih hnext hrest, collect_cons, List.map_append, List.append_assoc]

/-- An accepted end of a frame has been checked over the bytes in the CRC register. -/
theorem crcVerify_of_accepts (h : accepts (step s k) = true) : s.fcs.crcReg = crcVerify := by
  cases hreset : k.reset <;> simp [accepts, step, hreset, fcsMatches, verifyOut] at h
  exact h.2.resolve_left (by simp [h.1.2])

/-- A damaged frame that the CRC has seen is not accepted. -/
theorem accepts_of_damaged (h : Occupies s js ks g) (hg : Damaged g)
    (hseen : Undisturbed (run step s js) ks) :
    accepts (run step s (js ++ ks ++ [k])) = false := by
  by_contra hacc
  rw [run_concat, Bool.not_eq_false] at hacc
  have hreg := crcVerify_of_accepts hacc
  rw [run_append, crcReg_undisturbed (q := []) (by rw [circuitRegister_nil]; exact hseen.1) hseen.2,
    h.bytes, map_fst_beats, List.nil_append] at hreg
  exact not_checked_of_damaged hg hreg

end Runs

/-- The frame for this address with a burst in its check sequence. -/
def wrongFrame : List Byte :=
  benchFrame.take 16 ++ fcsBytes (benchFrame.take 16).tail

theorem burstApart_wrongFrame : BurstApart benchFrame wrongFrame := by
  have hframe : benchFrame = benchFrame.take 16 ++ fcsBytes (benchFrame.take 16) := by
    decide +kernel
  rw [wrongFrame, hframe]
  exact burstApart_append _ rfl rfl (by decide +kernel)

theorem damaged_wrongFrame : Damaged wrongFrame :=
  ⟨benchFrame, by decide, checked_frame _ _ _ _, burstApart_wrongFrame⟩

/-- **Bursts are caught.** After a reset the check does not pass two messages that differ by a burst
of up to 32 bits. If the first of them is a right frame, a deframer refuses the other one in any run
in which the CRC register is clear when it begins and is not cleared before its end. -/
theorem bursts_caught {a b : List Byte} (hapart : BurstApart a b) :
    (∀ (g g' : Bool) (s s' : EthernetFcs.State) (r r' : EthernetFcs.Inputs)
      (is js : List EthernetFcs.Inputs), Restarts g r → Restarts g' r' →
      Feeding is a → Feeding js b →
      ¬ (verifyOut (run (EthernetFcs.step g) s (r :: is)) = true ∧
        verifyOut (run (EthernetFcs.step g') s' (r' :: js)) = true)) ∧
    ∀ (s : State) (js ks : List Inputs) (k : Inputs), 4 ≤ a.length → Checked a →
      Occupies s js ks b → Undisturbed (run step s js) ks →
      accepts (run step s (js ++ ks ++ [k])) = false := by
  constructor
  · rintro g g' s s' r r' is js hr hr' his hjs ⟨ha, hb⟩
    rw [verifyOut, beq_iff_eq, (run_restart_feeding hr his).1] at ha
    rw [verifyOut, beq_iff_eq, (run_restart_feeding hr' hjs).1] at hb
    exact circuitRegister_ne_of_burstApart hapart (ha.trans hb.symm)
  · intro s js ks k hlen hgood hocc hseen
    exact accepts_of_damaged hocc ⟨a, hlen, hgood, hapart⟩ hseen

/-- The frame with the wrong check sequence, behind a pause. -/
theorem bursts_caught_wrongFrame :
    let feed (d : Byte) : EthernetFcs.Inputs := ⟨false, 0, d, true, true⟩
    let restart : EthernetFcs.Inputs := ⟨true, 0, 0, false, false⟩
    let ks := (beats wrongFrame).map fun b => presented (some b)
    ¬ (verifyOut (run (EthernetFcs.step false) ⟨0, 0⟩ (restart :: benchFrame.map feed)) = true ∧
        verifyOut (run (EthernetFcs.step false) ⟨0, 0⟩ (restart :: wrongFrame.map feed)) = true) ∧
      accepts (run step cleared ([presented none] ++ ks ++ [presented none])) = false :=
  ⟨(bursts_caught burstApart_wrongFrame).1 false false ⟨0, 0⟩ ⟨0, 0⟩ _ _ _ _ ⟨rfl, nofun⟩
      ⟨rfl, nofun⟩ ⟨by decide, by decide +kernel⟩ ⟨by decide +kernel, by decide +kernel⟩,
    (bursts_caught burstApart_wrongFrame).2 cleared [presented none] _ (presented none) (by decide)
      (checked_frame _ _ _ _) ⟨by decide, by decide +kernel, by decide, by decide⟩
      ⟨by decide +kernel, by decide +kernel⟩⟩

/-- A right frame and, without a pause, the damaged one: the CRC does not see its first byte. -/
theorem not_bursts_caught :
    ¬ ∀ (cfg : Config) (s : State) (js ks : List Inputs) (k : Inputs) (f : List Byte),
      AfterReset s → Always step (Steady cfg) s (js ++ ks ++ [k]) → Occupies s js ks f →
      Damaged f → accepts (run step s (js ++ ks ++ [k])) = false := by
  intro h
  have hacc := h ⟨false, 0, 0x0A0B0C0D0E0F⟩ cleared
    ((beats benchFrame).map fun b => presented (some b))
    ((beats wrongFrame).map fun b => presented (some b)) (presented none) wrongFrame
    cleared_afterReset (by decide +kernel)
    ⟨by decide +kernel, by decide +kernel, by decide +kernel, by decide +kernel⟩ damaged_wrongFrame
  revert hacc
  decide +kernel

end RmiiEthernet.EthernetDeframer
