import RmiiEthernet.Udp.Framer

/-!
# The length fields of long payloads

The counter of the payload's bytes, the words of `i_length_fifo` and the counter of the bytes still
to be sent have 11 bits, while `i_data_fifo` has 4096 rows. As long as no payload has more than 2047
bytes, every packet carries its lengths and its own payload (`emitted_lengths`). Of a payload of
2049 bytes one is sent, with the lengths of one byte (`not_always_emitted_lengths`); the others stay
in front of the next payload.
-/

namespace RmiiEthernet.UdpFramer

open Sync EthernetFcs Udp

/-- The number in the bytes `k` and `k + 1` of a packet. -/
def field (f : List Byte) (k : ℕ) : ℕ := 256 * (f.getD k 0).toNat + (f.getD (k + 1) 0).toNat

/-- A packet with the lengths and the bytes of the payload `q`. -/
structure Carries (f q : List Byte) : Prop where
  ipLength : field f 2 = q.length + 28
  udpLength : field f 24 = q.length + 8
  payload : f.drop 28 = q

theorem toNat_bytes16 (w : BitVec 16) :
    256 * (w.extractLsb' 8 8).toNat + (w.extractLsb' 0 8).toNat = w.toNat := by
  simp only [BitVec.extractLsb'_toNat, Nat.shiftRight_eq_div_pow]
  have hlt := w.isLt
  omega

theorem carries_datagram (cfg : Config) {q : List Byte} (hq : q.length ≤ 2047) :
    Carries (datagram cfg q) q := by
  constructor
  · have hfield : field (datagram cfg q) 2 = (ipLength q.length).toNat :=
      toNat_bytes16 (ipLength q.length)
    rw [hfield, ipLength, BitVec.toNat_ofNat]
    omega
  · have hfield : field (datagram cfg q) 24 = (udpLength q.length).toNat :=
      toNat_bytes16 (udpLength q.length)
    rw [hfield, udpLength, BitVec.toNat_ofNat]
    omega
  · rw [datagram, List.drop_left' (length_headers cfg q.length)]

/-- **The lengths of what is emitted.** In a run whose payloads have at most 2047 bytes, the `k`-th
packet taken at the output has the lengths and the bytes of the `k`-th payload. -/
theorem emitted_lengths (cfg : Config) {s : State} {is : List Inputs} (h : AfterReset s)
    (hsteady : Always step (Steady cfg) s is)
    (hlen : ∀ q ∈ packets (collect step accepted s is), q.length ≤ 2047) {k : ℕ} {f : List Byte}
    (hf : (packets (collect step taken s is))[k]? = some f) :
    ∃ q, (packets (collect step accepted s is))[k]? = some q ∧ Carries f q := by
  obtain ⟨fs, hfs⟩ := packets_taken_prefix h hsteady hlen
  have hk : ((packets (collect step accepted s is)).map (datagram cfg))[k]? = some f := by
    rw [← hfs, List.getElem?_append_left (List.getElem?_eq_some_iff.mp hf).1]
    exact hf
  rw [List.getElem?_map, Option.map_eq_some_iff] at hk
  obtain ⟨q, hq, rfl⟩ := hk
  exact ⟨q, hq, carries_datagram cfg (hlen q (List.mem_of_getElem? hq))⟩

/-- Payloads of two and of one byte. -/
theorem emitted_lengths_two :
    let cfg : Config := ⟨1000, 2000, 0xC0A80002, 0xC0A80001, 0x1234⟩
    let quiet : Inputs := ⟨false, true, 1000, 2000, 0xC0A80002, 0xC0A80001, 0x1234, 0, false, false,
      true⟩
    let is := [{ quiet with sAxisTvalid := true, sAxisTdata := 0xAA },
        { quiet with sAxisTvalid := true, sAxisTdata := 0xBB, sAxisTlast := true },
        { quiet with sAxisTvalid := true, sAxisTdata := 0xCC, sAxisTlast := true }] ++
      List.replicate 80 quiet
    ∃ q, (packets (collect step accepted cleared is))[1]? = some q ∧
      Carries (datagram cfg [0xCC]) q :=
  emitted_lengths ⟨1000, 2000, 0xC0A80002, 0xC0A80001, 0x1234⟩ cleared_afterReset
    (by decide +kernel) (by decide +kernel) (by decide +kernel)

section Overflow

/-- A cycle with or without a beat, all data zero. -/
def zeros (valid last : Bool) : Inputs := ⟨false, true, 0, 0, 0, 0, 0, 0, valid, last, true⟩

/-- The registers after `k + 4` bytes of a payload of zeros. -/
def filled (k : ℕ) : State :=
  ⟨false, 0, true, BitVec.ofNat 11 (k + 4), false,
    ⟨fun _ => 0, 1, BitVec.ofNat 12 (k + 3), 0, true⟩, ⟨fun _ => 0, 0, 0, 0, false⟩, 0,
    BitVec.allOnes 16, .idle, 0, 0, 0, 0, false, false, 0, false, false⟩

theorem run_cleared_zeros : run step cleared (List.replicate 4 (zeros true false)) = filled 0 := by
  have hmem :
      (run step cleared (List.replicate 4 (zeros true false))).dataFifo.ram = fun _ => 0 := by
    have hram : (run step cleared (List.replicate 4 (zeros true false))).dataFifo.ram =
        write (write (write (fun _ => 0) 0 0) 1 0) 2 0 := rfl
    rw [hram, write_const, write_const, write_const]
  have heq : run step cleared (List.replicate 4 (zeros true false)) =
      { filled 0 with
        dataFifo := { (filled 0).dataFifo with
          ram := (run step cleared (List.replicate 4 (zeros true false))).dataFifo.ram } } := rfl
  rw [heq, hmem]
  rfl

theorem fullSig_filled {k : ℕ} (hk : k < 4000) : (filled k).dataFifo.fullSig = false ∧
    (filled k).lengthFifo.fullSig = false := by
  constructor
  · rw [Fifo.State.fullSig, filled, beq_eq_false_iff_ne, ne_eq, ← BitVec.toNat_inj]
    simp
    omega
  · change Fifo.State.fullSig (⟨fun _ => 0, 0, 0, 0, false⟩ : Fifo.State 10 (BitVec 11)) = false
    decide

theorem ready_filled {k : ℕ} (hk : k < 4000) : ready (filled k) = true := by
  rw [ready, (fullSig_filled hk).1, (fullSig_filled hk).2]
  rfl

theorem step_filled {k : ℕ} (hk : k < 4000) :
    step (filled k) (zeros true false) = filled (k + 1) := by
  have hdata := (fullSig_filled hk).1
  have hready := ready_filled hk
  have hwe : (dataFifoInputs (filled k) (zeros true false)).writeEn = true := by
    rw [dataFifoInputs, hready]
    rfl
  have hre : (dataFifoInputs (filled k) (zeros true false)).readEn = false := rfl
  have hfifo : Fifo.step (filled k).dataFifo (dataFifoInputs (filled k) (zeros true false)) =
      (filled (k + 1)).dataFifo := by
    have hsucc : BitVec.ofNat 12 (k + 3) + 1#12 = BitVec.ofNat 12 (k + 1 + 3) :=
      (BitVec.ofNat_add (k + 3) 1).symm.trans (congrArg _ (by omega))
    simp only [Fifo.step, hwe, hre, hdata, Fifo.fwftRead]
    simp [dataFifoInputs, zeros, filled, hsucc]
  have hlengths : Fifo.step (filled k).lengthFifo (lengthFifoInputs (filled k) (zeros true false)) =
      (filled (k + 1)).lengthFifo := by
    simp [Fifo.step, lengthFifoInputs, lengthFifoWe, lengthFifoRe, zeros, filled, Fifo.fwftRead,
      Fifo.State.emptySig]
  have hsucc : BitVec.ofNat 11 (k + 4) + 1#11 = BitVec.ofNat 11 (k + 1 + 4) :=
    (BitVec.ofNat_add (k + 4) 1).symm.trans (congrArg _ (by omega))
  simp only [step, hfifo, hlengths, loads, hready]
  simp [filled, zeros, framerProcess, advance, packetAvailable, Fifo.State.empty, outputReady,
    hsucc, ipChecksumGo]

/-- A long payload of zeros goes in while the state machine is idle. -/
theorem run_filled {k n : ℕ} (hk : k + n ≤ 4000) :
    run step (filled k) (List.replicate n (zeros true false)) = filled (k + n) ∧
      collect step accepted (filled k) (List.replicate n (zeros true false)) =
        List.replicate n (0, false) ∧
      collect step taken (filled k) (List.replicate n (zeros true false)) = [] := by
  induction n generalizing k with
  | zero => exact ⟨rfl, rfl, rfl⟩
  | succ n ih =>
    obtain ⟨hrun, hacc, htaken⟩ := ih (k := k + 1) (by omega)
    have hstep := step_filled (k := k) (by omega)
    have hready : accepted (filled k) (zeros true false) = [(0, false)] := by
      simp [accepted, zeros, ready_filled (k := k) (by omega)]
    rw [List.replicate_succ, run_cons, collect_cons, collect_cons, hstep, hrun, hacc, htaken]
    exact ⟨congrArg filled (by omega), by rw [hready]; rfl, rfl⟩

/-- The last byte of 2049, and the packet that is sent then. -/
def ending : List Inputs := zeros true true :: List.replicate 40 (zeros false false)

/-- The lengths of one byte on a payload of 2049. -/
theorem not_always_emitted_lengths :
    ¬ ∀ (cfg : Config) (s : State) (is : List Inputs) (k : ℕ) (f : List Byte), AfterReset s →
      Always step (Steady cfg) s is →
      (∀ q ∈ packets (collect step accepted s is), 1 ≤ q.length ∧ q.length ≤ 4095) →
      (packets (collect step taken s is))[k]? = some f →
      ∃ q, (packets (collect step accepted s is))[k]? = some q ∧ Carries f q := by
  intro h
  let is :=
    List.replicate 4 (zeros true false) ++ (List.replicate 2044 (zeros true false) ++ ending)
  obtain ⟨hrun, hacc, htaken⟩ := run_filled (k := 0) (n := 2044) (by decide)
  -- what is accepted is one payload
  obtain ⟨p, hp⟩ : ∃ p : List Byte, p = List.replicate 2048 0 ++ [0] := ⟨_, rfl⟩
  have hlen : p.length = 2049 := by rw [hp, List.length_append, List.length_replicate]; rfl
  have hpayload : collect step accepted cleared is = beats p := by
    have hstart : collect step accepted cleared (List.replicate 4 (zeros true false)) =
        List.replicate 4 (0, false) := by decide +kernel
    have hend : collect step accepted (filled (0 + 2044)) ending = [(0, true)] := by decide +kernel
    rw [collect_append, collect_append, run_cleared_zeros, hrun, hstart, hacc, hend, hp,
      beats_concat, List.map_replicate, ← List.append_assoc, ← List.replicate_add]
  have hpackets : packets (collect step accepted cleared is) = [p] := by
    rw [hpayload]
    exact (packets_beats (List.ne_nil_of_length_pos (by omega))).1
  -- what is taken is a packet for one byte
  let cfg : Config := ⟨0, 0, 0, 0, 0⟩
  have hsent : packets (collect step taken cleared is) = [datagram cfg [0]] := by
    have hstart : collect step taken cleared (List.replicate 4 (zeros true false)) = [] := by
      decide +kernel
    rw [collect_append, collect_append, run_cleared_zeros, hrun, hstart, htaken]
    decide +kernel
  have hsteady : Always step (Steady cfg) cleared is := by
    refine always_of_forall (P := fun i => Steady cfg cleared i) (fun i hi => ?_) cleared
    simp only [is, ending, List.mem_append, List.mem_cons, List.mem_replicate] at hi
    rcases hi with ⟨-, rfl⟩ | ⟨-, rfl⟩ | rfl | ⟨-, rfl⟩ <;> decide
  have hbounds : ∀ q ∈ packets (collect step accepted cleared is),
      1 ≤ q.length ∧ q.length ≤ 4095 := by
    intro q hq
    rw [hpackets, List.mem_singleton] at hq
    rw [hq, hlen]
    decide
  obtain ⟨q, hq, hcarries⟩ := h cfg cleared is 0 (datagram cfg [0]) cleared_afterReset hsteady
    hbounds (by rw [hsent]; rfl)
  rw [hpackets] at hq
  obtain rfl : p = q := Option.some.inj hq
  have hlength := congrArg List.length hcarries.payload
  rw [hlen] at hlength
  exact absurd hlength (by decide)

end Overflow

end RmiiEthernet.UdpFramer
