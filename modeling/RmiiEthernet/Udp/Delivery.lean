import RmiiEthernet.Udp.Parser

/-!
# What the UDP deframer makes of packets

The results about whole packets and whole runs of `udp_ip_deframer`.

* `resync_iff`: the machine looks at `tlast` only behind the headers and in a packet it discards.
  It is back in `idle` after every packet of a run exactly if every packet has a byte there.
* `delivers_packet`: what comes of one packet with a proper header, with any options.
* `emits_legal_iff`: a packet whose header claims to be shorter than it can be is read with 64
  bytes of options more, and passed if the fields there happen to match.
* `passes_padding`: the end of a datagram is the end of its packet; the length fields are not read.
* `accounts_iff`: a packet for the receiver without payload is counted nowhere.
-/

namespace RmiiEthernet.UdpDeframer

open Sync EthernetFcs Udp

/-- A state after reset. -/
def cleared : State :=
  step ⟨0, 0, .idle, 0, 0, false, false, 0, 0, 0⟩ ⟨true, true, 0, 0, 0, 0, false, false⟩

theorem cleared_afterReset : AfterReset cleared := ⟨_, _, rfl, rfl⟩

/-- The inputs of a cycle with a beat, or with none. -/
def Receiver.inputs (rcv : Receiver) : Option (Byte × Bool) → Inputs
  | none => ⟨false, true, rcv.port, rcv.address, rcv.broadcast, 0, false, false⟩
  | some b => ⟨false, true, rcv.port, rcv.address, rcv.broadcast, b.1, true, b.2⟩

/-- The receiver 192.168.0.2 on the port 0x2AFA, with the broadcast address 192.168.0.255. -/
def Receiver.bench : Receiver := ⟨0x2AFA, 0xC0A80002, 0xC0A800FF⟩

/-- A datagram for it with one byte of payload. -/
def benchDatagram : List Byte :=
  [0x45, 0, 0, 29, 0, 0, 0, 0, 0x80, 0x11, 0, 0, 192, 168, 0, 1, 192, 168, 0, 2,
    0x2A, 0xF9, 0x2A, 0xFA, 0, 9, 0, 0, 0xAA]

/-- A datagram to the broadcast address with a word of options and two bytes of payload. -/
def benchOptions : List Byte :=
  [0x46, 0, 0, 34, 0, 0, 0, 0, 0x80, 0x11, 0, 0, 192, 168, 0, 1, 192, 168, 0, 255, 7, 7, 7, 7,
    0x2A, 0xF9, 0x2A, 0xFA, 0, 10, 0, 0, 0xAA, 0xBB]

/-! ## Where a packet may end -/

section Boundaries

variable {rcv : Receiver} {f : List Byte} {b : Byte} {s : State} {i : Inputs} {is : List Inputs}

/-- The packet has both headers, or a byte after the one that rules it out: the second byte for the
version, the eleventh for the protocol, the second of the UDP header for the address, the sixth for
the port. -/
def Resyncs (rcv : Receiver) (f : List Byte) : Prop :=
  headerLength f + 8 ≤ f.length ∨ (2 ≤ f.length ∧ ¬ HasVersion f) ∨
    (11 ≤ f.length ∧ ¬ HasProtocol f) ∨ (headerLength f + 2 ≤ f.length ∧ ¬ HasAddress rcv f) ∨
    (headerLength f + 6 ≤ f.length ∧ ¬ HasPort rcv f)

instance (rcv : Receiver) (f : List Byte) : Decidable (Resyncs rcv f) :=
  inferInstanceAs (Decidable (_ ∨ _))

/-- The same in terms of the bytes before the last one. -/
theorem resyncs_concat_iff : Resyncs rcv (f ++ [b]) ↔ Closes rcv f := by
  have hbounds := headerLength_bounds f
  by_cases hf : f = []
  · subst hf
    have := headerLength_bounds [b]
    refine iff_of_false ?_ (not_or.mpr ⟨not_not.mpr (admitted_nil rcv), by simp⟩)
    simp [Resyncs]
  · have hpos := List.length_pos_of_ne_nil hf
    simp only [Resyncs, Closes, Admitted, List.length_append, List.length_singleton,
      hasVersion_append hf, headerLength_append hf]
    constructor
    · rintro (hlen | ⟨hlen, hv⟩ | ⟨hlen, hp⟩ | ⟨hlen, ha⟩ | ⟨hlen, hp⟩)
      · exact .inr (by omega)
      · exact .inl fun h => hv (h.1 hpos)
      · rw [hasProtocol_append (by omega)] at hp
        exact .inl fun h => hp (h.2.1 (by omega))
      · rw [hasAddress_append (by omega)] at ha
        exact .inl fun h => ha (h.2.2.1 (by omega))
      · rw [hasPort_append (by omega)] at hp
        exact .inl fun h => hp (h.2.2.2 (by omega))
    · rintro (hadm | hlen)
      · by_contra hnot
        push Not at hnot
        obtain ⟨-, hv, hp, ha, hport⟩ := hnot
        refine hadm ⟨fun _ => hv (by omega), fun hlen => ?_, fun hlen => ?_, fun hlen => ?_⟩
        · exact (hasProtocol_append (by omega)).mp (hp (by omega))
        · exact (hasAddress_append (by omega)).mp (ha (by omega))
        · exact (hasPort_append (by omega)).mp (hport (by omega))
      · exact .inl (by omega)

/-- The edge that takes the last byte of a packet leads to `idle`. -/
def ReturnsToIdle (s : State) (i : Inputs) : Prop :=
  i.sAxisTvalid = true → i.sAxisTlast = true → (step s i).deframerState = .idle

instance (s : State) (i : Inputs) : Decidable (ReturnsToIdle s i) :=
  inferInstanceAs (Decidable (_ → _))

theorem arrived_eq (s : State) (i : Inputs) :
    (i.sAxisTvalid = false ∧ arrived s i = []) ∨
      (i.sAxisTvalid = true ∧ arrived s i = [(i.sAxisTdata, i.sAxisTlast)]) := by
  cases hv : i.sAxisTvalid <;> simp [arrived, hv]

/-- The deframer reads packets, as long as they end where it looks for it. -/
theorem reads (rcv : Receiver) :
    Reads step arrived (Listens rcv) (Resyncs rcv) (Parses rcv) := by
  intro s f i h hi hres
  rcases arrived_eq s i with ⟨hv, harrived⟩ | ⟨hv, harrived⟩
  · rw [harrived]
    exact h.step_quiet hi hv
  · rw [harrived] at hres ⊢
    cases hl : i.sAxisTlast with
    | false => simpa [cutStep] using h.step hi hv (by simp [hl])
    | true =>
      have hcloses : Closes rcv f :=
        resyncs_concat_iff.mp (hres (f ++ [i.sAxisTdata]) (by simp [cutEmit, hl]))
      simpa [cutStep] using h.step_last hi hv hl hcloses

theorem parses_afterReset (rcv : Receiver) (hs : AfterReset s) : Parses rcv s [] := by
  obtain ⟨s₀, i₀, hi₀, rfl⟩ := hs
  exact parses_nil_iff.mpr (by simp [step, hi₀])

theorem closes_of_idle (h : Parses rcv s f) (hi : Listens rcv s i)
    (hv : i.sAxisTvalid = true) (hidle : (step s i).deframerState = .idle) : Closes rcv f := by
  have hnext : (step s i).deframerState = advance s i := by simp [step, hi.1, hv]
  by_contra hopen
  rw [hnext, h.advance_eq hi, if_neg fun h => hopen h.2, stateAfter] at hidle
  split at hidle
  · have := (phase_eq_ip_iff (m := 0) (by omega)).mp hidle
    simp at this
  · cases hidle

/-- **When the deframer resynchronises**: in a run from reset the machine is in `idle` after the
last byte of every packet, if and only if every packet of the run ends behind the headers or after
it has been ruled out. -/
theorem resync_iff (rcv : Receiver) {s : State} {is : List Inputs} (hs : AfterReset s)
    (hlistens : Always step (Listens rcv) s is) :
    Always step ReturnsToIdle s is ↔
      ∀ f ∈ packets (collect step arrived s is), Resyncs rcv f := by
  refine (reads rcv).always_bound_iff ?_ (parses_afterReset rcv hs) hlistens
  intro s f i h hi
  rcases arrived_eq s i with ⟨hv, harrived⟩ | ⟨hv, harrived⟩
  · simp [ReturnsToIdle, hv, harrived]
  · rw [harrived, collect_cons, collect_nil, List.append_nil, ReturnsToIdle]
    cases hl : i.sAxisTlast with
    | false => simp [cutEmit]
    | true =>
      simp only [cutEmit, if_true, List.mem_singleton, forall_eq, resyncs_concat_iff, hv,
        forall_const]
      constructor
      · exact closes_of_idle h hi hv
      · exact fun hcloses => parses_nil_iff.mp (h.step_last hi hv hl hcloses)

/-- A packet of another version that ends after two bytes. -/
theorem resync_two : Always step ReturnsToIdle cleared
    ((beats [0x60, 0x00]).map fun b => Receiver.bench.inputs (some b)) :=
  (resync_iff Receiver.bench cleared_afterReset (by decide)).mpr (by decide)

/-- After a packet of one byte the machine waits for the rest of a header. -/
theorem not_always_resync :
    ¬ ∀ (rcv : Receiver) (s : State) (is : List Inputs), AfterReset s →
      Always step (Listens rcv) s is → Always step ReturnsToIdle s is := by
  intro h
  have := h Receiver.bench cleared [Receiver.bench.inputs (some (0x45, true))] cleared_afterReset
    (by decide)
  revert this
  decide

end Boundaries

/-! ## The output and the counters -/

section Outputs

variable {rcv : Receiver} {f g : List Byte} {b : Byte} {s : State} {i : Inputs}
  {is : List Inputs}

/-- What comes of one byte after the bytes `f` of a packet. -/
def deframedBy (rcv : Receiver) (f : List Byte) (b : Byte × Bool) : List (Byte × Bool) :=
  if Admitted rcv f ∧ headerLength f + 8 ≤ f.length then [b] else []

/-- The packet is passed: it is wanted and has a payload. -/
def Delivered (rcv : Receiver) (f : List Byte) : Prop :=
  Wanted rcv f ∧ headerLength f + 9 ≤ f.length

instance (rcv : Receiver) (f : List Byte) : Decidable (Delivered rcv f) :=
  inferInstanceAs (Decidable (_ ∧ _))

theorem Admitted.of_append (h : Admitted rcv (f ++ g)) : Admitted rcv f := by
  induction g using List.reverseRecOn with
  | nil => simpa using h
  | append_singleton g b ih =>
    rw [← List.append_assoc] at h
    exact ih (admitted_concat.mp h).1

/-- A packet is wanted exactly if no check has failed when its last byte is looked for. -/
theorem wanted_concat_iff (h : Closes rcv f) : Wanted rcv (f ++ [b]) ↔ Admitted rcv f := by
  constructor
  · rintro ⟨h₁, h₂, h₃, h₄⟩
    exact Admitted.of_append (g := [b]) ⟨fun _ => h₁, fun _ => h₂, fun _ => h₃, fun _ => h₄⟩
  · intro hadm
    have hlen : headerLength f + 7 ≤ f.length := h.resolve_left (not_not.mpr hadm)
    have hbounds := headerLength_bounds f
    have hf : f ≠ [] := List.ne_nil_of_length_pos (by omega)
    rw [← admitted_iff_wanted
      (by rw [headerLength_append hf, List.length_append, List.length_singleton]; omega)]
    exact admitted_concat.mpr ⟨hadm, by omega, by omega, by omega, by omega⟩

theorem delivered_concat_iff (h : Closes rcv f) :
    Delivered rcv (f ++ [b]) ↔ Admitted rcv f ∧ headerLength f + 8 ≤ f.length := by
  have hf : f ≠ [] := by
    rintro rfl
    exact h.elim (fun h => h (admitted_nil rcv)) (fun h => by simp at h)
  rw [Delivered, wanted_concat_iff h, headerLength_append hf, List.length_append,
    List.length_singleton]
  exact and_congr_right fun _ => by omega

theorem Parses.output_step (h : Parses rcv s f) (hi : Listens rcv s i) :
    output (UdpDeframer.step s i) = collect cutStep (deframedBy rcv) f (arrived s i) := by
  rcases arrived_eq s i with ⟨hv, harrived⟩ | ⟨hv, harrived⟩
  · simp [output, UdpDeframer.step, deframes, hv, harrived]
  · rw [harrived, collect_cons, collect_nil, List.append_nil, deframedBy]
    have hiff := h.deframes_iff hv
    by_cases hd : deframes s i = true
    · rw [if_pos (hiff.mp hd)]
      simp [output, UdpDeframer.step, hi.1, hd]
    · rw [if_neg fun hp => hd (hiff.mpr hp)]
      simp [output, UdpDeframer.step, hd]

/-- What one cycle adds to the counters. -/
theorem Parses.counts_step (h : Parses rcv s f) (hi : Listens rcv s i)
    (hres : ∀ g ∈ collect cutStep cutEmit f (arrived s i), Resyncs rcv g) :
    (UdpDeframer.step s i).validPacketsCountU = s.validPacketsCountU +
        BitVec.ofNat 16 ((collect cutStep cutEmit f (arrived s i)).countP (Delivered rcv ·)) ∧
      (UdpDeframer.step s i).droppedPacketsCountU = s.droppedPacketsCountU +
        BitVec.ofNat 16 ((collect cutStep cutEmit f (arrived s i)).countP (¬ Wanted rcv ·)) := by
  rcases arrived_eq s i with ⟨hv, harrived⟩ | ⟨hv, harrived⟩
  · simp [harrived, UdpDeframer.step, hi.1, deframes, drops, hv]
  · have hdeframes := h.deframes_iff hv
    have hdrops := h.drops_iff hv
    rw [harrived, collect_cons, collect_nil, List.append_nil] at hres ⊢
    cases hl : i.sAxisTlast with
    | false => simp [cutEmit, UdpDeframer.step, hi.1, drops, hl]
    | true =>
      have hcloses : Closes rcv f :=
        resyncs_concat_iff.mp (hres (f ++ [i.sAxisTdata]) (by simp [cutEmit, hl]))
      have hdelivered := delivered_concat_iff (b := i.sAxisTdata) hcloses
      have hwanted := wanted_concat_iff (b := i.sAxisTdata) hcloses
      rw [hl, ← hwanted] at hdrops
      rw [← hdelivered] at hdeframes
      constructor
      · by_cases hd : Delivered rcv (f ++ [i.sAxisTdata])
        · simp [cutEmit, UdpDeframer.step, hi.1, hl, hdeframes.mpr hd, hd]
        · simp [cutEmit, UdpDeframer.step, hi.1, hl, mt hdeframes.mp hd, hd]
      · by_cases hw : Wanted rcv (f ++ [i.sAxisTdata])
        · simp [cutEmit, UdpDeframer.step, hi.1, mt hdrops.mp (fun h => h.1 hw), hw]
        · simp [cutEmit, UdpDeframer.step, hi.1, hdrops.mpr ⟨hw, rfl⟩, hw]

/-- **The output of a run** is what comes of the bytes, one cycle late. -/
theorem Parses.output_run (h : Parses rcv s f)
    (hlistens : Always UdpDeframer.step (Listens rcv) s is)
    (hres : ∀ g ∈ collect cutStep cutEmit f (collect UdpDeframer.step arrived s is),
      Resyncs rcv g) :
    collect UdpDeframer.step shown s is ++ output (run UdpDeframer.step s is) =
      output s ++ collect cutStep (deframedBy rcv) f (collect UdpDeframer.step arrived s is) := by
  induction is generalizing s f with
  | nil => simp
  | cons i is ih =>
    rw [collect_cons, collect_append] at hres
    have hstep := reads rcv s f i h hlistens.1 fun g hg => hres g (List.mem_append_left _ hg)
    have hrest := ih hstep hlistens.2 fun g hg => hres g (List.mem_append_right _ hg)
    rw [collect_cons, run_cons, List.append_assoc, hrest, collect_cons, collect_append, shown,
      h.output_step hlistens.1]

/-- **The counters of a run.** -/
theorem Parses.counts_run (h : Parses rcv s f)
    (hlistens : Always UdpDeframer.step (Listens rcv) s is)
    (hres : ∀ g ∈ collect cutStep cutEmit f (collect UdpDeframer.step arrived s is),
      Resyncs rcv g) :
    (run UdpDeframer.step s is).validPacketsCountU = s.validPacketsCountU + BitVec.ofNat 16
        ((collect cutStep cutEmit f (collect UdpDeframer.step arrived s is)).countP
          (Delivered rcv ·)) ∧
      (run UdpDeframer.step s is).droppedPacketsCountU = s.droppedPacketsCountU + BitVec.ofNat 16
        ((collect cutStep cutEmit f (collect UdpDeframer.step arrived s is)).countP
          (¬ Wanted rcv ·)) := by
  induction is generalizing s f with
  | nil => simp
  | cons i is ih =>
    rw [collect_cons, collect_append] at hres
    have hnow : ∀ g ∈ collect cutStep cutEmit f (arrived s i), Resyncs rcv g :=
      fun g hg => hres g (List.mem_append_left _ hg)
    obtain ⟨hv, hd⟩ := ih (reads rcv s f i h hlistens.1 hnow) hlistens.2
      fun g hg => hres g (List.mem_append_right _ hg)
    obtain ⟨hv₁, hd₁⟩ := h.counts_step hlistens.1 hnow
    rw [run_cons, collect_cons, collect_append, List.countP_append, List.countP_append, hv, hd, hv₁,
      hd₁, BitVec.ofNat_add, BitVec.ofNat_add, BitVec.add_assoc, BitVec.add_assoc]
    exact ⟨rfl, rfl⟩

end Outputs

/-! ## One packet -/

section Packet

variable {rcv : Receiver} {f : List Byte} {s : State} {is : List Inputs}

/-- What comes of the first bytes of a packet. -/
theorem collect_deframedBy_map_false (rcv : Receiver) (f : List Byte) :
    collect cutStep (deframedBy rcv) [] (f.map (·, false)) =
      if Admitted rcv f then (f.drop (headerLength f + 8)).map (·, false) else [] := by
  induction f using List.reverseRecOn with
  | nil => simp
  | append_singleton f b ih =>
    have hrun : run cutStep [] (f.map (·, false)) = f := openPacket_map_false f
    have hbounds := headerLength_bounds f
    have hbounds' := headerLength_bounds (f ++ [b])
    rw [List.map_append, collect_append, ih, hrun, List.map_singleton, collect_cons, collect_nil,
      List.append_nil, deframedBy]
    by_cases hlen : headerLength f + 8 ≤ f.length
    · have hf : f ≠ [] := List.ne_nil_of_length_pos (by omega)
      have hiff : Admitted rcv (f ++ [b]) ↔ Admitted rcv f := by
        rw [admitted_concat]
        exact ⟨fun h => h.1, fun h => ⟨h, by omega, by omega, by omega, by omega⟩⟩
      rw [headerLength_append hf, List.drop_append_of_le_length hlen]
      by_cases hadm : Admitted rcv f <;> simp [hiff, hadm, hlen]
    · have hnone : (f ++ [b]).drop (headerLength (f ++ [b]) + 8) = [] := by
        apply List.drop_eq_nil_of_le
        by_cases hf : f = []
        · simp [hf]
        · rw [headerLength_append hf, List.length_append, List.length_singleton]
          omega
      have hnone' : f.drop (headerLength f + 8) = [] := List.drop_eq_nil_of_le (by omega)
      simp [hnone, hnone', hlen]

/-- **What comes of a packet** that reaches behind its headers. -/
theorem collect_deframedBy_beats (hlen : headerLength f + 9 ≤ f.length) :
    collect cutStep (deframedBy rcv) [] (beats f) =
      if Wanted rcv f then beats (f.drop (headerLength f + 8)) else [] := by
  obtain ⟨g, b, rfl⟩ : ∃ g b, f = g ++ [b] := by
    rcases List.eq_nil_or_concat f with rfl | ⟨g, b, hg⟩
    · simp at hlen
    · exact ⟨g, b, by simpa using hg⟩
  have hg : g ≠ [] := by
    rintro rfl
    have := headerLength_bounds ([] ++ [b])
    simp at hlen
  have hrun : run cutStep [] (g.map (·, false)) = g := openPacket_map_false g
  rw [headerLength_append hg, List.length_append, List.length_singleton] at hlen
  have hcloses : Closes rcv g := .inr (by omega)
  rw [beats_concat, collect_append, collect_deframedBy_map_false, hrun, collect_cons, collect_nil,
    List.append_nil, deframedBy, headerLength_append hg, List.drop_append_of_le_length (by omega),
    beats_concat]
  have hwanted := wanted_concat_iff (b := b) hcloses
  by_cases hadm : Admitted rcv g
  · simp [hwanted, hadm, show headerLength g + 8 ≤ g.length by omega]
  · simp [hwanted, hadm]

/-- A packet for the receiver. -/
def IsFor (rcv : Receiver) (f : List Byte) : Prop :=
  HasProtocol f ∧ HasAddress rcv f ∧ (f.drop (4 * ihl f + 2)).take 2 = bytes16 rcv.port

instance (rcv : Receiver) (f : List Byte) : Decidable (IsFor rcv f) :=
  inferInstanceAs (Decidable (_ ∧ _))

theorem headerLength_of_le (h : 5 ≤ ihl f) : headerLength f = 4 * ihl f := if_pos h

theorem wanted_iff_isFor (hversion : HasVersion f) (hihl : 5 ≤ ihl f) :
    Wanted rcv f ↔ IsFor rcv f := by
  rw [Wanted, IsFor, and_iff_right hversion, HasPort, headerLength_of_le hihl]

/-- A run in which one packet arrives. -/
theorem run_packet (hidle : s.deframerState = .idle) (hlistens : Always step (Listens rcv) s is)
    (harrived : collect step arrived s is = beats f) (hlen : headerLength f + 9 ≤ f.length) :
    collect step shown s is ++ output (run step s is) =
        output s ++ (if Wanted rcv f then beats (f.drop (headerLength f + 8)) else []) ∧
      (run step s is).validPacketsCountU =
        s.validPacketsCountU + (if Wanted rcv f then 1 else 0) ∧
      (run step s is).droppedPacketsCountU =
        s.droppedPacketsCountU + (if Wanted rcv f then 0 else 1) ∧
      (run step s is).deframerState = .idle := by
  have hf : f ≠ [] := List.ne_nil_of_length_pos (by omega)
  have hparses : Parses rcv s [] := parses_nil_iff.mpr hidle
  obtain ⟨hpackets, hopen⟩ := packets_beats hf
  have hcut : collect cutStep cutEmit [] (collect step arrived s is) = [f] := by
    rw [harrived]
    exact hpackets
  have hres : ∀ g ∈ collect cutStep cutEmit [] (collect step arrived s is), Resyncs rcv g := by
    rw [hcut]
    intro g hg
    rw [List.mem_singleton.mp hg]
    exact .inl (by omega)
  have hend := (reads rcv).run_open hparses hlistens hres
  have hout := hparses.output_run hlistens hres
  obtain ⟨hvalid, hdropped⟩ := hparses.counts_run hlistens hres
  rw [harrived, collect_deframedBy_beats hlen] at hout
  have hdelivered : Delivered rcv f ↔ Wanted rcv f := and_iff_left hlen
  refine ⟨hout, ?_, ?_, ?_⟩
  · rw [hvalid, hcut]
    by_cases hw : Wanted rcv f <;> simp [hdelivered, hw]
  · rw [hdropped, hcut]
    by_cases hw : Wanted rcv f <;> simp [hw]
  · rw [harrived] at hend
    change Parses rcv _ (openPacket (beats f)) at hend
    rw [hopen] at hend
    exact parses_nil_iff.mp hend

/-- **A packet with a proper header**, with any options and any pauses. What follows the headers of
a packet for the receiver is passed and the packet is counted as valid; any other packet is counted
as dropped. -/
theorem delivers_packet (rcv : Receiver) {s : State} {is : List Inputs} {f : List Byte}
    (hidle : s.deframerState = .idle) (hlistens : Always step (Listens rcv) s is)
    (harrived : collect step arrived s is = beats f) (hversion : HasVersion f) (hihl : 5 ≤ ihl f)
    (hlen : 4 * ihl f + 9 ≤ f.length) :
    (IsFor rcv f →
      collect step shown s is ++ output (run step s is) =
          output s ++ beats (f.drop (4 * ihl f + 8)) ∧
        (run step s is).validPacketsCountU = s.validPacketsCountU + 1 ∧
        (run step s is).droppedPacketsCountU = s.droppedPacketsCountU) ∧
    (¬ IsFor rcv f →
      collect step shown s is ++ output (run step s is) = output s ∧
        (run step s is).validPacketsCountU = s.validPacketsCountU ∧
        (run step s is).droppedPacketsCountU = s.droppedPacketsCountU + 1) ∧
    (run step s is).deframerState = .idle := by
  rw [← headerLength_of_le hihl] at hlen ⊢
  obtain ⟨hout, hvalid, hdropped, hend⟩ := run_packet hidle hlistens harrived hlen
  have hwanted : Wanted rcv f ↔ IsFor rcv f := wanted_iff_isFor hversion hihl
  refine ⟨fun hfor => ?_, fun hfor => ?_, hend⟩
  · rw [if_pos (hwanted.mpr hfor)] at hout hvalid hdropped
    exact ⟨hout, hvalid, by simpa using hdropped⟩
  · rw [if_neg (mt hwanted.mp hfor)] at hout hvalid hdropped
    exact ⟨by simpa using hout, by simpa using hvalid, hdropped⟩

/-- A packet with options to the broadcast address, with a pause in its header. -/
theorem delivers_packet_options :
    let is := (((beats benchOptions).take 3).map some ++ [none] ++
      ((beats benchOptions).drop 3).map some).map Receiver.bench.inputs
    collect step shown cleared is ++ output (run step cleared is) = [(0xAA, false), (0xBB, true)] ∧
      (run step cleared is).validPacketsCountU = 1 :=
  have h := delivers_packet Receiver.bench (s := cleared) (f := benchOptions) rfl
    (by decide +kernel) (by decide +kernel) (by decide) (by decide) (by decide)
  ⟨(h.1 (by decide)).1, (h.1 (by decide)).2.1⟩

/-- The length field of the UDP header. -/
def lengthField (f : List Byte) : ℕ :=
  (f.getD (4 * ihl f + 4) 0 ++ f.getD (4 * ihl f + 5) 0 : BitVec 16).toNat

/-- The payload of a datagram, as long as the UDP header says. -/
def udpPayload (f : List Byte) : List Byte := (f.drop (4 * ihl f + 8)).take (lengthField f - 8)

/-- **The end of the packet is the end of the payload**: what follows a datagram in its packet is
passed behind the payload, whatever the length field says, and the mark stands on the last byte of
the packet. The output is the payload exactly if nothing follows the datagram. -/
theorem passes_padding (rcv : Receiver) {s : State} {is : List Inputs} {f : List Byte}
    (hidle : s.deframerState = .idle) (hlistens : Always step (Listens rcv) s is)
    (harrived : collect step arrived s is = beats f) (hversion : HasVersion f) (hihl : 5 ≤ ihl f)
    (hfor : IsFor rcv f) (hfield : 9 ≤ lengthField f)
    (hlen : 4 * ihl f + lengthField f ≤ f.length) :
    collect step shown s is ++ output (run step s is) =
        output s ++ beats (udpPayload f ++ f.drop (4 * ihl f + lengthField f)) ∧
      (collect step shown s is ++ output (run step s is) = output s ++ beats (udpPayload f) ↔
        f.length = 4 * ihl f + lengthField f) := by
  have hsplit : udpPayload f ++ f.drop (4 * ihl f + lengthField f) = f.drop (4 * ihl f + 8) := by
    have hsum : 4 * ihl f + lengthField f = 4 * ihl f + 8 + (lengthField f - 8) := by omega
    have hrest : f.drop (4 * ihl f + lengthField f) =
        (f.drop (4 * ihl f + 8)).drop (lengthField f - 8) := by
      rw [List.drop_drop, ← hsum]
    rw [udpPayload, hrest, List.take_append_drop]
  obtain ⟨hout, -⟩ := run_packet hidle hlistens harrived
    (by rw [headerLength_of_le hihl]; omega)
  rw [if_pos ((wanted_iff_isFor hversion hihl).mpr hfor), headerLength_of_le hihl, ← hsplit] at hout
  refine ⟨hout, ?_⟩
  rw [hout, List.append_cancel_left_eq]
  constructor
  · intro heq
    have := congrArg (fun l => (l.map Prod.fst).length) heq
    simp only [map_fst_beats, List.length_append, List.length_drop] at this
    omega
  · intro heq
    rw [List.drop_eq_nil_of_le heq.le, List.append_nil]

/-- A datagram in a frame of minimal length: 17 bytes of padding are passed with it. -/
theorem passes_padding_seventeen :
    let is := (beats (benchDatagram ++ List.replicate 17 0)).map fun b =>
      Receiver.bench.inputs (some b)
    collect step shown cleared is ++ output (run step cleared is) =
      beats (0xAA :: List.replicate 17 0) :=
  (passes_padding Receiver.bench (s := cleared) (f := benchDatagram ++ List.replicate 17 0) rfl
    (by decide +kernel) (by decide +kernel) (by decide) (by decide) (by decide) (by decide)
    (by decide)).1

/-- The padding is not part of the payload. -/
theorem not_always_stripped :
    ¬ ∀ (rcv : Receiver) (s : State) (is : List Inputs) (f : List Byte),
      s.deframerState = .idle → Always step (Listens rcv) s is →
      collect step arrived s is = beats f → HasVersion f → 5 ≤ ihl f → IsFor rcv f →
      9 ≤ lengthField f → 4 * ihl f + lengthField f ≤ f.length →
      collect step shown s is ++ output (run step s is) = output s ++ beats (udpPayload f) := by
  intro h
  have := h Receiver.bench cleared ((beats (benchDatagram ++ List.replicate 17 0)).map fun b =>
    Receiver.bench.inputs (some b)) (benchDatagram ++ List.replicate 17 0) rfl (by decide +kernel)
    (by decide +kernel) (by decide) (by decide) (by decide) (by decide) (by decide)
  revert this
  decide +kernel

end Packet

/-! ## Headers that claim to be too short -/

section Legal

variable {rcv : Receiver} {f g : List Byte} {b : Byte} {s : State} {i : Inputs} {is : List Inputs}

/-- The fields that a packet has to have for its byte at offset `n` to be passed. -/
def Legal (rcv : Receiver) (f : List Byte) (n : ℕ) : Prop :=
  HasVersion f ∧ 5 ≤ ihl f ∧ IsFor rcv f ∧ 4 * ihl f + 8 ≤ n

instance (rcv : Receiver) (f : List Byte) (n : ℕ) : Decidable (Legal rcv f n) :=
  inferInstanceAs (Decidable (_ ∧ _))

/-- A header that claims fewer than five words, read with 64 bytes of options more: the port is
looked for behind them, and what follows is passed. -/
def Misread (rcv : Receiver) (f : List Byte) : Prop :=
  HasVersion f ∧ ihl f < 5 ∧ HasProtocol f ∧ HasAddress rcv f ∧
    (f.drop (4 * ihl f + 66)).take 2 = bytes16 rcv.port ∧ 4 * ihl f + 73 ≤ f.length

instance (rcv : Receiver) (f : List Byte) : Decidable (Misread rcv f) :=
  inferInstanceAs (Decidable (_ ∧ _))

/-- **Every byte shown is legal**: it is a byte of a packet whose fields up to there are. -/
def EmitsLegal (rcv : Receiver) (s : State) (is : List Inputs) : Prop :=
  ∀ js i, js ++ [i] <+: is → ∀ b ∈ output (run step s (js ++ [i])),
    let f := openPacket (collect step arrived s js)
    (f ++ [i.sAxisTdata])[f.length]? = some b.1 ∧ Legal rcv (f ++ [i.sAxisTdata]) f.length

theorem misread_iff : Misread rcv f ↔ Wanted rcv f ∧ ihl f < 5 ∧ headerLength f + 9 ≤ f.length := by
  have hlength : ihl f < 5 → headerLength f = 4 * ihl f + 64 := fun h => if_neg (by omega)
  unfold Misread Wanted HasPort
  constructor
  · rintro ⟨h₁, h₂, h₃, h₄, h₅, h₆⟩
    rw [hlength h₂]
    exact ⟨⟨h₁, h₃, h₄, h₅⟩, h₂, by omega⟩
  · rintro ⟨⟨h₁, h₃, h₄, h₅⟩, h₂, h₆⟩
    rw [hlength h₂] at h₅ h₆
    exact ⟨h₁, h₂, h₃, h₄, h₅, by omega⟩

/-- Once a byte of a misread packet has been passed, the next one is. -/
theorem Misread.append (h : Misread rcv f) : Misread rcv (f ++ g) := by
  rw [misread_iff] at h ⊢
  obtain ⟨hw, hihl, hlen⟩ := h
  have hbounds := headerLength_bounds f
  have hf : f ≠ [] := List.ne_nil_of_length_pos (by omega)
  refine ⟨⟨?_, ?_, ?_, ?_⟩, by rwa [ihl_append hf], ?_⟩
  · exact (hasVersion_append hf).mpr hw.1
  · exact (hasProtocol_append (by omega)).mpr hw.2.1
  · exact (hasAddress_append (by omega)).mpr hw.2.2.1
  · exact (hasPort_append (by omega)).mpr hw.2.2.2
  · rw [headerLength_append hf, List.length_append]
    omega

theorem not_misread_nil : ¬ Misread rcv [] := fun h => by simpa using (misread_iff.mp h).2.2

/-- The byte after the bytes `f` is passed, and should be. -/
theorem legal_concat_iff (hadm : Admitted rcv f) (hlen : headerLength f + 8 ≤ f.length) :
    Legal rcv (f ++ [b]) f.length ↔ ¬ Misread rcv (f ++ [b]) := by
  have hbounds := headerLength_bounds f
  have hf : f ≠ [] := List.ne_nil_of_length_pos (by omega)
  have hwanted : Wanted rcv (f ++ [b]) := (wanted_concat_iff (.inr (by omega))).mpr hadm
  have hlength : headerLength (f ++ [b]) + 9 ≤ (f ++ [b]).length := by
    rw [headerLength_append hf, List.length_append, List.length_singleton]
    omega
  rw [misread_iff, and_iff_right hwanted, and_iff_left hlength, not_lt]
  constructor
  · exact fun h => h.2.1
  · intro hihl
    refine ⟨hwanted.1, hihl, (wanted_iff_isFor hwanted.1 hihl).mp hwanted, ?_⟩
    rw [← headerLength_of_le hihl, headerLength_append hf]
    exact hlen

/-- A packet of 92 bytes reaches behind its headers, however long they are. -/
theorem resyncs_of_le (h : 92 ≤ f.length) : Resyncs rcv f := by
  have := headerLength_bounds f
  exact .inl (by omega)

/-- What one cycle shows is legal exactly if it does not continue a packet that is misread. -/
theorem Parses.legal_step_iff (h : Parses rcv s f) (hi : Listens rcv s i) :
    (∀ b ∈ output (UdpDeframer.step s i),
      (f ++ [i.sAxisTdata])[f.length]? = some b.1 ∧ Legal rcv (f ++ [i.sAxisTdata]) f.length) ↔
    (i.sAxisTvalid = true → ¬ Misread rcv (f ++ [i.sAxisTdata])) := by
  rw [h.output_step hi]
  rcases arrived_eq s i with ⟨hv, harrived⟩ | ⟨hv, harrived⟩
  · simp [harrived, hv]
  · rw [harrived, collect_cons, collect_nil, List.append_nil, deframedBy]
    by_cases hp : Admitted rcv f ∧ headerLength f + 8 ≤ f.length
    · rw [if_pos hp]
      simp [hv, legal_concat_iff hp.1 hp.2]
    · have hnot : ¬ Misread rcv (f ++ [i.sAxisTdata]) := by
        intro hm
        obtain ⟨hw, -, hlen⟩ := misread_iff.mp hm
        have hf : f ≠ [] := by
          rintro rfl
          have := headerLength_bounds ([] ++ [i.sAxisTdata])
          simp at hlen
        rw [headerLength_append hf, List.length_append, List.length_singleton] at hlen
        exact hp ⟨(wanted_concat_iff (.inr (by omega))).mp hw, by omega⟩
      simp [hp, hnot]

/-- **When only legal bytes are shown**: in a run from reset with packets of at least 92 bytes,
exactly if no packet, the one in progress included, claims a header of fewer than five words and has
the matching fields where the machine looks for them. -/
theorem emits_legal_iff (rcv : Receiver) {s : State} {is : List Inputs} (hs : AfterReset s)
    (hlistens : Always step (Listens rcv) s is)
    (hlen : ∀ f ∈ packets (collect step arrived s is), 92 ≤ f.length) :
    EmitsLegal rcv s is ↔
      ∀ f ∈ packets (collect step arrived s is) ++ [openPacket (collect step arrived s is)],
        ¬ Misread rcv f := by
  have hparses := parses_afterReset rcv hs
  induction is using List.reverseRecOn with
  | nil => simp [EmitsLegal, not_misread_nil]
  | append_singleton is i ih =>
    rw [always_append] at hlistens
    rw [collect_concat] at hlen ⊢
    have hlen' : ∀ f ∈ packets (collect step arrived s is), 92 ≤ f.length :=
      fun f hf => hlen f (mem_packets_append _ hf)
    have hnow : Parses rcv (run step s is) (openPacket (collect step arrived s is)) :=
      (reads rcv).run_open hparses hlistens.1 fun f hf => resyncs_of_le (hlen' f hf)
    have hsplit : EmitsLegal rcv s (is ++ [i]) ↔ EmitsLegal rcv s is ∧
        (i.sAxisTvalid = true →
          ¬ Misread rcv (openPacket (collect step arrived s is) ++ [i.sAxisTdata])) := by
      rw [EmitsLegal, forall_prefix_concat_iff, ← hnow.legal_step_iff hlistens.2.1, run_concat]
      rfl
    refine hsplit.trans ((and_congr_left' (ih hlistens.1 hlen')).trans ?_)
    generalize collect step arrived s is = bs
    rcases arrived_eq (run step s is) i with ⟨hv, harrived⟩ | ⟨hv, harrived⟩
    · simp [hv, harrived]
    · rw [harrived, packets_concat, openPacket_concat]
      have hprev : ¬ Misread rcv (openPacket bs ++ [i.sAxisTdata]) →
          ¬ Misread rcv (openPacket bs) := mt Misread.append
      cases hl : i.sAxisTlast <;>
        simp only [hv, List.forall_mem_append, List.mem_singleton, forall_eq, forall_const,
          if_true, if_false, Bool.false_eq_true, List.not_mem_nil, false_implies, and_true,
          not_misread_nil, not_false_eq_true] <;>
        tauto

/-- The misread header of four words in a packet of 92 bytes for another port. -/
theorem emits_legal_other_port :
    EmitsLegal Receiver.bench cleared ((beats ([0x44, 0, 0, 92, 0, 0, 0, 0, 0x80, 0x11, 0, 0, 192,
      168, 0, 1, 192, 168, 0, 2] ++ List.replicate 72 0)).map fun b =>
        Receiver.bench.inputs (some b)) :=
  (emits_legal_iff Receiver.bench cleared_afterReset (by decide +kernel) (by decide +kernel)).mpr
    (by decide +kernel)

/-- The same with the port 82 bytes behind the start of the packet: four bytes are passed. -/
theorem not_always_legal :
    ¬ ∀ (rcv : Receiver) (s : State) (is : List Inputs), AfterReset s →
      Always step (Listens rcv) s is →
      (∀ f ∈ packets (collect step arrived s is), 92 ≤ f.length) → EmitsLegal rcv s is := by
  intro h
  let f : List Byte := [0x44, 0, 0, 92, 0, 0, 0, 0, 0x80, 0x11, 0, 0, 192, 168, 0, 1, 192, 168, 0,
    2] ++ List.replicate 62 0 ++ [0x2A, 0xFA] ++ List.replicate 7 0
  have hlegal := h Receiver.bench cleared
    ((f.map (·, false) ++ [(0xAA, true)]).map fun b => Receiver.bench.inputs (some b))
    cleared_afterReset (by decide +kernel) (by decide +kernel)
    (f.map fun b => Receiver.bench.inputs (some (b, false)))
    (Receiver.bench.inputs (some (0xAA, true))) (by simp [List.map_append, List.map_map,
      Function.comp_def]) (0xAA, true) (by decide +kernel)
  exact absurd hlegal.2 (by decide +kernel)

end Legal

/-! ## The balance of the counters -/

section Accounts

variable {rcv : Receiver} {f : List Byte} {s : State} {i : Inputs} {is : List Inputs}

/-- A packet of another version, or one with complete headers. -/
def Complete (f : List Byte) : Prop :=
  (¬ HasVersion f ∧ 2 ≤ f.length) ∨ (HasVersion f ∧ 5 ≤ ihl f ∧ 4 * ihl f + 8 ≤ f.length)

instance (f : List Byte) : Decidable (Complete f) := inferInstanceAs (Decidable (_ ∨ _))

/-- A packet for the receiver that ends with its headers. -/
def NoPayload (rcv : Receiver) (f : List Byte) : Prop :=
  HasVersion f ∧ IsFor rcv f ∧ f.length = 4 * ihl f + 8

instance (rcv : Receiver) (f : List Byte) : Decidable (NoPayload rcv f) :=
  inferInstanceAs (Decidable (_ ∧ _))

/-- **The counters account for every packet**: after each last byte that leads to `idle` their sum
is the number of packets so far. -/
def Accounts (s : State) (is : List Inputs) : Prop :=
  ∀ js i, js ++ [i] <+: is → i.sAxisTvalid = true → i.sAxisTlast = true →
    (run step s (js ++ [i])).deframerState = .idle →
    (run step s (js ++ [i])).validPacketsCountU + (run step s (js ++ [i])).droppedPacketsCountU =
      BitVec.ofNat 16 (packets (collect step arrived s (js ++ [i]))).length

theorem Complete.resyncs (h : Complete f) : Resyncs rcv f := by
  rcases h with ⟨hv, hlen⟩ | ⟨hv, hihl, hlen⟩
  · exact .inr (.inl ⟨hlen, hv⟩)
  · exact .inl (by rwa [headerLength_of_le hihl])

/-- Every packet is passed, or dropped, or has nothing to pass. -/
theorem Complete.cases (rcv : Receiver) (h : Complete f) :
    (Delivered rcv f ∧ Wanted rcv f ∧ ¬ NoPayload rcv f) ∨
      (¬ Delivered rcv f ∧ ¬ Wanted rcv f ∧ ¬ NoPayload rcv f) ∨
      (¬ Delivered rcv f ∧ Wanted rcv f ∧ NoPayload rcv f) := by
  unfold Delivered NoPayload
  rcases h with ⟨hv, -⟩ | ⟨hv, hihl, hlen⟩
  · have hw : ¬ Wanted rcv f := fun h => hv h.1
    exact .inr (.inl ⟨fun h => hw h.1, hw, fun h => hv h.1⟩)
  · rw [wanted_iff_isFor hv hihl, headerLength_of_le hihl]
    by_cases hfor : IsFor rcv f
    · by_cases heq : f.length = 4 * ihl f + 8
      · exact .inr (.inr ⟨fun h => by omega, hfor, hv, hfor, heq⟩)
      · exact .inl ⟨⟨hfor, by omega⟩, hfor, fun h => heq h.2.2⟩
    · exact .inr (.inl ⟨fun h => hfor h.1, hfor, fun h => hfor h.2.1⟩)

theorem countP_complete {ps : List (List Byte)} (h : ∀ f ∈ ps, Complete f) :
    ps.countP (Delivered rcv ·) + ps.countP (¬ Wanted rcv ·) + ps.countP (NoPayload rcv ·) =
      ps.length := by
  induction ps with
  | nil => rfl
  | cons f ps ih =>
    have hrest := ih fun g hg => h g (List.mem_cons_of_mem _ hg)
    rw [List.countP_cons, List.countP_cons, List.countP_cons, List.length_cons, ← hrest]
    rcases (h f (List.mem_cons_self ..)).cases rcv with
      ⟨h₁, h₂, h₃⟩ | ⟨h₁, h₂, h₃⟩ | ⟨h₁, h₂, h₃⟩ <;>
    · simp only [h₁, h₂, h₃, decide_true, decide_false, not_true_eq_false, not_false_eq_true,
        if_true, if_false, Bool.false_eq_true]
      omega

/-- What is missing from the sum of the counters. -/
theorem counters_add (hs : AfterReset s) (hlistens : Always step (Listens rcv) s is)
    (hcomplete : ∀ f ∈ packets (collect step arrived s is), Complete f) :
    (run step s is).validPacketsCountU + (run step s is).droppedPacketsCountU +
        BitVec.ofNat 16 ((packets (collect step arrived s is)).countP (NoPayload rcv ·)) =
      BitVec.ofNat 16 (packets (collect step arrived s is)).length := by
  obtain ⟨hvalid, hdropped⟩ :=
    (parses_afterReset rcv hs).counts_run hlistens fun f hf => (hcomplete f hf).resyncs
  have hzero : s.validPacketsCountU = 0#16 ∧ s.droppedPacketsCountU = 0#16 := by
    obtain ⟨s₀, i₀, hi₀, rfl⟩ := hs
    simp [step, hi₀]
  rw [hvalid, hdropped, hzero.1, hzero.2, BitVec.zero_add, BitVec.zero_add, ← BitVec.ofNat_add,
    ← BitVec.ofNat_add]
  exact congrArg (BitVec.ofNat 16) (countP_complete hcomplete)

/-- The last byte of a packet leads to `idle`. -/
theorem idle_concat (hs : AfterReset s) (hlistens : Always step (Listens rcv) s (is ++ [i]))
    (hres : ∀ f ∈ packets (collect step arrived s (is ++ [i])), Resyncs rcv f)
    (hv : i.sAxisTvalid = true) (hl : i.sAxisTlast = true) :
    (run step s (is ++ [i])).deframerState = .idle := by
  have hopen := (reads rcv).run_open (parses_afterReset rcv hs) hlistens hres
  have harrived : arrived (run step s is) i = [(i.sAxisTdata, i.sAxisTlast)] := by
    simp [arrived, hv]
  change Parses rcv _ (openPacket _) at hopen
  rw [collect_concat, harrived, openPacket_concat, hl, if_pos rfl] at hopen
  exact parses_nil_iff.mp hopen

/-- **When the counters account for every packet**: in a run from reset, exactly if no packet for
the receiver ends with its headers. Such a packet leads to `idle` without being counted. -/
theorem accounts_iff (rcv : Receiver) {s : State} {is : List Inputs} (hs : AfterReset s)
    (hlistens : Always step (Listens rcv) s is)
    (hcomplete : ∀ f ∈ packets (collect step arrived s is), Complete f) :
    Accounts s is ↔ ∀ f ∈ packets (collect step arrived s is), ¬ NoPayload rcv f := by
  have hmissing : ∀ ps : List (List Byte),
      (∀ f ∈ ps, ¬ NoPayload rcv f) ↔ ps.countP (NoPayload rcv ·) = 0 := by
    intro ps
    simp
  constructor
  · intro h
    induction is using List.reverseRecOn with
    | nil => simp
    | append_singleton is i ih =>
      rw [always_append] at hlistens
      have hsum := counters_add hs ((always_append _ _ _).mpr hlistens) hcomplete
      obtain ⟨hacc, hnow⟩ := forall_prefix_concat_iff.mp h
      have hbefore := ih hlistens.1
        (fun f hf => hcomplete f (by rw [collect_concat]; exact mem_packets_append _ hf)) hacc
      rcases arrived_eq (run step s is) i with ⟨hv, harrived⟩ | ⟨hv, harrived⟩
      · rwa [collect_concat, harrived, List.append_nil]
      · cases hl : i.sAxisTlast with
        | false =>
          rwa [collect_concat, harrived, packets_concat, hl, if_neg (by simp), List.append_nil]
        | true =>
          have hidle := idle_concat hs ((always_append _ _ _).mpr hlistens)
            (fun f hf => (hcomplete f hf).resyncs) hv hl
          rw [hmissing] at hbefore ⊢
          rw [hnow hv hl hidle] at hsum
          rw [collect_concat, harrived, packets_concat, hl, if_pos rfl, List.countP_append, hbefore,
            Nat.zero_add, List.countP_singleton] at hsum ⊢
          by_contra hone
          rw [if_pos (by simpa using hone)] at hsum
          simp at hsum
  · intro h js i hjs hv hl _
    have hpre : collect step arrived s (js ++ [i]) <+: collect step arrived s is :=
      collect_prefix s hjs
    have hsub := List.IsPrefix.subset ( packets_prefix hpre)
    obtain ⟨ks, rfl⟩ := hjs
    have hsum := counters_add hs ((always_append _ _ _).mp hlistens).1
      fun f hf => hcomplete f (hsub hf)
    rw [(hmissing _).mp fun f hf => h f (hsub hf)] at hsum
    simpa using hsum

/-- A datagram with a payload and a packet of another version. -/
theorem accounts_two :
    Accounts cleared (([benchDatagram, [0x60, 0x00]].flatMap beats).map fun b =>
      Receiver.bench.inputs (some b)) :=
  (accounts_iff Receiver.bench cleared_afterReset (by decide +kernel) (by decide +kernel)).mpr
    (by decide +kernel)

/-- The headers of the datagram alone. -/
theorem not_always_accounts :
    ¬ ∀ (rcv : Receiver) (s : State) (is : List Inputs), AfterReset s →
      Always step (Listens rcv) s is →
      (∀ f ∈ packets (collect step arrived s is), Complete f) → Accounts s is := by
  intro h
  let f := benchDatagram.take 27
  have hsum := h Receiver.bench cleared
    ((f.map (·, false) ++ [(0, true)]).map fun b => Receiver.bench.inputs (some b))
    cleared_afterReset (by decide +kernel) (by decide +kernel)
    (f.map fun b => Receiver.bench.inputs (some (b, false)))
    (Receiver.bench.inputs (some (0, true))) (by simp [List.map_append, List.map_map,
      Function.comp_def]) rfl rfl (by decide +kernel)
  revert hsum
  decide +kernel

end Accounts

end RmiiEthernet.UdpDeframer
