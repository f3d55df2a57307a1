import RmiiEthernet.Udp.Deframer

/-!
# The header parser of the UDP deframer

`udp_ip_deframer` takes the number of option bytes from the low nibble of the first byte: four
times the nibble less twenty, in six bits. For the nibbles below five the difference wraps, so
the machine skips options that a packet with such a header does not have.

`Parses` is the state of the machine after the first bytes of any packet, whatever they hold, and
`Parses.step` says what one more byte makes of it. The options are skipped by counting, the
address is compared one byte after the options and the port one byte after it has been read;
`Admitted` lists the checks that the bytes read so far have passed.
-/

namespace RmiiEthernet.UdpDeframer

open Sync EthernetFcs Udp

/-! ## The fields of a packet -/

/-- The receiver on the configuration ports. -/
structure Receiver where
  port : BitVec 16
  address : BitVec 32
  broadcast : BitVec 32

/-- No reset, enabled, and the receiver on the ports. -/
def Listens (rcv : Receiver) (_ : State) (i : Inputs) : Prop :=
  i.reset = false ∧ i.enableIn = true ∧ i.destinationPortIn = rcv.port ∧
    i.destinationAddressIn = rcv.address ∧ i.broadcastAddressIn = rcv.broadcast

instance (rcv : Receiver) (s : State) (i : Inputs) : Decidable (Listens rcv s i) :=
  inferInstanceAs (Decidable (_ ∧ _))

section Fields

variable (rcv : Receiver) (f : List Byte)

/-- The version field says IPv4. -/
def HasVersion : Prop := (f.headD 0).extractLsb' 4 4 = ipVersion

/-- The length of the header in words, as the packet states it. -/
def ihl : ℕ := ((f.headD 0).extractLsb' 0 4).toNat

/-- Where the machine takes the UDP header to start. -/
def headerLength : ℕ := if 5 ≤ ihl f then 4 * ihl f else 4 * ihl f + 64

/-- The protocol field is that of UDP. -/
def HasProtocol : Prop := f[9]? = some ipUdpProtocol

/-- The destination is the receiver's address or the broadcast address. -/
def HasAddress : Prop :=
  (f.drop 16).take 4 = bytes32 rcv.address ∨ (f.drop 16).take 4 = bytes32 rcv.broadcast

/-- The destination port, behind a header with its options, is the receiver's. -/
def HasPort : Prop := (f.drop (headerLength f + 2)).take 2 = bytes16 rcv.port

/-- The packet passes every check of the machine. -/
def Wanted : Prop := HasVersion f ∧ HasProtocol f ∧ HasAddress rcv f ∧ HasPort rcv f

/-- **The first bytes of a packet pass** the checks that are made by then. -/
def Admitted : Prop :=
  (1 ≤ f.length → HasVersion f) ∧ (10 ≤ f.length → HasProtocol f) ∧
    (headerLength f + 1 ≤ f.length → HasAddress rcv f) ∧
    (headerLength f + 5 ≤ f.length → HasPort rcv f)

instance : Decidable (HasVersion f) := inferInstanceAs (Decidable (_ = _))

instance : Decidable (HasProtocol f) := inferInstanceAs (Decidable (_ = _))

instance : Decidable (HasAddress rcv f) := inferInstanceAs (Decidable (_ ∨ _))

instance : Decidable (HasPort rcv f) := inferInstanceAs (Decidable (_ = _))

instance : Decidable (Wanted rcv f) := inferInstanceAs (Decidable (_ ∧ _))

instance : Decidable (Admitted rcv f) := inferInstanceAs (Decidable (_ ∧ _))

end Fields

section Prefixes

variable {rcv : Receiver} {f g : List Byte} {b : Byte}

theorem headerLength_bounds (f : List Byte) : 20 ≤ headerLength f ∧ headerLength f ≤ 80 := by
  have := ((f.headD 0).extractLsb' 0 4).isLt
  unfold headerLength ihl
  split <;> omega

/-- The count of option bytes in six bits. -/
theorem toNat_options (b : Byte) (f : List Byte) :
    (b.extractLsb' 0 4 ++ 0#2 - 20 : BitVec 6).toNat = headerLength (b :: f) - 20 := by
  have happend : (b.extractLsb' 0 4 ++ 0#2 : BitVec 6).toNat = 4 * (b.extractLsb' 0 4).toNat := by
    rw [BitVec.toNat_append]
    simp [Nat.shiftLeft_eq, Nat.mul_comm]
  have hlt := (b.extractLsb' 0 4).isLt
  have htwenty : (20 : BitVec 6).toNat = 20 := rfl
  rw [BitVec.toNat_sub, happend, htwenty, headerLength, ihl, List.headD_cons]
  split <;> omega

theorem headD_append (hf : f ≠ []) (g : List Byte) (b : Byte) :
    (f ++ g).headD b = f.headD b := by
  cases f with
  | nil => exact absurd rfl hf
  | cons c f => rfl

theorem hasVersion_append (hf : f ≠ []) : HasVersion (f ++ g) ↔ HasVersion f := by
  rw [HasVersion, HasVersion, headD_append hf]

theorem ihl_append (hf : f ≠ []) : ihl (f ++ g) = ihl f := by
  rw [ihl, ihl, headD_append hf]

theorem headerLength_append (hf : f ≠ []) : headerLength (f ++ g) = headerLength f := by
  rw [headerLength, headerLength, ihl_append hf]

theorem hasProtocol_append (hf : 10 ≤ f.length) : HasProtocol (f ++ g) ↔ HasProtocol f := by
  rw [HasProtocol, HasProtocol, List.getElem?_append_left (by omega)]

theorem take_drop_append {m n : ℕ} (hf : m + n ≤ f.length) :
    ((f ++ g).drop m).take n = (f.drop m).take n := by
  rw [List.drop_append_of_le_length (by omega), List.take_append_of_le_length (by simp; omega)]

theorem hasAddress_append (hf : 20 ≤ f.length) : HasAddress rcv (f ++ g) ↔ HasAddress rcv f := by
  rw [HasAddress, HasAddress, take_drop_append (by omega)]

theorem hasPort_append (hf : headerLength f + 4 ≤ f.length) :
    HasPort rcv (f ++ g) ↔ HasPort rcv f := by
  have hne : f ≠ [] := List.ne_nil_of_length_pos (by omega)
  rw [HasPort, HasPort, headerLength_append hne, take_drop_append (by omega)]

/-- What one more byte adds to the checks. -/
theorem admitted_concat :
    Admitted rcv (f ++ [b]) ↔ Admitted rcv f ∧ (f.length = 0 → HasVersion [b]) ∧
      (f.length = 9 → b = ipUdpProtocol) ∧ (f.length = headerLength f → HasAddress rcv f) ∧
      (f.length = headerLength f + 4 → HasPort rcv f) := by
  have hbounds := headerLength_bounds f
  rcases List.eq_nil_or_concat f with rfl | ⟨g, c, hg⟩
  · have := headerLength_bounds [b]
    have hlen : ([] ++ [b] : List Byte).length = 1 := rfl
    simp only [Admitted, hlen, List.length_nil]
    constructor
    · rintro ⟨h, -⟩
      refine ⟨⟨by omega, by omega, by omega, by omega⟩, fun _ => h le_rfl, by omega, by omega,
        by omega⟩
    · rintro ⟨-, h, -⟩
      exact ⟨fun _ => h trivial, by omega, by simp; omega, by simp⟩
  · have hne : f ≠ [] := by simp [hg]
    have hpos := List.length_pos_of_ne_nil hne
    have hprotocol : f.length = 9 → (HasProtocol (f ++ [b]) ↔ b = ipUdpProtocol) := by
      intro hlen
      rw [HasProtocol, ← hlen, List.getElem?_append_right le_rfl]
      simp
    simp only [Admitted, List.length_append, List.length_singleton, hasVersion_append hne,
      headerLength_append hne]
    constructor
    · rintro ⟨h₁, h₂, h₃, h₄⟩
      refine ⟨⟨fun _ => h₁ (by omega), fun hlen => ?_, fun hlen => ?_, fun hlen => ?_⟩,
        by omega, fun hlen => ?_, fun hlen => ?_, fun hlen => ?_⟩
      · exact (hasProtocol_append hlen).mp (h₂ (by omega))
      · exact (hasAddress_append (by omega)).mp (h₃ (by omega))
      · exact (hasPort_append (by omega)).mp (h₄ (by omega))
      · exact (hprotocol hlen).mp (h₂ (by omega))
      · exact (hasAddress_append (by omega)).mp (h₃ (by omega))
      · exact (hasPort_append (by omega)).mp (h₄ (by omega))
    · rintro ⟨⟨h₁, h₂, h₃, h₄⟩, -, h₅, h₆, h₇⟩
      refine ⟨fun _ => h₁ hpos, fun hlen => ?_, fun hlen => ?_, fun hlen => ?_⟩
      · by_cases heq : f.length = 9
        · exact (hprotocol heq).mpr (h₅ heq)
        · exact (hasProtocol_append (by omega)).mpr (h₂ (by omega))
      · refine (hasAddress_append (by omega)).mpr ?_
        by_cases heq : f.length = headerLength f
        · exact h₆ heq
        · exact h₃ (by omega)
      · refine (hasPort_append (by omega)).mpr ?_
        by_cases heq : f.length = headerLength f + 4
        · exact h₇ heq
        · exact h₄ (by omega)

theorem admitted_nil (rcv : Receiver) : Admitted rcv [] :=
  ⟨by simp, by simp, fun h => by simp at h, fun h => by simp at h⟩

theorem admitted_iff_wanted (hlen : headerLength f + 5 ≤ f.length) :
    Admitted rcv f ↔ Wanted rcv f := by
  have := headerLength_bounds f
  constructor
  · rintro ⟨h₁, h₂, h₃, h₄⟩
    exact ⟨h₁ (by omega), h₂ (by omega), h₃ (by omega), h₄ hlen⟩
  · rintro ⟨h₁, h₂, h₃, h₄⟩
    exact ⟨fun _ => h₁, fun _ => h₂, fun _ => h₃, fun _ => h₄⟩

end Prefixes

/-! ## The state after the first bytes of a packet -/

/-- The state after `n` bytes of a packet with `o` bytes of options that passes the checks. -/
def phase (o n : ℕ) : FsmState :=
  if n < 20 then stateAt n else if n < 20 + o then .ipOptions else stateAt (n - o)

/-- The bytes of options that are skipped. -/
def optionBytes (f : List Byte) : ℕ := headerLength f - 20

/-- **The state after the bytes `f`** of a packet. -/
def stateAfter (rcv : Receiver) (f : List Byte) : FsmState :=
  if Admitted rcv f then phase (optionBytes f) f.length else .discard

/-- **The registers after the bytes `f`** of a packet. The registers of a packet that has been
ruled out are not read again. -/
structure Parses (rcv : Receiver) (s : State) (f : List Byte) : Prop where
  state : s.deframerState = stateAfter rcv f
  words : Admitted rcv f → f ≠ [] →
    s.wordsRemainingCount = BitVec.ofNat 6 (headerLength f - max 20 f.length)
  address : Admitted rcv f → ∃ r, s.dstIpAddressRx = ((f.drop 16).take 4).foldl shiftIn r
  portHigh : Admitted rcv f → headerLength f + 3 ≤ f.length →
    f[headerLength f + 2]? = some (s.dstPortRx.extractLsb' 8 8)
  portLow : Admitted rcv f → headerLength f + 4 ≤ f.length →
    f[headerLength f + 3]? = some (s.dstPortRx.extractLsb' 0 8)

section States

variable {o n m : ℕ}

theorem stateAt_injOn : ∀ n ≤ 28, ∀ m ≤ 28, stateAt n = stateAt m → n = m := by decide

theorem stateAt_eq_iff (hm : m < 28) : stateAt n = stateAt m ↔ n = m := by
  constructor
  · intro h
    by_cases hn : n ≤ 28
    · exact stateAt_injOn n hn m hm.le h
    · rw [stateAt_of_le (by omega)] at h
      have := stateAt_injOn 28 le_rfl m hm.le h
      omega
  · rintro rfl
    rfl

theorem stateAt_ne (n : ℕ) : stateAt n ≠ .ipOptions ∧ stateAt n ≠ .discard := by
  by_cases hn : 28 ≤ n
  · simp [stateAt_of_le hn]
  · interval_cases n <;> simp [stateAt]

theorem stateAt_eq_data_iff : stateAt n = .data ↔ 28 ≤ n := by
  constructor
  · intro h
    by_contra hn
    have := stateAt_injOn 28 le_rfl n (by omega) h.symm
    omega
  · exact stateAt_of_le

/-- The states of the IP header. -/
theorem phase_eq_ip_iff (hm : m < 20) : phase o n = stateAt m ↔ n = m := by
  unfold phase
  split
  · exact stateAt_eq_iff (by omega)
  · split
    · exact iff_of_false (stateAt_ne m).1.symm (by omega)
    · rw [stateAt_eq_iff (by omega)]
      omega

/-- The states of the UDP header. -/
theorem phase_eq_udp_iff (hlow : 20 ≤ m) (hm : m < 28) : phase o n = stateAt m ↔ n = m + o := by
  unfold phase
  split
  · rw [stateAt_eq_iff hm]
    omega
  · split
    · exact iff_of_false (stateAt_ne m).1.symm (by omega)
    · rw [stateAt_eq_iff hm]
      omega

theorem phase_eq_options_iff : phase o n = .ipOptions ↔ 20 ≤ n ∧ n < 20 + o := by
  unfold phase
  split
  · exact iff_of_false (stateAt_ne n).1 (by omega)
  · split
    · exact iff_of_true rfl (by omega)
    · exact iff_of_false (stateAt_ne _).1 (by omega)

theorem phase_eq_data_iff : phase o n = .data ↔ 28 + o ≤ n := by
  unfold phase
  split
  · rw [stateAt_eq_data_iff]
    omega
  · split
    · exact iff_of_false (by simp) (by omega)
    · rw [stateAt_eq_data_iff]
      omega

theorem phase_ne_discard : phase o n ≠ .discard := by
  unfold phase
  split
  · exact (stateAt_ne _).2
  · split
    · simp
    · exact (stateAt_ne _).2

theorem takesAddress_phase : (phase o n).takesAddress = decide (16 ≤ n ∧ n ≤ 19) := by
  unfold phase
  split
  · exact takesAddress_stateAt n
  · split
    · simp [FsmState.takesAddress]
      omega
    · rw [takesAddress_stateAt, decide_eq_decide]
      omega

end States

/-! ## One byte -/

section Bytes

variable {rcv : Receiver} {s : State} {i : Inputs} {f : List Byte} {n : ℕ}

/-- The states in which nothing is checked lead to the next one. -/
theorem advance_stateAt (hs : s.deframerState = stateAt n) (hn : n < 27)
    (hne : n ≠ 0 ∧ n ≠ 9 ∧ n ≠ 19 ∧ n ≠ 20 ∧ n ≠ 24) : advance s i = stateAt (n + 1) := by
  interval_cases n <;> simp_all [advance, stateAt]

/-- Four bytes are an address. -/
theorem foldl_shiftIn_eq_iff {l : List Byte} (hl : l.length = 4) (r a : BitVec 32) :
    l.foldl shiftIn r = a ↔ l = bytes32 a := by
  constructor
  · rintro rfl
    match l, hl with
    | [b₁, b₂, b₃, b₄], _ =>
      simp only [bytes32, List.foldl_cons, List.foldl_nil, List.cons.injEq, and_true]
      refine ⟨?_, ?_, ?_, ?_⟩ <;>
      · ext k hk
        simp only [← BitVec.getLsbD_eq_getElem, BitVec.getLsbD_extractLsb', hk]
        rw [getLsbD_shiftIn _ _ (by omega)]
        grind [getLsbD_shiftIn]
  · rintro rfl
    exact foldl_shiftIn r a

theorem Parses.phase_eq (h : Parses rcv s f) (hadm : Admitted rcv f) :
    s.deframerState = phase (optionBytes f) f.length := by
  rw [h.state, stateAfter, if_pos hadm]

theorem Parses.dstIpAddressMatch_iff (h : Parses rcv s f) (hi : Listens rcv s i)
    (hadm : Admitted rcv f) (hlen : 20 ≤ f.length) :
    dstIpAddressMatch s i = true ↔ HasAddress rcv f := by
  obtain ⟨-, -, -, haddress, hbroadcast⟩ := hi
  obtain ⟨r, hr⟩ := h.address hadm
  have hfour : ((f.drop 16).take 4).length = 4 := by simp; omega
  rw [dstIpAddressMatch, haddress, hbroadcast, hr, Bool.or_eq_true, beq_iff_eq, beq_iff_eq,
    foldl_shiftIn_eq_iff hfour, foldl_shiftIn_eq_iff hfour, HasAddress]

theorem Parses.dstPortMatch_iff (h : Parses rcv s f) (hi : Listens rcv s i)
    (hadm : Admitted rcv f) (hlen : headerLength f + 4 ≤ f.length) :
    dstPortMatch s i = true ↔ HasPort rcv f := by
  have hport := hi.2.2.1
  have htwo : (f.drop (headerLength f + 2)).take 2 =
      bytes16 s.dstPortRx := by
    refine List.ext_getElem? fun k => ?_
    rw [List.getElem?_take, List.getElem?_drop]
    match k with
    | 0 => exact h.portHigh hadm (by omega)
    | 1 => exact h.portLow hadm hlen
    | k + 2 => simp [bytes16]
  rw [dstPortMatch, hport, beq_iff_eq, HasPort, htwo]
  constructor
  · rintro hrx
    rw [hrx]
  · intro heq
    simp only [bytes16, List.cons.injEq, and_true] at heq
    rw [← extractLsb_append_extractLsb s.dstPortRx, heq.1, heq.2, extractLsb_append_extractLsb]

theorem optionBytes_eq (f : List Byte) : optionBytes f + 20 = headerLength f := by
  have := headerLength_bounds f
  rw [optionBytes]
  omega

/-- After the bytes `f` the machine looks at `tlast`. -/
def Closes (rcv : Receiver) (f : List Byte) : Prop :=
  ¬ Admitted rcv f ∨ headerLength f + 7 ≤ f.length

instance (rcv : Receiver) (f : List Byte) : Decidable (Closes rcv f) :=
  inferInstanceAs (Decidable (_ ∨ _))

/-- The first byte of a packet. -/
theorem Parses.advance_first (h : Parses rcv s []) (hi : Listens rcv s i) :
    advance s i = stateAfter rcv [i.sAxisTdata] := by
  have hadm := admitted_nil rcv
  have hstate : s.deframerState = .idle := h.phase_eq hadm
  have hiff : Admitted rcv [i.sAxisTdata] ↔ versionMatch i = true := by
    have hconcat : Admitted rcv ([] ++ [i.sAxisTdata]) ↔ _ := admitted_concat
    have := headerLength_bounds []
    rw [List.nil_append] at hconcat
    rw [hconcat, versionMatch, beq_iff_eq]
    simp only [hadm, true_and, List.length_nil, HasVersion, List.headD_cons]
    constructor
    · exact fun h => h.1 trivial
    · exact fun h => ⟨fun _ => h, by simp, fun hlen => by omega, by simp⟩
  rw [stateAfter, advance, hstate]
  by_cases hv : versionMatch i = true
  · simp [hi.2.1, hv, hiff.mpr hv, phase, stateAt]
  · simp [hi.2.1, hv, mt hiff.mp hv]

/-- A byte of the IP header after the first one. -/
theorem Parses.advance_ip (h : Parses rcv s f) (hadm : Admitted rcv f) (hf : f ≠ [])
    (hlen : f.length < 20) : advance s i = stateAfter rcv (f ++ [i.sAxisTdata]) := by
  have hpos := List.length_pos_of_ne_nil hf
  have hbounds := headerLength_bounds f
  have hoptions := optionBytes_eq f
  have hstate : s.deframerState = stateAt f.length := by
    rw [h.phase_eq hadm, phase, if_pos hlen]
  have hnext : Admitted rcv (f ++ [i.sAxisTdata]) ↔
      (f.length = 9 → i.sAxisTdata = ipUdpProtocol) := by
    rw [admitted_concat]
    constructor
    · exact fun h => h.2.2.1
    · exact fun h => ⟨hadm, by omega, h, by omega, by omega⟩
  rw [stateAfter, optionBytes, headerLength_append hf, ← optionBytes, List.length_append,
    List.length_singleton]
  by_cases h₉ : f.length = 9
  · rw [h₉] at hstate
    by_cases hb : i.sAxisTdata = ipUdpProtocol
    · rw [if_pos (hnext.mpr fun _ => hb), h₉]
      simp [advance, hstate, hb, phase, stateAt]
    · rw [if_neg fun hadm' => hb (hnext.mp hadm' h₉)]
      simp [advance, hstate, hb, stateAt]
  · rw [if_pos (hnext.mpr fun h => absurd h h₉)]
    by_cases h₁₉ : f.length = 19
    · have hwords := h.words hadm hf
      have hzero : s.wordsRemainingCount = 0#6 ↔ optionBytes f = 0 := by
        rw [hwords, h₁₉, ← BitVec.toNat_inj, BitVec.toNat_ofNat, BitVec.toNat_ofNat]
        omega
      rw [h₁₉] at hstate ⊢
      by_cases ho : optionBytes f = 0
      · simp [advance, hstate, stateAt, hzero.mpr ho, phase, ho]
      · simp [advance, hstate, stateAt, mt hzero.mp ho, phase, Nat.pos_of_ne_zero ho]
    · rw [advance_stateAt hstate (by omega) (by omega), phase, if_pos (by omega)]

/-- A byte of the options. -/
theorem Parses.advance_options (h : Parses rcv s f) (hadm : Admitted rcv f)
    (hlow : 20 ≤ f.length) (hlen : f.length < headerLength f) :
    advance s i = stateAfter rcv (f ++ [i.sAxisTdata]) := by
  have hf : f ≠ [] := List.ne_nil_of_length_pos (by omega)
  have hbounds := headerLength_bounds f
  have hoptions := optionBytes_eq f
  have hstate : s.deframerState = .ipOptions := by
    rw [h.phase_eq hadm, phase_eq_options_iff]
    omega
  have hnext : Admitted rcv (f ++ [i.sAxisTdata]) :=
    admitted_concat.mpr ⟨hadm, by omega, by omega, by omega, by omega⟩
  have hone : s.wordsRemainingCount = 1#6 ↔ f.length + 1 = headerLength f := by
    rw [h.words hadm hf, ← BitVec.toNat_inj, BitVec.toNat_ofNat, BitVec.toNat_ofNat]
    omega
  rw [stateAfter, if_pos hnext, optionBytes, headerLength_append hf, ← optionBytes,
    List.length_append, List.length_singleton]
  by_cases hlast : f.length + 1 = headerLength f
  · have hphase : phase (optionBytes f) (f.length + 1) = stateAt 20 :=
      (phase_eq_udp_iff le_rfl (by omega)).mpr (by omega)
    rw [hphase]
    simp [advance, hstate, hone.mpr hlast, stateAt]
  · have hphase : phase (optionBytes f) (f.length + 1) = .ipOptions :=
      phase_eq_options_iff.mpr (by omega)
    rw [hphase]
    simp [advance, hstate, mt hone.mp hlast]

/-- A byte of the UDP header, but for the last. -/
theorem Parses.advance_udp (h : Parses rcv s f) (hi : Listens rcv s i) (hadm : Admitted rcv f)
    (hlow : headerLength f ≤ f.length) (hlen : f.length < headerLength f + 7) :
    advance s i = stateAfter rcv (f ++ [i.sAxisTdata]) := by
  have hbounds := headerLength_bounds f
  have hf : f ≠ [] := List.ne_nil_of_length_pos (by omega)
  have hoptions := optionBytes_eq f
  have hstate : s.deframerState = stateAt (f.length - optionBytes f) := by
    rw [h.phase_eq hadm, phase_eq_udp_iff (by omega) (by omega)]
    omega
  have hphase : phase (optionBytes f) (f.length + 1) = stateAt (f.length - optionBytes f + 1) :=
    (phase_eq_udp_iff (by omega) (by omega)).mpr (by omega)
  have hnext : Admitted rcv (f ++ [i.sAxisTdata]) ↔
      (f.length = headerLength f → HasAddress rcv f) ∧
        (f.length = headerLength f + 4 → HasPort rcv f) := by
    rw [admitted_concat]
    constructor
    · exact fun h => h.2.2.2
    · exact fun h => ⟨hadm, by omega, by omega, h⟩
  rw [stateAfter, optionBytes, headerLength_append hf, ← optionBytes, List.length_append,
    List.length_singleton, hphase]
  by_cases h₂₀ : f.length = headerLength f
  · rw [show f.length - optionBytes f = 20 by omega] at hstate ⊢
    have hmatch := h.dstIpAddressMatch_iff hi hadm (by omega)
    have hnext' : Admitted rcv (f ++ [i.sAxisTdata]) ↔ HasAddress rcv f := by
      rw [hnext]
      exact ⟨fun h => h.1 h₂₀, fun h => ⟨fun _ => h, by omega⟩⟩
    by_cases ha : HasAddress rcv f
    · simp [advance, hstate, stateAt, hmatch.mpr ha, hnext'.mpr ha]
    · simp [advance, hstate, stateAt, mt hmatch.mp ha, mt hnext'.mp ha]
  · by_cases h₂₄ : f.length = headerLength f + 4
    · rw [show f.length - optionBytes f = 24 by omega] at hstate ⊢
      have hmatch := h.dstPortMatch_iff hi hadm (by omega)
      have hnext' : Admitted rcv (f ++ [i.sAxisTdata]) ↔ HasPort rcv f := by
        rw [hnext]
        exact ⟨fun h => h.2 h₂₄, fun h => ⟨by omega, fun _ => h⟩⟩
      by_cases ha : HasPort rcv f
      · simp [advance, hstate, stateAt, hmatch.mpr ha, hnext'.mpr ha]
      · simp [advance, hstate, stateAt, mt hmatch.mp ha, mt hnext'.mp ha]
    · rw [if_pos (hnext.mpr ⟨by omega, by omega⟩)]
      exact advance_stateAt hstate (by omega) (by omega)

/-- **The next state**, whatever the byte is. -/
theorem Parses.advance_eq (h : Parses rcv s f) (hi : Listens rcv s i) :
    advance s i = if i.sAxisTlast = true ∧ Closes rcv f then .idle
      else stateAfter rcv (f ++ [i.sAxisTdata]) := by
  have hbounds := headerLength_bounds f
  have hoptions := optionBytes_eq f
  by_cases hadm : Admitted rcv f
  · by_cases hlen : f.length < headerLength f + 7
    · have hopen : ¬ Closes rcv f := not_or.mpr ⟨not_not.mpr hadm, by omega⟩
      rw [if_neg fun h => hopen h.2]
      by_cases h₁ : f = []
      · subst h₁
        exact h.advance_first hi
      · by_cases h₂ : f.length < 20
        · exact h.advance_ip hadm h₁ h₂
        · by_cases h₃ : f.length < headerLength f
          · exact h.advance_options hadm (by omega) h₃
          · exact h.advance_udp hi hadm (by omega) hlen
    · have hf : f ≠ [] := List.ne_nil_of_length_pos (by omega)
      have hcloses : Closes rcv f := .inr (by omega)
      have hnext : Admitted rcv (f ++ [i.sAxisTdata]) :=
        admitted_concat.mpr ⟨hadm, by omega, by omega, by omega, by omega⟩
      have hdata : stateAfter rcv (f ++ [i.sAxisTdata]) = .data := by
        rw [stateAfter, if_pos hnext, phase_eq_data_iff, optionBytes, headerLength_append hf,
          List.length_append, List.length_singleton]
        omega
      have hstate : s.deframerState = .checksum2 ∨ s.deframerState = .data := by
        rw [h.phase_eq hadm, phase_eq_data_iff]
        by_cases heq : f.length = headerLength f + 7
        · exact .inl ((phase_eq_udp_iff (m := 27) (by omega) (by omega)).mpr (by omega))
        · exact .inr (by omega)
      rw [hdata]
      rcases hstate with hstate | hstate <;> simp [advance, hstate, hcloses]
  · have hcloses : Closes rcv f := .inl hadm
    have hstate : s.deframerState = .discard := by rw [h.state, stateAfter, if_neg hadm]
    have hnext : ¬ Admitted rcv (f ++ [i.sAxisTdata]) := fun h => hadm (admitted_concat.mp h).1
    simp [advance, hstate, hcloses, stateAfter, hnext]

end Bytes

/-! ## One cycle -/

section Cycle

variable {rcv : Receiver} {s : State} {i : Inputs} {f : List Byte}

/-- Between packets nothing is known of the other registers, and nothing needed. -/
theorem parses_nil_iff : Parses rcv s [] ↔ s.deframerState = .idle := by
  have hstate : stateAfter rcv [] = .idle := if_pos (admitted_nil rcv)
  constructor
  · exact fun h => h.state.trans hstate
  · intro h
    exact ⟨h.trans hstate.symm, fun _ hne => absurd rfl hne, fun _ => ⟨_, rfl⟩,
      fun _ hlen => by simp at hlen, fun _ hlen => by simp at hlen⟩

theorem Parses.step_quiet (h : Parses rcv s f) (hi : Listens rcv s i)
    (hv : i.sAxisTvalid = false) : Parses rcv (step s i) f := by
  refine ⟨?_, fun hadm hf => ?_, fun hadm => ?_, fun hadm hlen => ?_, fun hadm hlen => ?_⟩
  · simpa [UdpDeframer.step, hi.1, hv] using h.state
  · simpa [UdpDeframer.step, hv] using h.words hadm hf
  · simpa [UdpDeframer.step, hv] using h.address hadm
  · simpa [UdpDeframer.step, hv] using h.portHigh hadm hlen
  · simpa [UdpDeframer.step, hv] using h.portLow hadm hlen

/-- The count of the options after one more byte. -/
theorem Parses.words_step (h : Parses rcv s f) (hi : Listens rcv s i) (hv : i.sAxisTvalid = true)
    (hadm : Admitted rcv (f ++ [i.sAxisTdata])) :
    (step s i).wordsRemainingCount =
      BitVec.ofNat 6 (headerLength (f ++ [i.sAxisTdata]) - max 20 (f.length + 1)) := by
  have hadm' := (admitted_concat.mp hadm).1
  have hstate := h.phase_eq hadm'
  by_cases hf : f = []
  · subst hf
    have hidle : s.deframerState = .idle := hstate
    have hmatch : versionMatch i = true := by
      rw [versionMatch, beq_iff_eq]
      exact hadm.1 (by simp)
    have hwords : (step s i).wordsRemainingCount = i.sAxisTdata.extractLsb' 0 4 ++ 0#2 - 20 := by
      simp [UdpDeframer.step, hv, hidle, hi.2.1, hmatch]
    rw [hwords, ← BitVec.toNat_inj, toNat_options _ [], BitVec.toNat_ofNat, List.nil_append,
      List.length_nil]
    have := headerLength_bounds [i.sAxisTdata]
    omega
  · have hpos := List.length_pos_of_ne_nil hf
    have hbounds := headerLength_bounds f
    have hoptions := optionBytes_eq f
    have hidle : s.deframerState ≠ .idle := by
      rw [hstate]
      exact fun h => by have := (phase_eq_ip_iff (m := 0) (by omega)).mp h; omega
    rw [headerLength_append hf]
    by_cases hskip : 20 ≤ f.length ∧ f.length < headerLength f
    · have hopt : s.deframerState = .ipOptions := by
        rw [hstate, phase_eq_options_iff]
        omega
      have hwords : (step s i).wordsRemainingCount = s.wordsRemainingCount - 1 := by
        simp [UdpDeframer.step, hv, hopt]
      have hone : (1 : BitVec 6).toNat = 1 := rfl
      rw [hwords, h.words hadm' hf, ← BitVec.toNat_inj, BitVec.toNat_sub, hone, BitVec.toNat_ofNat,
        BitVec.toNat_ofNat]
      omega
    · have hopt : s.deframerState ≠ .ipOptions := by
        rw [hstate, Ne, phase_eq_options_iff]
        omega
      have hwords : (step s i).wordsRemainingCount = s.wordsRemainingCount := by
        simp [UdpDeframer.step, hidle, hopt]
      rw [hwords, h.words hadm' hf]
      congr 1
      omega

/-- The address register after one more byte. -/
theorem Parses.address_step (h : Parses rcv s f) (hv : i.sAxisTvalid = true)
    (hadm : Admitted rcv f) :
    ∃ r, (step s i).dstIpAddressRx = (((f ++ [i.sAxisTdata]).drop 16).take 4).foldl shiftIn r := by
  obtain ⟨r, hr⟩ := h.address hadm
  have htakes : s.deframerState.takesAddress = decide (16 ≤ f.length ∧ f.length ≤ 19) := by
    rw [h.phase_eq hadm, takesAddress_phase]
  by_cases hlow : f.length < 16
  · have hnone : (f ++ [i.sAxisTdata]).drop 16 = [] := List.drop_eq_nil_of_le (by simp; omega)
    exact ⟨_, by rw [hnone]; rfl⟩
  · refine ⟨r, ?_⟩
    by_cases hhigh : f.length ≤ 19
    · have hshift : (step s i).dstIpAddressRx = shiftIn s.dstIpAddressRx i.sAxisTdata := by
        simp [UdpDeframer.step, hv, htakes, hhigh]
        omega
      have hall : (f.drop 16).take 4 = f.drop 16 := List.take_of_length_le (by simp; omega)
      rw [hshift, hr, hall, List.drop_append_of_le_length (by omega),
        List.take_of_length_le (by simp; omega), List.foldl_append]
      rfl
    · have hkeep : (step s i).dstIpAddressRx = s.dstIpAddressRx := by
        simp [UdpDeframer.step, htakes, hhigh]
      rw [hkeep, hr, take_drop_append (by omega)]

/-- The port register after one more byte: the byte read stands in it, the other half is kept. -/
theorem Parses.port_step (h : Parses rcv s f) (hv : i.sAxisTvalid = true)
    (hadm : Admitted rcv f) :
    (step s i).dstPortRx.extractLsb' 8 8 = (if f.length = headerLength f + 2 then i.sAxisTdata
        else s.dstPortRx.extractLsb' 8 8) ∧
      (step s i).dstPortRx.extractLsb' 0 8 = if f.length = headerLength f + 3 then i.sAxisTdata
        else s.dstPortRx.extractLsb' 0 8 := by
  have hbounds := headerLength_bounds f
  have hoptions := optionBytes_eq f
  have hhigh : s.deframerState = .dstPort1 ↔ f.length = headerLength f + 2 := by
    rw [h.phase_eq hadm]
    exact (phase_eq_udp_iff (m := 22) (by omega) (by omega)).trans (by omega)
  have hlow : s.deframerState = .dstPort2 ↔ f.length = headerLength f + 3 := by
    rw [h.phase_eq hadm]
    exact (phase_eq_udp_iff (m := 23) (by omega) (by omega)).trans (by omega)
  by_cases h₁ : f.length = headerLength f + 2
  · have hrx : (step s i).dstPortRx = i.sAxisTdata ++ s.dstPortRx.extractLsb' 0 8 := by
      simp [UdpDeframer.step, hv, hhigh.mpr h₁]
    rw [hrx, if_pos h₁, if_neg (by omega), BitVec.extractLsb'_append_eq_left,
      BitVec.extractLsb'_append_eq_right]
    exact ⟨rfl, rfl⟩
  · by_cases h₂ : f.length = headerLength f + 3
    · have hrx : (step s i).dstPortRx = s.dstPortRx.extractLsb' 8 8 ++ i.sAxisTdata := by
        simp [UdpDeframer.step, hv, hlow.mpr h₂]
      rw [hrx, if_pos h₂, if_neg h₁, BitVec.extractLsb'_append_eq_left,
        BitVec.extractLsb'_append_eq_right]
      exact ⟨rfl, rfl⟩
    · have hrx : (step s i).dstPortRx = s.dstPortRx := by
        simp [UdpDeframer.step, mt hhigh.mp h₁, mt hlow.mp h₂]
      rw [hrx, if_neg h₁, if_neg h₂]
      exact ⟨rfl, rfl⟩

/-- A byte of a packet that is read off with one more byte. -/
theorem getElem?_concat {k : ℕ} {x b : Byte} (hk : k ≤ f.length)
    (h : k + 1 ≤ f.length → f[k]? = some x) :
    (f ++ [b])[k]? = some (if f.length = k then b else x) := by
  split
  · next heq => rw [← heq, List.getElem?_append_right le_rfl, Nat.sub_self, List.getElem?_cons_zero]
  · rw [List.getElem?_append_left (by omega)]
    exact h (by omega)

/-- **A byte after which the machine does not look at `tlast`**, or that is not the last. -/
theorem Parses.step (h : Parses rcv s f) (hi : Listens rcv s i) (hv : i.sAxisTvalid = true)
    (hopen : ¬ (i.sAxisTlast = true ∧ Closes rcv f)) :
    Parses rcv (step s i) (f ++ [i.sAxisTdata]) := by
  have hlength : (f ++ [i.sAxisTdata]).length = f.length + 1 := by simp
  have hprev : Admitted rcv (f ++ [i.sAxisTdata]) → Admitted rcv f :=
    fun hadm => (admitted_concat.mp hadm).1
  refine ⟨?_, fun hadm _ => ?_, fun hadm => ?_, fun hadm hlen => ?_, fun hadm hlen => ?_⟩
  · have hnext : (UdpDeframer.step s i).deframerState = advance s i := by
      simp [UdpDeframer.step, hi.1, hv]
    rw [hnext, h.advance_eq hi, if_neg hopen]
  · rw [h.words_step hi hv hadm, hlength]
  · exact h.address_step hv (hprev hadm)
  · have hbounds := headerLength_bounds (f ++ [i.sAxisTdata])
    have hf : f ≠ [] := List.ne_nil_of_length_pos (by omega)
    rw [hlength, headerLength_append hf] at hlen
    rw [headerLength_append hf, (h.port_step hv (hprev hadm)).1]
    exact getElem?_concat (by omega) (h.portHigh (hprev hadm))
  · have hbounds := headerLength_bounds (f ++ [i.sAxisTdata])
    have hf : f ≠ [] := List.ne_nil_of_length_pos (by omega)
    rw [hlength, headerLength_append hf] at hlen
    rw [headerLength_append hf, (h.port_step hv (hprev hadm)).2]
    exact getElem?_concat (by omega) (h.portLow (hprev hadm))

/-- The last byte of a packet, where it is looked for. -/
theorem Parses.step_last (h : Parses rcv s f) (hi : Listens rcv s i) (hv : i.sAxisTvalid = true)
    (hlast : i.sAxisTlast = true) (hcloses : Closes rcv f) :
    Parses rcv (UdpDeframer.step s i) [] := by
  have hnext : (UdpDeframer.step s i).deframerState = advance s i := by
    simp [UdpDeframer.step, hi.1, hv]
  rw [parses_nil_iff, hnext, h.advance_eq hi, if_pos ⟨hlast, hcloses⟩]

theorem Parses.deframes_iff (h : Parses rcv s f) (hv : i.sAxisTvalid = true) :
    deframes s i = true ↔ Admitted rcv f ∧ headerLength f + 8 ≤ f.length := by
  have hoptions := optionBytes_eq f
  rw [deframes, hv, Bool.true_and, beq_iff_eq, h.state, stateAfter]
  by_cases hadm : Admitted rcv f
  · rw [if_pos hadm, phase_eq_data_iff, and_iff_right hadm]
    omega
  · simp [hadm]

theorem Parses.drops_iff (h : Parses rcv s f) (hv : i.sAxisTvalid = true) :
    drops s i = true ↔ ¬ Admitted rcv f ∧ i.sAxisTlast = true := by
  rw [drops, hv, Bool.true_and, Bool.and_eq_true, beq_iff_eq, h.state, stateAfter]
  by_cases hadm : Admitted rcv f
  · simp [hadm, phase_ne_discard]
  · simp [hadm]

end Cycle

end RmiiEthernet.UdpDeframer
