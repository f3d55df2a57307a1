import RmiiEthernet.Rmii.Link

/-!
# A carrier that ends before the data

On the `crs_dv` line of RMII the carrier sense and the data valid signals alternate: the first
di-bit of a nibble comes with carrier sense, the second one with data valid. A PHY that loses the
carrier while it still has data to deliver lowers `crs_dv` on the first di-bit of every nibble from
there on (`multiplexed`).

`rmii_mac_rx` takes `crs_dv` for one signal. The first low di-bit aligns it anew, and with a carrier
of single cycles it never counts to a byte again: it shows the bytes that had begun when the carrier
was lost (`shown_multiplexed`), which are those of the packet only when this is its last nibble
(`shown_multiplexed_iff`).
-/

namespace RmiiEthernet.RmiiMacRx

open Sync EthernetFcs RmiiMacTx RmiiLink

/-- The inputs behind the loss of the carrier: low on the first di-bit of a nibble, high on the
second one. -/
def toggled : List DiBit → List Inputs
  | a :: b :: l => ⟨false, false, a⟩ :: ⟨false, true, b⟩ :: toggled l
  | _ => []

/-- The di-bits of the preamble and the delimiter. -/
def start : List DiBit := List.replicate 28 1 ++ [1, 1, 1, 3]

/-- The inputs for a packet whose carrier is lost at the nibble `j` behind the delimiter. -/
def multiplexed (q : List Byte) (j : ℕ) : List Inputs :=
  carrier (start ++ (q.flatMap diBits).take (2 * j)) ++ toggled ((q.flatMap diBits).drop (2 * j))

/-! ## While the carrier is on -/

section Solid

variable {s : State}

/-- The first register sees the di-bits one cycle late. -/
theorem received_solid (hs : s.crsDvR = true) (ds : List DiBit) (d : DiBit) :
    collect step received s (carrier (ds ++ [d])) = (s.rxdR :: ds).map (·, false) := by
  induction ds generalizing s with
  | nil => simp [received, hs]
  | cons e ds ih =>
    have hone : received s ⟨false, true, e⟩ = [(s.rxdR, false)] := by simp [received, hs]
    rw [List.cons_append, carrier_cons, collect_cons, hone, ih rfl]
    rfl

theorem run_solid (s : State) (ds : List DiBit) (d : DiBit) :
    (run step s (carrier (ds ++ [d]))).crsDvR = true ∧
      (run step s (carrier (ds ++ [d]))).rxdR = d := by
  have happ : carrier (ds ++ [d]) = carrier ds ++ carrier [d] := by simp [carrier]
  rw [happ, run_append]
  exact ⟨rfl, rfl⟩

/-- From a silent receiver, all the di-bits but the one in the register have been decoded. -/
theorem Silent.run_solid (h : Silent s) (ds : List DiBit) (d : DiBit) :
    ∃ p, Owes (run step s (carrier (ds ++ [d])))
        (run Decoder.step ⟨none, s.fsmState⟩ (ds.map (·, false))) p ∧
      collect Decoder.step Decoder.emit ⟨none, s.fsmState⟩ (ds.map (·, false)) =
        collect step shown s (carrier (ds ++ [d])) ++ p := by
  have hspaced : Always step Spaced s (carrier (ds ++ [d]) ++ quiet []) :=
    spaced_event (fun _ => h.byteCounterReset) _ _
  rw [quiet_nil, List.append_nil] at hspaced
  have hreceived : collect step received s (carrier (ds ++ [d])) = ds.map (·, false) := by
    cases ds with
    | nil => simp [received, h.crsDvR]
    | cons e ds =>
      have hnone : received s ⟨false, true, e⟩ = [] := by simp [received, h.crsDvR]
      rw [List.cons_append, carrier_cons, collect_cons, hnone, received_solid rfl]
      rfl
  obtain ⟨p, howes, heq⟩ := exists_pending (fun s g p i => owes_step) h.owes hspaced
  rw [hreceived] at howes heq
  exact ⟨p, howes, heq⟩

/-- Behind the delimiter, bytes that are not marked are delivered one by one. -/
theorem decode_unmarked (q : List Byte) :
    run Decoder.step ⟨some [], .data⟩ ((q.flatMap diBits).map (·, false)) = ⟨some [], .data⟩ ∧
      collect Decoder.step Decoder.emit ⟨some [], .data⟩ ((q.flatMap diBits).map (·, false)) =
        q.map (·, false) := by
  induction q with
  | nil => exact ⟨rfl, rfl⟩
  | cons b q ih =>
    have hb : byteOf [diBit b 0, diBit b 1, diBit b 2, diBit b 3] = b := byteOf_diBits b
    have hfour : (diBits b).map (·, false) =
        [(diBit b 0, false), (diBit b 1, false), (diBit b 2, false), (diBit b 3, false)] := rfl
    rw [List.flatMap_cons, List.map_append, hfour, run_append, collect_append, Decoder.run_four,
      Decoder.collect_four, hb]
    exact ⟨ih.1, congrArg ((b, false) :: ·) ih.2⟩

/-- The preamble and the delimiter bring the decoder into step. -/
theorem decode_start :
    run Decoder.step ⟨none, .waitForSfd⟩ (start.map (·, false)) = ⟨some [], .data⟩ ∧
      collect Decoder.step Decoder.emit ⟨none, .waitForSfd⟩ (start.map (·, false)) = [] :=
  ⟨rfl, rfl⟩

theorem decode_begun (q : List Byte) :
    run Decoder.step ⟨none, .waitForSfd⟩ ((start ++ q.flatMap diBits).map (·, false)) =
        ⟨some [], .data⟩ ∧
      collect Decoder.step Decoder.emit ⟨none, .waitForSfd⟩
        ((start ++ q.flatMap diBits).map (·, false)) = q.map (·, false) := by
  obtain ⟨h₁, h₂⟩ := decode_start
  rw [List.map_append, run_append, collect_append, h₁, h₂]
  exact decode_unmarked q

end Solid

/-! ## Behind the loss of the carrier -/

section Lost

variable {s : State} {i : Inputs}

/-- The beats in the registers. -/
def inFlight (s : State) : List (Byte × Bool) := output s ++ passed s ++ passing s

theorem inFlight_step (hi : i.reset = false) :
    inFlight s ++ passing (step s i) = shown s i ++ inFlight (step s i) := by
  unfold inFlight
  rw [output_step hi, passed_step hi, shown]
  simp only [List.append_assoc]

theorem advance_eq_fsmState (h : s.rxByteValid = false) : advance s = s.fsmState := by
  unfold advance
  rw [h]
  cases s.fsmState <;> rfl

theorem Silent.inFlight (h : Silent s) : inFlight s = [] := by
  simp [RmiiMacRx.inFlight, output, passed, passing, h.rxByteValid, h.rxByteValidR, h.mAxisTvalid]

/-- No byte is completed as long as the carrier does not last for two cycles. -/
structure Starved (s : State) : Prop where
  off : s.crsDvR = false →
    s.byteCounter = 1 ∨ (s.byteCounterReset = true ∧ s.byteCounter ≠ 3)
  on : s.crsDvR = true → s.byteCounterReset = true ∧ s.byteCounter ≠ 3

/-- No reset, and no carrier for two cycles. -/
def Single (s : State) (i : Inputs) : Prop :=
  i.reset = false ∧ (s.crsDvR = true → i.crsDv = false)

theorem Starved.step (h : Starved s) (hi : Single s i) :
    Starved (step s i) ∧ passing (step s i) = [] := by
  obtain ⟨hreset, hsingle⟩ := hi
  cases hon : s.crsDvR with
  | false =>
    have hv : (RmiiMacRx.step s i).rxByteValid = false := by simp [RmiiMacRx.step, hon]
    have hr : (RmiiMacRx.step s i).byteCounterReset = true := by simp [RmiiMacRx.step, hon]
    have hc : (RmiiMacRx.step s i).byteCounter ≠ 3 := by
      rcases h.off hon with hone | ⟨hbr, -⟩
      · cases hbr : s.byteCounterReset <;> simp [RmiiMacRx.step, hone, hbr]
      · simp [RmiiMacRx.step, hbr]
    exact ⟨⟨fun _ => .inr ⟨hr, hc⟩, fun _ => ⟨hr, hc⟩⟩, by simp [passing, hv]⟩
  | true =>
    obtain ⟨hbr, hne⟩ := h.on hon
    have hoff : (RmiiMacRx.step s i).crsDvR = false := hsingle hon
    have hc : (RmiiMacRx.step s i).byteCounter = 1 := by simp [RmiiMacRx.step, hbr]
    have hv : (RmiiMacRx.step s i).rxByteValid = false := by
      have hmax : byteCounterMax s = false := by simpa [byteCounterMax] using hne
      simp [RmiiMacRx.step, hmax]
    exact ⟨⟨fun _ => .inl hc, fun hon' => by simp [hoff] at hon'⟩, by simp [passing, hv]⟩

theorem single_toggled (s : State) (l gap : List DiBit) :
    Always step Single s (toggled l ++ quiet gap) := by
  fun_induction toggled l generalizing s with
  | case1 a b l ih => exact ⟨⟨rfl, fun _ => rfl⟩, ⟨rfl, fun hon => by simp [step] at hon⟩, ih _⟩
  | case2 l =>
    rw [List.nil_append]
    induction gap generalizing s with
    | nil => trivial
    | cons d gap ih => exact ⟨⟨rfl, fun _ => rfl⟩, ih _⟩

/-- A starved receiver only empties its registers. -/
theorem shown_of_starved {is : List Inputs} (h : Starved s) (his : Always step Single s is)
    (hend : Silent (run step s is)) : collect step shown s is = inFlight s := by
  obtain ⟨p, ⟨-, hp⟩, heq⟩ := exists_rest (R := fun s p => Starved s ∧ p = inFlight s)
    (fun s p i hs hi => by
      obtain ⟨h₁, h₂⟩ := hs.1.step hi
      have hstep : inFlight s ++ passing (step s i) = _ := inFlight_step hi.1
      rw [h₂, List.append_nil] at hstep
      exact ⟨_, ⟨h₁, rfl⟩, hs.2.trans hstep⟩)
    ⟨h, rfl⟩ his
  rw [heq, hp, hend.inFlight, List.append_nil]

theorem silent_run_toggled (s : State) (l : List DiBit) {gap : List DiBit}
    (hgap : 4 ≤ gap.length) : Silent (run step s (toggled l ++ quiet gap)) := by
  rw [run_append]
  exact silent_run_quiet _ hgap

/-- Behind a nibble the line is low. -/
theorem exists_cons_toggled (l : List DiBit) {gap : List DiBit} (hgap : 4 ≤ gap.length) :
    ∃ d is, toggled l ++ quiet gap = ⟨false, false, d⟩ :: is := by
  fun_cases toggled l with
  | case1 a b l => exact ⟨a, _, rfl⟩
  | case2 l =>
    obtain ⟨d, gap, rfl⟩ := List.exists_cons_of_length_pos (by omega : 0 < gap.length)
    exact ⟨d, quiet gap, rfl⟩

variable {g : Decoder} {p : List (Byte × Bool)}

/-- The first di-bit without a carrier. -/
theorem lost_step (h : Owes s g p) (hon : s.crsDvR = true) (a : DiBit) :
    p ++ Decoder.emit g (s.rxdR, true) =
      shown s ⟨false, false, a⟩ ++ inFlight (step s ⟨false, false, a⟩) := by
  obtain ⟨p', howes, heq⟩ := owes_step h
    (show Spaced s ⟨false, false, a⟩ from ⟨rfl, fun _ hon => by simp at hon⟩)
  have hreceived : received s ⟨false, false, a⟩ = [(s.rxdR, true)] := by simp [received, hon]
  rw [hreceived, collect_cons, collect_nil, List.append_nil] at heq
  rw [heq, howes.pending]
  rfl

/-- The two di-bits of the nibble at which the carrier is lost. No byte is completed with them. -/
theorem lost_nibble (h : Owes s g p) (hon : s.crsDvR = true) (a b : DiBit) (is : List Inputs) :
    ∃ out, out ++ inFlight (step (step s ⟨false, false, a⟩) ⟨false, true, b⟩) =
        p ++ Decoder.emit g (s.rxdR, true) ∧
      collect step shown s (⟨false, false, a⟩ :: ⟨false, true, b⟩ :: is) =
        out ++ collect step shown (step (step s ⟨false, false, a⟩) ⟨false, true, b⟩) is := by
  have hpassing : passing (step (step s ⟨false, false, a⟩) ⟨false, true, b⟩) = [] := by
    simp [passing, step]
  have hstep : inFlight (step s ⟨false, false, a⟩) ++
      passing (step (step s ⟨false, false, a⟩) ⟨false, true, b⟩) = _ := inFlight_step rfl
  rw [hpassing, List.append_nil] at hstep
  refine ⟨shown s ⟨false, false, a⟩ ++ shown (step s ⟨false, false, a⟩) ⟨false, true, b⟩, ?_, ?_⟩
  · rw [lost_step h hon a, hstep, List.append_assoc]
  · rw [collect_cons, collect_cons, List.append_assoc]

/-- **The carrier is lost between two bytes**: nothing more is received. -/
theorem shown_lost_between {l : List DiBit} {f : FsmState} (h : Owes s ⟨some l, f⟩ p)
    (hl : l.length = 3) (hon : s.crsDvR = true) (a b : DiBit) (rest : List DiBit)
    {gap : List DiBit} (hgap : 4 ≤ gap.length) :
    collect step shown s (toggled (a :: b :: rest) ++ quiet gap) =
      p ++ Decoder.emit ⟨some l, f⟩ (s.rxdR, true) := by
  obtain ⟨hbr, -, hc, -⟩ := h.on hon
  obtain ⟨out, hout, heq⟩ := lost_nibble h hon a b (toggled rest ++ quiet gap)
  have hstarved : Starved (step (step s ⟨false, false, a⟩) ⟨false, true, b⟩) := by
    refine ⟨fun hoff => by simp [step] at hoff, fun _ => ?_⟩
    simp [step, hon, hbr, hc, hl]
  rw [toggled, List.cons_append, List.cons_append, heq, ← hout,
    shown_of_starved hstarved (single_toggled _ _ _) (silent_run_toggled _ _ hgap)]

/-- **The carrier is lost inside a byte**: the second half of this byte still comes in step. -/
theorem shown_lost_inside {c : DiBit} (h : Owes s ⟨some [c], .data⟩ p) (hon : s.crsDvR = true)
    (a b : DiBit) (rest : List DiBit) {gap : List DiBit} (hgap : 4 ≤ gap.length) :
    collect step shown s (toggled (a :: b :: rest) ++ quiet gap) =
      p ++ [(byteOf [c, s.rxdR, a, b], true)] := by
  obtain ⟨hbr, -, hc, r, hr⟩ := h.on hon
  obtain ⟨out, hout, heq⟩ := lost_nibble h hon a b (toggled rest ++ quiet gap)
  obtain ⟨d, is, his⟩ := exists_cons_toggled rest hgap
  have hend := silent_run_toggled (step (step s ⟨false, false, a⟩) ⟨false, true, b⟩) rest hgap
  have hsingle := single_toggled (step (step s ⟨false, false, a⟩) ⟨false, true, b⟩) rest gap
  rw [his] at hend hsingle
  have hstarved : Starved
      (step (step (step s ⟨false, false, a⟩) ⟨false, true, b⟩) ⟨false, false, d⟩) := by
    refine ⟨fun _ => .inl ?_, fun hon => by simp [step] at hon⟩
    simp [step]
  have hpassing : passing
      (step (step (step s ⟨false, false, a⟩) ⟨false, true, b⟩) ⟨false, false, d⟩) =
        [(byteOf [c, s.rxdR, a, b], true)] := by
    have hdata : advance s = .data := h.fsmState.symm
    have h₁ : (step s ⟨false, false, a⟩).rxByteValid = false := by
      simp [step, byteCounterMax, hc]
    have h₂ : (step (step s ⟨false, false, a⟩) ⟨false, true, b⟩).rxByteValid = false := by
      simp [step]
    have hfsm : (step (step (step s ⟨false, false, a⟩) ⟨false, true, b⟩)
        ⟨false, false, d⟩).fsmState = .data :=
      ((advance_eq_fsmState h₂).trans (advance_eq_fsmState h₁)).trans hdata
    rw [passing, hfsm, ← foldl_pushDiBit r rfl]
    simp [step, hon, hbr, hc, hr, byteCounterMax]
  have hstep : inFlight (step (step s ⟨false, false, a⟩) ⟨false, true, b⟩) ++ _ = _ :=
    inFlight_step (show (⟨false, false, d⟩ : Inputs).reset = false from rfl)
  rw [hpassing] at hstep
  have hemit : Decoder.emit ⟨some [c], .data⟩ (s.rxdR, true) = [] := rfl
  rw [hemit, List.append_nil] at hout
  rw [toggled, List.cons_append, List.cons_append, heq, ← hout, List.append_assoc, hstep, his,
    collect_cons, shown_of_starved hstarved hsingle.2 hend]

end Lost

/-! ## The bytes that are received -/

section Bytes

variable {s : State}

/-- The di-bits of a packet at the loss of the carrier. -/
theorem multiplexed_of_split (r : List Byte) {q : List Byte} {j k : ℕ} {ds ds' : List DiBit}
    (hj : 2 * j = 4 * r.length + k) (hds : (q.flatMap diBits).take k = ds)
    (hds' : (q.flatMap diBits).drop k = ds') :
    multiplexed (r ++ q) j = carrier (start ++ r.flatMap diBits ++ ds) ++ toggled ds' := by
  have hlen := length_flatMap_diBits r
  rw [multiplexed, List.flatMap_append, hj, List.take_append, List.drop_append, hlen,
    List.take_of_length_le (by omega), List.drop_of_length_le (by omega), List.nil_append,
    Nat.add_sub_cancel_left, hds, hds', List.append_assoc]

/-- The carrier is lost right behind the delimiter. -/
theorem shown_multiplexed_zero (h : Silent s) (hwait : s.fsmState = .waitForSfd) (c : Byte)
    (q : List Byte) {gap : List DiBit} (hgap : 4 ≤ gap.length) :
    collect step shown s (multiplexed (c :: q) 0 ++ quiet gap) = [] := by
  have hstart : start = (List.replicate 28 1 ++ [1, 1, 1]) ++ [3#2] := rfl
  obtain ⟨p, howes, heq⟩ := h.run_solid (List.replicate 28 1 ++ [1, 1, 1]) 3#2
  rw [← hstart, hwait] at howes heq
  have hsplit : multiplexed (c :: q) 0 = carrier start ++ toggled ((c :: q).flatMap diBits) := by
    simp [multiplexed]
  have hlost := shown_lost_between howes rfl rfl (diBit c 0) (diBit c 1)
    (diBit c 2 :: diBit c 3 :: q.flatMap diBits) hgap
  have hbits : (c :: q).flatMap diBits =
      diBit c 0 :: diBit c 1 :: diBit c 2 :: diBit c 3 :: q.flatMap diBits := rfl
  rw [hsplit, List.append_assoc, collect_append, hbits, hlost, ← List.append_assoc, ← heq]
  rfl

/-- The receiver when `ds` and `d` of the next byte have come. -/
theorem Silent.run_begun (h : Silent s) (hwait : s.fsmState = .waitForSfd) (r : List Byte)
    (ds : List DiBit) (d : DiBit) (hds : ds.length < 4) :
    ∃ p, Owes (run step s (carrier (start ++ r.flatMap diBits ++ (ds ++ [d]))))
        ⟨some ds, .data⟩ p ∧
      collect step shown s (carrier (start ++ r.flatMap diBits ++ (ds ++ [d]))) ++ p =
        r.map (·, false) := by
  obtain ⟨p, howes, heq⟩ := h.run_solid (start ++ r.flatMap diBits ++ ds) d
  obtain ⟨h₁, h₂⟩ := decode_begun r
  have hpart : run Decoder.step ⟨some [], .data⟩ (ds.map (·, false)) = ⟨some ds, .data⟩ ∧
      collect Decoder.step Decoder.emit ⟨some [], .data⟩ (ds.map (·, false)) = [] := by
    match ds with
    | [] | [_] | [_, _] | [_, _, _] => exact ⟨rfl, rfl⟩
    | a :: b :: c :: d :: ds =>
      simp only [List.length_cons] at hds
      omega
  rw [List.append_assoc _ ds, hwait, List.map_append, run_append, h₁, hpart.1] at howes
  rw [List.append_assoc _ ds, hwait, List.map_append, collect_append, h₁, h₂, hpart.2,
    List.append_nil] at heq
  exact ⟨p, howes, heq.symm⟩

/-- The carrier is lost inside the byte `c`. -/
theorem shown_multiplexed_odd (h : Silent s) (hwait : s.fsmState = .waitForSfd) (r : List Byte)
    (c : Byte) (q : List Byte) {gap : List DiBit} (hgap : 4 ≤ gap.length) :
    collect step shown s (multiplexed (r ++ c :: q) (2 * r.length + 1) ++ quiet gap) =
      beats (r ++ [c]) := by
  have hsplit := multiplexed_of_split r (q := c :: q) (j := 2 * r.length + 1) (k := 2) (by omega)
    (show _ = [diBit c 0] ++ [diBit c 1] from rfl)
    (show _ = diBit c 2 :: diBit c 3 :: q.flatMap diBits from rfl)
  obtain ⟨p, howes, heq⟩ := h.run_begun hwait r [diBit c 0] (diBit c 1) (by simp)
  obtain ⟨hon, hrxd⟩ := run_solid s (start ++ r.flatMap diBits ++ [diBit c 0]) (diBit c 1)
  rw [List.append_assoc _ [diBit c 0]] at hon hrxd
  have hlost := shown_lost_inside howes hon (diBit c 2) (diBit c 3) (q.flatMap diBits) hgap
  have hbyte : byteOf [diBit c 0, diBit c 1, diBit c 2, diBit c 3] = c := byteOf_diBits c
  rw [hrxd, hbyte] at hlost
  rw [hsplit, List.append_assoc (carrier _), collect_append, hlost, ← List.append_assoc, heq,
    beats_concat]

/-- The carrier is lost behind the byte `c`. -/
theorem shown_multiplexed_even (h : Silent s) (hwait : s.fsmState = .waitForSfd) (r : List Byte)
    (c d : Byte) (q : List Byte) {gap : List DiBit} (hgap : 4 ≤ gap.length) :
    collect step shown s (multiplexed (r ++ c :: d :: q) (2 * r.length + 2) ++ quiet gap) =
      beats (r ++ [c]) := by
  have hsplit := multiplexed_of_split r (q := c :: d :: q) (j := 2 * r.length + 2) (k := 4)
    (by omega) (show _ = [diBit c 0, diBit c 1, diBit c 2] ++ [diBit c 3] from rfl)
    (show _ = diBit d 0 :: diBit d 1 :: diBit d 2 :: diBit d 3 :: q.flatMap diBits from rfl)
  obtain ⟨p, howes, heq⟩ := h.run_begun hwait r [diBit c 0, diBit c 1, diBit c 2] (diBit c 3)
    (by simp)
  obtain ⟨hon, hrxd⟩ := run_solid s
    (start ++ r.flatMap diBits ++ [diBit c 0, diBit c 1, diBit c 2]) (diBit c 3)
  rw [List.append_assoc _ [diBit c 0, diBit c 1, diBit c 2]] at hon hrxd
  have hlost := shown_lost_between howes rfl hon (diBit d 0) (diBit d 1)
    (diBit d 2 :: diBit d 3 :: q.flatMap diBits) hgap
  have hemit : Decoder.emit ⟨some [diBit c 0, diBit c 1, diBit c 2], .data⟩ (diBit c 3, true) =
      [(c, true)] := congrArg (fun b => [(b, true)]) (byteOf_diBits c)
  rw [hrxd, hemit] at hlost
  rw [hsplit, List.append_assoc (carrier _), collect_append, hlost, ← List.append_assoc, heq,
    beats_concat]

theorem exists_begun_byte {q : List Byte} {k : ℕ} (hk : k < q.length) :
    ∃ r c q', q = r ++ c :: q' ∧ r.length = k := by
  refine ⟨q.take k, q.get ⟨k, hk⟩, q.drop (k + 1), ?_, List.length_take_of_le hk.le⟩
  rw [List.get_eq_getElem, List.getElem_cons_drop, List.take_append_drop]

/-- **The bytes received**: those that had begun when the carrier was lost. -/
theorem shown_multiplexed (hs : AfterReset s) (ds : List DiBit) {q : List Byte} {j : ℕ}
    (hj : j < 2 * q.length) {gap : List DiBit} (hgap : 4 ≤ gap.length) :
    collect step shown s (quiet ds ++ multiplexed q j ++ quiet gap) =
      beats (q.take ((j + 1) / 2)) := by
  obtain ⟨hsilent, hwait⟩ := silent_afterReset hs
  obtain ⟨h, hrun, hquiet⟩ := hsilent.run_quiet ds
  rw [hwait] at hrun
  rw [List.append_assoc, collect_append, hquiet, List.nil_append]
  -- the nibble `j` is the first one of the packet, or it has the last byte that had begun before it
  cases j with
  | zero =>
    obtain ⟨c, q, rfl⟩ := List.exists_cons_of_length_pos (by omega : 0 < q.length)
    exact shown_multiplexed_zero h hrun c q hgap
  | succ j =>
    obtain ⟨r, c, q, rfl, hr⟩ := exists_begun_byte (by omega : j / 2 < q.length)
    have htake : (r ++ c :: q).take ((j + 1 + 1) / 2) = r ++ [c] := by
      have hlen : (j + 1 + 1) / 2 = (r ++ [c]).length := by
        rw [List.length_append, List.length_singleton]
        omega
      rw [List.append_cons, hlen, List.take_left]
    rw [htake]
    rcases Nat.mod_two_eq_zero_or_one j with hmod | hmod
    · have hj' : j + 1 = 2 * r.length + 1 := by omega
      rw [hj']
      exact shown_multiplexed_odd h hrun r c q hgap
    · have hj' : j + 1 = 2 * r.length + 2 := by omega
      rw [List.length_append, List.length_cons] at hj
      obtain ⟨d, q, rfl⟩ := List.exists_cons_of_length_pos (by omega : 0 < q.length)
      rw [hj']
      exact shown_multiplexed_even h hrun r c d q hgap

/-- **When the packet is received**: exactly when the carrier is lost at its last nibble. -/
theorem shown_multiplexed_iff (hs : AfterReset s) (ds : List DiBit) {q : List Byte} {j : ℕ}
    (hj : j < 2 * q.length) {gap : List DiBit} (hgap : 4 ≤ gap.length) :
    collect step shown s (quiet ds ++ multiplexed q j ++ quiet gap) = beats q ↔
      j + 1 = 2 * q.length := by
  rw [shown_multiplexed hs ds hj hgap]
  constructor
  · intro h
    have hlen := congrArg (List.length ∘ List.map Prod.fst) h
    simp only [Function.comp_apply, map_fst_beats, List.length_take] at hlen
    omega
  · intro h
    rw [List.take_of_length_le (by omega)]

/-- Two bytes, with the carrier lost at the last nibble. -/
theorem shown_multiplexed_two :
    collect step shown cleared (quiet [0] ++ multiplexed [0x12, 0x34] 3 ++ quiet [0, 0, 0, 0]) =
      beats [0x12, 0x34] :=
  (shown_multiplexed_iff afterReset_cleared [0] (by decide) (by decide)).mpr rfl

end Bytes

/-- Two bytes, with the carrier lost at the second nibble: only the first one is received. -/
theorem not_shown_multiplexed : AfterReset cleared ∧
    collect step shown cleared (quiet [0] ++ multiplexed [0x12, 0x34] 1 ++ quiet [0, 0, 0, 0]) =
      beats [0x12] ∧
    collect step shown cleared (quiet [0] ++ multiplexed [0x12, 0x34] 1 ++ quiet [0, 0, 0, 0]) ≠
      beats [0x12, 0x34] := by
  have hshown : collect step shown cleared
      (quiet [0] ++ multiplexed [0x12, 0x34] 1 ++ quiet [0, 0, 0, 0]) = beats [0x12] := rfl
  refine ⟨afterReset_cleared, hshown, ?_⟩
  rw [hshown]
  decide

end RmiiEthernet.RmiiMacRx
