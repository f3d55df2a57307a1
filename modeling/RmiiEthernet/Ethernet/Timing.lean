import RmiiEthernet.Ethernet.Track

/-!
# Pauses at the Ethernet deframer

Pauses between the bytes of a frame do not matter to `ethernet_deframer`, and pauses between frames
matter in one place. The reset of the CRC is a register: it takes effect in the cycle after the last
byte of a frame, and a byte that arrives in that cycle is not counted in. A frame that follows
another one without a pause is therefore judged without its first byte.

* `spaced` are the frames of a run, each with a mark if there was no pause before it.
* `shown_eq_spaced` says what comes of them, whatever the pauses are.
* `insensitive_iff` compares two runs with the same beats.
-/

namespace RmiiEthernet.EthernetDeframer

open Sync EthernetFcs EthernetFrame

/-! ## The spacing of frames -/

/-- The bytes of the frame in progress, whether a frame ended in the cycle before, and whether the
frame in progress followed the one before it without a pause. -/
structure Spacing where
  frame : List Byte
  ended : Bool
  joined : Bool

namespace Spacing

variable (l : Spacing) (i : Inputs)

/-- There was no pause before the frame that the next byte belongs to. -/
def joins : Bool := if l.frame.isEmpty then l.ended else l.joined

/-- One cycle. -/
def step : Spacing :=
  if i.sAxisTvalid then ⟨cutStep l.frame (i.sAxisTdata, i.sAxisTlast), i.sAxisTlast, l.joins⟩
  else ⟨l.frame, false, l.joined⟩

/-- The frame that ends in a cycle, with the mark. -/
def emit : List (List Byte × Bool) :=
  if i.sAxisTvalid && i.sAxisTlast then [(l.frame ++ [i.sAxisTdata], l.joins)] else []

end Spacing

/-- **The frames of a run**, with a mark on those that follow another one without a pause. -/
def spaced (is : List Inputs) : List (List Byte × Bool) :=
  collect Spacing.step Spacing.emit ⟨[], false, false⟩ is

/-- The bytes of a frame that the CRC sees. -/
def seen (p : List Byte × Bool) : List Byte := if p.2 then p.1.tail else p.1

/-- What comes of a frame, judged by the bytes that the CRC sees. -/
def deframedSeen (cfg : Config) (p : List Byte × Bool) : List OutBeat :=
  deframedWith cfg (decide (Checked (seen p))) p.1

section Cycle

variable {cfg : Config} {t : Track} {l : Spacing} {i : Inputs} {f : List Byte} {b : Byte} {j : Bool}

/-- The spacing tells what the CRC has seen. -/
structure Agrees (t : Track) (l : Spacing) : Prop where
  frame : t.frame = l.frame
  ended : t.ended = l.ended
  old : t.old = []
  between : l.ended = true → l.frame = []
  crc : l.ended = false → t.crc = seen (l.frame, l.joined)

theorem seen_concat (hf : f ≠ []) : seen (f ++ [b], j) = seen (f, j) ++ [b] := by
  cases j
  · rfl
  · exact List.tail_append_of_ne_nil hf

theorem Agrees.heeds_eq (h : Agrees t l) (hlen : ∀ p ∈ l.emit i, 19 ≤ p.1.length) :
    t.heeds cfg i = (i.sAxisTvalid && i.sAxisTlast) := by
  rw [Track.heeds, h.frame]
  cases hv : i.sAxisTvalid <;> cases hl : i.sAxisTlast <;> simp
  have hlong : 19 ≤ (l.frame ++ [i.sAxisTdata]).length :=
    hlen (_, l.joins) (by simp [Spacing.emit, hv, hl])
  exact .inl (by omega)

/-- The byte that the CRC misses is the first one after a frame without a pause. -/
theorem Agrees.step (cfg : Config) (h : Agrees t l) (hlen : ∀ p ∈ l.emit i, 19 ≤ p.1.length) :
    Agrees (t.step cfg i) (l.step i) := by
  have hheeds : t.heeds cfg i = _ := h.heeds_eq hlen
  cases hv : i.sAxisTvalid with
  | false =>
    rw [hv, Bool.false_and] at hheeds
    refine ⟨?_, ?_, ?_, ?_, fun _ => ?_⟩
    · simp [Track.step, Spacing.step, hheeds, hv, h.frame]
    · simp [Track.step, Spacing.step, hheeds, hv]
    · simp [Track.step, hheeds, h.old]
    · simp [Spacing.step, hv]
    · cases he : l.ended with
      | true => simp [Track.step, Spacing.step, h.ended, hv, he, h.between he, seen]
      | false => simp [Track.step, Spacing.step, h.ended, hv, he, h.crc he]
  | true =>
    rw [hv, Bool.true_and] at hheeds
    refine ⟨?_, ?_, ?_, ?_, fun hl => ?_⟩
    · cases hl : i.sAxisTlast <;>
        simp [Track.step, Spacing.step, hheeds, hv, hl, h.frame, cutStep]
    · simp [Track.step, Spacing.step, hheeds, hv]
    · simp [Track.step, h.old]
    · intro hl
      have hl : i.sAxisTlast = true := by simpa [Spacing.step, hv] using hl
      simp [Spacing.step, hv, hl, cutStep]
    · have hl : i.sAxisTlast = false := by simpa [Spacing.step, hv] using hl
      cases he : l.ended with
      | true =>
        simp [Track.step, Spacing.step, Spacing.joins, h.ended, hv, hl, he, h.between he, seen,
          cutStep]
      | false =>
        by_cases hf : l.frame = []
        · simp [Track.step, Spacing.step, Spacing.joins, h.ended, hv, hl, he, h.crc he, hf, seen,
            cutStep]
        · simp [Track.step, Spacing.step, Spacing.joins, h.ended, hv, hl, he, h.crc he, hf,
            seen_concat hf, cutStep]

theorem deframing_nil : deframing cfg [] = [] := by simp [deframing, payloadOf]

/-- **One cycle**: what leaves the delay line completes what comes of the frame. -/
theorem Agrees.emit_eq (h : Agrees t l) (hlen : ∀ p ∈ l.emit i, 19 ≤ p.1.length) :
    deframing cfg l.frame ++ t.emit cfg i =
      (l.emit i).flatMap (deframedSeen cfg) ++ deframing cfg (l.step i).frame := by
  have hdelayed : t.delayed cfg = payloadAndFcs cfg l.frame := by
    rw [Track.delayed, h.old, h.frame, List.nil_append]
  cases hv : i.sAxisTvalid with
  | false => simp [Track.emit, Spacing.emit, Spacing.step, hv]
  | true =>
    have hemit : t.emit cfg i = if Matches cfg l.frame ∧ 18 ≤ l.frame.length then
        [(l.frame.getD (l.frame.length - 4) 0, i.sAxisTlast, i.sAxisTlast &&
          !decide (circuitRegister (t.crc ++ [i.sAxisTdata]) = crcVerify))] else [] := by
      rw [Track.emit, hdelayed, h.frame]
      by_cases hm : Matches cfg l.frame
      · have hpay : payloadAndFcs cfg l.frame = l.frame.drop 14 := if_pos hm
        rw [hpay, List.length_drop]
        by_cases h18 : 18 ≤ l.frame.length
        · rw [if_pos ⟨hv, hm, by omega⟩, if_pos ⟨hm, h18⟩, getD_drop_header h18]
        · rw [if_neg (by omega), if_neg (by omega)]
      · simp [hm]
    cases hl : i.sAxisTlast with
    | false =>
      have hby : t.emit cfg i = deframedBy cfg l.frame (i.sAxisTdata, false) := by
        simp [hemit, hl, deframedBy]
      rw [hby, ← deframing_append]
      simp [Spacing.emit, Spacing.step, hv, hl, cutStep]
    | true =>
      have hone : l.emit i = [(l.frame ++ [i.sAxisTdata], l.joins)] := by
        simp [Spacing.emit, hv, hl]
      have hframe : (l.step i).frame = [] := by simp [Spacing.step, hv, hl, cutStep]
      have hlong := hlen _ (hone ▸ List.mem_singleton_self _)
      rw [hone, hframe, deframing_nil, List.append_nil, List.flatMap_singleton, deframedSeen,
        deframedWith_append, hemit, hl]
      -- a frame that is passed has begun after the cycle in which the CRC is cleared
      by_cases hp : Matches cfg l.frame ∧ 18 ≤ l.frame.length
      · have hf : l.frame ≠ [] := List.ne_nil_of_length_pos (by omega)
        have he : l.ended = false := by
          by_contra he
          exact hf (h.between (by simpa using he))
        have hjoins : l.joins = l.joined := by simp [Spacing.joins, hf]
        have hlength : 4 ≤ (seen (l.frame ++ [i.sAxisTdata], l.joined)).length := by
          unfold seen
          split <;> simp <;> omega
        rw [if_pos hp, if_pos hp, h.crc he, hjoins, ← seen_concat hf]
        simp only [circuitRegister_eq_crcVerify_iff hlength, Bool.true_and]
      · rw [if_neg hp, if_neg hp]

theorem Agrees.drop_eq (h : Agrees t l) (hlen : ∀ p ∈ l.emit i, 19 ≤ p.1.length) :
    (t.drop cfg i).length = (l.emit i).countP fun p => !decide (Matches cfg p.1) := by
  rw [Track.drop, h.heeds_eq hlen, h.frame]
  cases hv : i.sAxisTvalid <;> cases hl : i.sAxisTlast <;> simp [Spacing.emit, hv, hl]
  have hlong : 19 ≤ (l.frame ++ [i.sAxisTdata]).length :=
    hlen (_, l.joins) (by simp [Spacing.emit, hv, hl])
  have hiff : Matches cfg (l.frame ++ [i.sAxisTdata]) ↔ Matches cfg l.frame :=
    matches_append (by simp at hlong; omega)
  by_cases hm : Matches cfg l.frame <;> simp [hiff, hm]

end Cycle

/-! ## Every run -/

section Runs

variable {cfg : Config} {s : State} {t : Track} {l : Spacing} {is : List Inputs}

theorem map_fst_collect_emit (s : State) (l : Spacing) (is : List Inputs) :
    (collect Spacing.step Spacing.emit l is).map Prod.fst =
        collect cutStep cutEmit l.frame (collect step arrived s is) ∧
      (run Spacing.step l is).frame = run cutStep l.frame (collect step arrived s is) := by
  induction is generalizing s l with
  | nil => exact ⟨rfl, rfl⟩
  | cons i is ih =>
    obtain ⟨h₁, h₂⟩ := ih (step s i) (l.step i)
    rw [collect_cons, run_cons, collect_cons, collect_append, run_append, List.map_append, h₁, h₂]
    cases hv : i.sAxisTvalid with
    | false => simp [Spacing.emit, Spacing.step, arrived, hv]
    | true =>
      cases hl : i.sAxisTlast <;>
        simp [Spacing.emit, Spacing.step, arrived, hv, hl, cutEmit]

/-- The spaced frames of a run are its frames. -/
theorem map_fst_spaced (s : State) (is : List Inputs) :
    (spaced is).map Prod.fst = packets (collect step arrived s is) :=
  (map_fst_collect_emit s ⟨[], false, false⟩ is).1

theorem Agrees.run (cfg : Config) (h : Agrees t l)
    (hlen : ∀ p ∈ collect Spacing.step Spacing.emit l is, 19 ≤ p.1.length) :
    deframing cfg l.frame ++ collect (Track.step cfg) (Track.emit cfg) t is =
        (collect Spacing.step Spacing.emit l is).flatMap (deframedSeen cfg) ++
          deframing cfg (Sync.run Spacing.step l is).frame ∧
      (collect (Track.step cfg) (Track.drop cfg) t is).length =
        (collect Spacing.step Spacing.emit l is).countP fun p => !decide (Matches cfg p.1) := by
  induction is generalizing t l with
  | nil => simp
  | cons i is ih =>
    rw [collect_cons] at hlen
    have hnow : ∀ p ∈ l.emit i, 19 ≤ p.1.length := fun p hp => hlen p (List.mem_append_left _ hp)
    obtain ⟨h₁, h₂⟩ := ih (h.step cfg hnow)
      fun p hp => hlen p (List.mem_append_right _ hp)
    constructor
    · rw [collect_cons, ← List.append_assoc, h.emit_eq hnow, List.append_assoc, h₁, collect_cons,
        List.flatMap_append, List.append_assoc, run_cons]
    · rw [collect_cons, List.length_append, h.drop_eq hnow, h₂, collect_cons, List.countP_append]

/-- The run ends with two cycles in which nothing arrives. -/
def Settled (is : List Inputs) : Prop :=
  ∃ js i j, is = js ++ [i, j] ∧ i.sAxisTvalid = false ∧ j.sAxisTvalid = false

theorem output_of_settled (h : Settled is) (hsteady : Always step (Steady cfg) s is) :
    output (run step s is) = [] ∧ leaving (run step s is) = [] := by
  obtain ⟨js, i, j, rfl, hi, hj⟩ := h
  have hreset : j.reset = false := ((always_append _ _ _).mp hsteady).2.2.1.1
  rw [run_append]
  constructor <;> simp [output, leaving, deframedTvalidR6, step, deframes, hi, hj, hreset]

/-- A run of the enabled deframer with nothing on its way out, before or after. -/
theorem Tracks.shown_settled (h : Tracks cfg s t) (hout : output s = [])
    (hleaving : leaving s = []) (hsteady : Always EthernetDeframer.step (Steady cfg) s is)
    (hend : Settled is) : collect EthernetDeframer.step shown s is =
      collect (Track.step cfg) (Track.emit cfg) t is := by
  have hshown := h.shown_run hsteady
  obtain ⟨hout', hleaving'⟩ := output_of_settled hend hsteady
  rw [hout, hleaving, hout', hleaving', List.append_nil, List.append_nil, List.nil_append] at hshown
  exact hshown.symm

/-- **What comes of the frames of a run**, whatever the pauses are. -/
theorem shown_eq_spaced (hs : AfterReset s) (hsteady : Always step (Steady cfg) s is)
    (hlen : ∀ f ∈ packets (collect step arrived s is), 19 ≤ f.length) (hend : Settled is) :
    collect step shown s is = (spaced is).flatMap (deframedSeen cfg) ++
        deframing cfg (openPacket (collect step arrived s is)) ∧
      (run step s is).droppedPacketCountU = BitVec.ofNat 16
        ((packets (collect step arrived s is)).countP fun f => !decide (Matches cfg f)) := by
  obtain ⟨htracks, hout, hleaving⟩ := tracks_afterReset cfg hs
  have hagrees : Agrees ⟨[], [], [], false⟩ ⟨[], false, false⟩ :=
    ⟨rfl, rfl, rfl, fun _ => rfl, fun _ => rfl⟩
  have hspaced := map_fst_spaced s is
  have hlong : ∀ p ∈ spaced is, 19 ≤ p.1.length := by
    intro p hp
    exact hlen p.1 (hspaced ▸ List.mem_map_of_mem hp)
  obtain ⟨hemit, hdrop⟩ := hagrees.run cfg hlong
  constructor
  · have hopen := (map_fst_collect_emit s ⟨[], false, false⟩ is).2
    rw [hopen, deframing_nil, List.nil_append] at hemit
    exact (htracks.shown_settled hout hleaving hsteady hend).trans hemit
  · have hzero : s.droppedPacketCountU = 0#16 := by
      obtain ⟨s₀, i, -, hi, rfl⟩ := hs
      simp [step, hi]
    rw [htracks.dropped_run hsteady, hdrop, hzero, BitVec.zero_add, ← hspaced, List.countP_map]
    rfl

end Runs

/-! ## Two runs with the same beats -/

section Compare

variable {cfg : Config} {f : List Byte} {ok ok' : Bool}

/-- The lists that come of two lists of things with the same keys are equal exactly if those of each
pair are, when the key tells how long they are. -/
theorem flatMap_eq_flatMap_iff {α β κ : Type*} {D : α → List β} {key : α → κ}
    (hlen : ∀ a b, key a = key b → (D a).length = (D b).length) {as bs : List α}
    (h : as.map key = bs.map key) :
    as.flatMap D = bs.flatMap D ↔ ∀ x ∈ as.zip bs, D x.1 = D x.2 := by
  induction as generalizing bs with
  | nil =>
    have hnil : bs = [] := by simpa using h.symm
    simp [hnil]
  | cons a as ih =>
    cases bs with
    | nil => simp at h
    | cons b bs =>
      rw [List.map_cons, List.map_cons, List.cons.injEq] at h
      rw [List.flatMap_cons, List.flatMap_cons, List.zip_cons_cons, List.forall_mem_cons, ← ih h.2]
      constructor
      · exact fun heq => List.append_inj heq (hlen a b h.1)
      · rintro ⟨h₁, h₂⟩
        rw [h₁, h₂]

theorem key_eq_of_mem_zip {α κ : Type*} {key : α → κ} {as bs : List α}
    (h : as.map key = bs.map key) {x : α × α} (hx : x ∈ as.zip bs) : key x.1 = key x.2 := by
  induction as generalizing bs with
  | nil => simp at hx
  | cons a as ih =>
    cases bs with
    | nil => simp at hx
    | cons b bs =>
      rw [List.map_cons, List.map_cons, List.cons.injEq] at h
      rw [List.zip_cons_cons, List.mem_cons] at hx
      rcases hx with rfl | hx
      · exact h.1
      · exact ih h.2 hx

/-- The verdict shows on every frame that is passed. -/
theorem deframedWith_eq_iff (hlen : 19 ≤ f.length) :
    deframedWith cfg ok f = deframedWith cfg ok' f ↔ (Matches cfg f → ok = ok') := by
  obtain ⟨q, b, rfl⟩ : ∃ q b, f = q ++ [b] := by
    rcases List.eq_nil_or_concat f with rfl | ⟨q, b, hq⟩
    · simp at hlen
    · exact ⟨q, b, by simpa using hq⟩
  have hq : 18 ≤ q.length := by simpa using hlen
  rw [deframedWith_append, deframedWith_append, List.append_cancel_left_eq,
    matches_append (by omega)]
  by_cases hm : Matches cfg q <;> simp [hm, hq]

theorem length_deframedWith (ok ok' : Bool) (f : List Byte) :
    (deframedWith cfg ok f).length = (deframedWith cfg ok' f).length := by
  unfold deframedWith
  split <;> simp

/-- A frame is not right with its first byte and without it. -/
theorem checked_iff_checked_tail (hlen : 19 ≤ f.length) :
    (Checked f ↔ Checked f.tail) ↔ ¬ (Checked f ∨ Checked f.tail) := by
  obtain ⟨b, g, rfl⟩ : ∃ b g, f = b :: g := List.exists_cons_of_length_pos (by omega)
  have hg : 4 ≤ g.length := by
    rw [List.length_cons] at hlen
    omega
  have hnot : Checked g → ¬ Checked (b :: g) :=
    not_checked_append (m := [b]) (circuitRegister_singleton_ne b) hg
  rw [List.tail_cons]
  tauto

/-- What comes of a frame in two runs. -/
theorem deframedSeen_eq_iff {p q : List Byte × Bool} (h : p.1 = q.1) (hlen : 19 ≤ p.1.length) :
    deframedSeen cfg p = deframedSeen cfg q ↔
      (Matches cfg p.1 → Checked p.1 ∨ Checked p.1.tail → p.2 = q.2) := by
  obtain ⟨f, a⟩ := p
  obtain ⟨g, b⟩ := q
  obtain rfl : f = g := h
  have htail := checked_iff_checked_tail hlen
  rw [deframedSeen, deframedSeen, deframedWith_eq_iff hlen, decide_eq_decide]
  refine imp_congr_right fun _ => ?_
  cases a <;> cases b <;> simp only [seen, if_true, if_false, Bool.false_eq_true, reduceCtorEq,
    implies_true, iff_self, imp_false]
  · exact htail
  · exact (Iff.comm.trans htail)

/-- **When pauses do not matter**: two runs after reset with the same beats, in frames of at least
19 bytes, show the same beats and drop the same number of frames, exactly if for every frame that
matches and whose check sequence is right, with its first byte or without it, both runs have a pause
before it or neither has. -/
theorem insensitive_iff (cfg : Config) {s s' : State} {is js : List Inputs} (hs : AfterReset s)
    (hs' : AfterReset s') (hsteady : Always step (Steady cfg) s is)
    (hsteady' : Always step (Steady cfg) s' js) (hend : Settled is) (hend' : Settled js)
    (hbeats : collect step arrived s is = collect step arrived s' js)
    (hlen : ∀ f ∈ packets (collect step arrived s is), 19 ≤ f.length) :
    (collect step shown s is = collect step shown s' js ∧
      (run step s is).droppedPacketCountU = (run step s' js).droppedPacketCountU) ↔
    ∀ x ∈ (spaced is).zip (spaced js),
      Matches cfg x.1.1 → Checked x.1.1 ∨ Checked x.1.1.tail → x.1.2 = x.2.2 := by
  obtain ⟨hshown, hdropped⟩ := shown_eq_spaced hs hsteady hlen hend
  obtain ⟨hshown', hdropped'⟩ := shown_eq_spaced hs' hsteady' (hbeats ▸ hlen) hend'
  have hkey : (spaced is).map Prod.fst = (spaced js).map Prod.fst := by
    rw [map_fst_spaced s, map_fst_spaced s', hbeats]
  rw [hdropped, hdropped', hshown, hshown', hbeats, and_iff_left rfl, List.append_cancel_right_eq,
    flatMap_eq_flatMap_iff (fun p q h => by
      rw [deframedSeen, deframedSeen, h]; exact length_deframedWith _ _ _) hkey]
  refine forall₂_congr fun x hx => deframedSeen_eq_iff (key_eq_of_mem_zip hkey hx) (hlen _ ?_)
  rw [← map_fst_spaced s]
  exact List.mem_map_of_mem (List.of_mem_zip (a := x.1) (b := x.2) hx).1

/-- The inputs of a cycle with a beat, or with none, for the address below. -/
def presented (b : Option (Byte × Bool)) : Inputs :=
  match b with
  | none => { destinationMacIn := 0x0A0B0C0D0E0F }
  | some b =>
    { destinationMacIn := 0x0A0B0C0D0E0F, sAxisTdata := b.1, sAxisTvalid := true,
      sAxisTlast := b.2 }

theorem steady_presented (os : List (Option (Byte × Bool))) (s : State) :
    ∀ j ∈ os.map presented, Steady ⟨false, 0, 0x0A0B0C0D0E0F⟩ s j := by
  intro j hj
  obtain ⟨o, -, rfl⟩ := List.mem_map.mp hj
  cases o <;> exact ⟨rfl, rfl, rfl, rfl, rfl⟩

theorem settled_presented (os : List (Option (Byte × Bool))) :
    Settled ((os ++ [none, none]).map presented) :=
  ⟨os.map presented, presented none, presented none, List.map_append, rfl, rfl⟩

/-- A frame for this address with two bytes of payload. -/
def benchFrame : List Byte := frame 0x0A0B0C0D0E0F 0x001122334455 false [0xAA, 0xBB]

/-- The frame twice, with one pause between and with a pause after every byte. -/
theorem insensitive_iff_twice :
    let is := ((beats benchFrame).map some ++ [none] ++ (beats benchFrame).map some ++
      [none, none]).map presented
    let js := ((beats benchFrame ++ beats benchFrame).flatMap (fun b => [some b, none]) ++
      [none, none]).map presented
    collect step shown cleared is = collect step shown cleared js ∧
      (run step cleared is).droppedPacketCountU = (run step cleared js).droppedPacketCountU :=
  (insensitive_iff ⟨false, 0, 0x0A0B0C0D0E0F⟩ cleared_afterReset cleared_afterReset
    (always_of_forall (steady_presented _ cleared) _)
    (always_of_forall (steady_presented _ cleared) _)
    (settled_presented _) (settled_presented _) (by decide +kernel) (by decide +kernel)).mpr
    (by decide +kernel)

/-- The frame twice, with a pause between and with none: without, the second one is marked bad. -/
theorem not_insensitive :
    ¬ ∀ (cfg : Config) (s s' : State) (is js : List Inputs), AfterReset s → AfterReset s' →
      Always step (Steady cfg) s is → Always step (Steady cfg) s' js → Settled is → Settled js →
      collect step arrived s is = collect step arrived s' js →
      (∀ f ∈ packets (collect step arrived s is), 19 ≤ f.length) →
      collect step shown s is = collect step shown s' js ∧
        (run step s is).droppedPacketCountU = (run step s' js).droppedPacketCountU := by
  intro h
  have hshown := (h ⟨false, 0, 0x0A0B0C0D0E0F⟩ cleared cleared
    (((beats benchFrame).map some ++ [none] ++ (beats benchFrame).map some).map presented ++
      [presented none, presented none])
    (((beats benchFrame).map some ++ (beats benchFrame).map some).map presented ++
      [presented none, presented none])
    cleared_afterReset cleared_afterReset (by decide +kernel) (by decide +kernel)
    ⟨_, _, _, rfl, rfl, rfl⟩ ⟨_, _, _, rfl, rfl, rfl⟩ (by decide +kernel) (by decide +kernel)).1
  revert hshown
  decide +kernel

end Compare

end RmiiEthernet.EthernetDeframer
