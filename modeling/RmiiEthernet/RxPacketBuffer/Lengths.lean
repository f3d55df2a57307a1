import RmiiEthernet.RxPacketBuffer

/-!
# Packets that fit the receive packet buffer

A packet is shown only once it is complete, so the buffer has to hold all of it; but while packets
are shown, one word leaves in every cycle and at most one arrives. The words stored therefore never
outnumber the longest packet (`Sized`), and a buffer of `2 ^ D` rows does not overflow when no
packet has more than `2 ^ D - 2` words (`delivers_of_lengths`), however closely the packets follow
one another.
-/

namespace RmiiEthernet.RxPacketBuffer

open Sync

variable {D L : ℕ} {α : Type*} {s : State D α} {i : Inputs α} {g p : List (α × Bool)}
  {is : List (Inputs α)}

/-- **The words stored**: at most as many as a packet has, and at most one while the output register
is empty and a packet is to be shown. -/
structure Sized (L : ℕ) (s : State D α) (g p : List (α × Bool)) : Prop extends Owes s g p where
  total : p.length + g.length ≤ L
  lone : p ≠ [] → s.outputValidR = false → p.length + g.length ≤ 1

/-- The output register and the memory hold everything. -/
theorem Owes.length_content {W : List (α × Bool)}
    (e : held s ++ W = p ++ g.map fun x => (x.1, false)) :
    (held s).length + W.length = p.length + g.length := by
  have h := congrArg List.length e
  rwa [List.length_append, List.length_append, List.length_map] at h

/-- Enough room for one more word. -/
theorem Sized.fits (h : Sized L s g p) (hL : L < 2 ^ D) (hr : i.reset = false) : Fits s i := by
  obtain ⟨W, hW, e⟩ := h.content
  refine ⟨hr, fun ⟨_, hfull⟩ => ?_⟩
  have hlen := Owes.length_content e
  have htotal := h.total
  have := hW.full_iff.mp hfull
  omega

/-- The counter of the packets stored has not reached its largest value. -/
theorem Sized.not_countWraps (h : Sized L s g p) (hL : L + 2 ≤ 2 ^ D) (i : Inputs α) :
    countWraps s i = false := by
  have hrem := h.remaining
  have hle : p.countP Prod.snd ≤ p.length := List.countP_le_length
  have htotal := h.total
  have hne : s.goodPacketsRemaining ≠ BitVec.allOnes D := by
    intro heq
    rw [heq, BitVec.toNat_allOnes] at hrem
    omega
  have hne : (s.goodPacketsRemaining == BitVec.allOnes D) = false := by simpa using hne
  simp [countWraps, hne]

/-- The words stored behind a cycle: one more if a word arrives, one less if one is shown. -/
theorem length_step {p₁ : List (α × Bool)}
    (e : p ++ collect cutStep (fun g b => (cutEmit g b).flatMap goodBeats) g (arrived s i) =
      shown s i ++ p₁) :
    p₁.length + (run cutStep g (arrived s i)).length + (shown s i).length ≤
      p.length + g.length + (arrived s i).length := by
  have hlen := congrArg List.length e
  rw [List.length_append, List.length_append] at hlen
  suffices key : (collect cutStep (fun g b => (cutEmit g b).flatMap goodBeats) g
      (arrived s i)).length + (run cutStep g (arrived s i)).length ≤
        g.length + (arrived s i).length by omega
  unfold arrived
  cases i.sAxisTvalid with
  | false => simp
  | true =>
    cases i.sAxisTlast with
    | false => simp [cutStep, cutEmit]
    | true =>
      simp only [if_true, collect_cons, collect_nil, List.append_nil, run_cons, run_nil, cutStep,
        cutEmit, List.flatMap_cons, List.flatMap_nil, List.length_singleton, List.length_nil,
        goodBeats]
      split
      · simp
      · simp [length_beats]

theorem length_arrived_le (s : State D α) (i : Inputs α) : (arrived s i).length ≤ 1 := by
  unfold arrived
  split <;> simp

/-- What a cycle completes and what it leaves in progress is one packet of at most `L` words. -/
theorem length_cut_le
    (hopen : (run cutStep g (arrived s i)).length ≤ L)
    (hended : ∀ q ∈ collect cutStep cutEmit g (arrived s i), q.length ≤ L) :
    (collect cutStep (fun g b => (cutEmit g b).flatMap goodBeats) g (arrived s i)).length +
      (run cutStep g (arrived s i)).length ≤ L := by
  unfold arrived at hopen hended ⊢
  cases hv : i.sAxisTvalid with
  | false => simpa [hv] using hopen
  | true =>
    cases hl : i.sAxisTlast with
    | false => simpa [hv, hl, cutStep, cutEmit] using hopen
    | true =>
      have hg : g.length + 1 ≤ L := by simpa [hv, hl, cutStep, cutEmit] using hended
      simp only [if_true, collect_cons, collect_nil, List.append_nil, run_cons, run_nil, cutStep,
        cutEmit, List.flatMap_cons, List.flatMap_nil, List.length_nil, Nat.add_zero, goodBeats]
      split
      · simp
      · simpa [length_beats] using hg

/-- The read side moves whenever there is a packet to be shown, also one that this very cycle
completes. -/
theorem Owes.fwftRead_of_ne_nil (h : Owes s g p) {p₁ : List (α × Bool)} (hne : p₁ ≠ [])
    (e : p ++ collect cutStep (fun g b => (cutEmit g b).flatMap goodBeats) g (arrived s i) =
      shown s i ++ p₁) :
    fwftRead s i = true := by
  by_contra hf
  rw [Bool.not_eq_true, fwftRead, Bool.or_eq_false_iff] at hf
  obtain ⟨hread, hgood⟩ := hf
  have hp : p = [] := by
    by_contra hp
    rw [h.readPacket_iff.mpr hp] at hread
    cases hread
  have hnone :
      collect cutStep (fun g b => (cutEmit g b).flatMap goodBeats) g (arrived s i) = [] := by
    unfold arrived
    cases hv : i.sAxisTvalid with
    | false => rfl
    | true =>
      cases hl : i.sAxisTlast with
      | false => rfl
      | true =>
        have hu : i.sAxisTuser = true := by simpa [packetGood, hv, hl] using hgood
        simp [cutEmit, goodBeats, isBad, hu]
  rw [hp, hnone, List.append_nil] at e
  exact hne (List.append_eq_nil_iff.mp e.symm).2

/-- **One cycle** in which the packet in progress does not become too long. -/
theorem sized_step (h : Sized L s g p) (hL : 2 ≤ L) (hok : Fits s i ∧ Safe s i)
    (hopen : (run cutStep g (arrived s i)).length ≤ L)
    (hended : ∀ q ∈ collect cutStep cutEmit g (arrived s i), q.length ≤ L) :
    ∃ p₁, Sized L (step s i) (run cutStep g (arrived s i)) p₁ ∧
      p ++ collect cutStep (fun g b => (cutEmit g b).flatMap goodBeats) g (arrived s i) =
        shown s i ++ p₁ := by
  obtain ⟨p₁, hp₁, e⟩ := owes_step s g p i h.toOwes hok
  have hlen := length_step e
  have harr := length_arrived_le s i
  have htotal := h.total
  refine ⟨p₁, ⟨hp₁, ?_, ?_⟩, e⟩
  · by_cases hp : p = []
    · have hcut := length_cut_le hopen hended
      have hle := congrArg List.length e
      rw [hp, List.nil_append, List.length_append] at hle
      omega
    · -- a word is shown, or there was one word at most
      have hf : fwftRead s i = true := by simp [fwftRead, h.readPacket_iff.mpr hp]
      cases hv : s.outputValidR with
      | false =>
        have hlone := h.lone hp hv
        omega
      | true =>
        have hshown : (shown s i).length = 1 := by simp [shown_eq, hf, held, hv]
        omega
  · intro hne hv
    have hf := h.toOwes.fwftRead_of_ne_nil hne e
    obtain ⟨W, hW, hcontent⟩ := h.content
    have hempty : s.emptySig = true := by simpa [step, hok.1.1, hf] using hv
    have hheld := Owes.length_content hcontent
    rw [hW.empty_iff.mp hempty, List.length_nil, Nat.add_zero] at hheld
    rw [shown_eq, if_pos hf] at hlen
    omega

theorem AfterReset.sized (h : AfterReset s) (L : ℕ) : Sized L s [] [] where
  toOwes := owes_afterReset h
  total := by simp
  lone hne := absurd rfl hne

/-- No cycle brings a reset, and no bad packet ends while the read side holds one of its words. -/
def Undisturbed (s : State D α) (i : Inputs α) : Prop :=
  i.reset = false ∧ ¬ (packetBad i = true ∧ fetchesOpenPacket s = true)

instance (s : State D α) (i : Inputs α) : Decidable (Undisturbed s i) :=
  inferInstanceAs (Decidable (_ ∧ _))

/-- Every complete packet of a run and the one in progress have at most `L` words. -/
def LengthsLe (L : ℕ) (bs : List ((α × Bool) × Bool)) : Prop :=
  (∀ q ∈ packets bs, q.length ≤ L) ∧ (openPacket bs).length ≤ L

instance (L : ℕ) (bs : List ((α × Bool) × Bool)) : Decidable (LengthsLe L bs) :=
  have := List.decidableBAll (fun q : List (α × Bool) => q.length ≤ L) (packets bs)
  inferInstanceAs (Decidable (_ ∧ _))

/-- The packets of the beginning of a run are no longer than those of the whole run. -/
theorem LengthsLe.of_append {bs cs : List ((α × Bool) × Bool)} (h : LengthsLe L (bs ++ cs)) :
    LengthsLe L bs := by
  refine ⟨fun q hq => h.1 q (mem_packets_append cs hq), ?_⟩
  obtain ⟨q, hq, hle⟩ := exists_openPacket_prefix bs cs
  refine hle.length_le.trans ?_
  rcases List.mem_append.mp hq with hq | hq
  · exact h.1 q hq
  · rw [List.mem_singleton.mp hq]
    exact h.2

/-- **A whole run**: the buffer never overflows and its counter never wraps. -/
theorem sized_run (h : Sized L s [] []) (hL : 2 ≤ L) (hD : L + 2 ≤ 2 ^ D)
    (hok : Always step Undisturbed s is) (hlen : LengthsLe L (collect step arrived s is)) :
    Always step (fun s i => Fits s i ∧ Safe s i) s is ∧
      ∃ p, Sized L (run step s is) (openPacket (collect step arrived s is)) p ∧
        (packets (collect step arrived s is)).flatMap goodBeats = collect step shown s is ++ p := by
  induction is using List.reverseRecOn with
  | nil => exact ⟨trivial, [], h, rfl⟩
  | append_singleton is i ih =>
    rw [always_append] at hok
    rw [collect_append] at hlen
    obtain ⟨hpast, p, hp, e⟩ := ih hok.1 hlen.of_append
    obtain ⟨⟨hr, hopen⟩, -⟩ := hok.2
    have hnow : Fits (run step s is) i ∧ Safe (run step s is) i :=
      ⟨hp.fits (by omega) hr, hopen, hp.not_countWraps hD i⟩
    have hcut : collect step arrived (run step s is) [i] = arrived (run step s is) i := by
      simp
    rw [hcut] at hlen
    have hlen' := hlen
    rw [LengthsLe, packets_append, openPacket_append] at hlen'
    obtain ⟨p₁, hp₁, e₁⟩ := sized_step hp hL hnow hlen'.2
      fun q hq => hlen'.1 q (List.mem_append_right _ hq)
    refine ⟨(always_append _ _ _).mpr ⟨hpast, hnow, trivial⟩, p₁, ?_, ?_⟩
    · rw [collect_append, hcut, openPacket_append, run_append]
      exact hp₁
    · rw [collect_append, collect_append, hcut, packets_append, List.flatMap_append, e,
        List.append_assoc]
      simpa [collect_flatMap] using e₁

/-! ## Nothing arrives any more -/

/-- The cycles until everything is shown. -/
def late (s : State D α) (p : List (α × Bool)) : ℕ :=
  p.length + if p.isEmpty || s.outputValidR then 0 else 1

/-- A cycle in which nothing arrives shows a word, or moves the first one to the output register. -/
theorem Sized.idle_step (h : Sized L s g p) (hL : 2 ≤ L) (hr : i.reset = false)
    (hv : i.sAxisTvalid = false) :
    ∃ p₁, Sized L (step s i) g p₁ ∧ p = shown s i ++ p₁ ∧ late (step s i) p₁ ≤ late s p - 1 := by
  have hnone : arrived s i = [] := by simp [arrived, hv]
  have hgood : packetGood i = false := by simp [packetGood, hv]
  have hok : Fits s i ∧ Safe s i := by
    refine ⟨⟨hr, by simp [hv]⟩, by simp [packetBad, hv], ?_⟩
    simp [countWraps, hgood]
  have hg : g.length ≤ L := (Nat.le_add_left _ _).trans h.total
  obtain ⟨p₁, hp₁, e⟩ := sized_step h hL hok (by simpa [hnone] using hg) (by simp [hnone])
  rw [hnone] at hp₁ e
  rw [collect_nil, List.append_nil] at e
  rw [run_nil] at hp₁
  refine ⟨p₁, hp₁, e, ?_⟩
  obtain ⟨W, hW, hcontent⟩ := h.content
  have hheld := Owes.length_content hcontent
  have hlen := congrArg List.length e
  rw [List.length_append] at hlen
  by_cases hp : p = []
  · rw [hp, eq_comm, List.append_eq_nil_iff] at e
    simp [late, e.2]
  · have hf : fwftRead s i = true := by simp [fwftRead, h.readPacket_iff.mpr hp]
    have hpos := List.length_pos_of_ne_nil hp
    -- what is left stands in the memory, so the output register is filled again
    have hnext : p₁ ≠ [] → (step s i).outputValidR = true := by
      intro hne
      have hW' : W ≠ [] := by
        rintro rfl
        have hpos₁ := List.length_pos_of_ne_nil hne
        rw [shown_eq, if_pos hf] at hlen
        rw [List.length_nil] at hheld
        omega
      have hempty : s.emptySig = false := by
        rw [← Bool.not_eq_true, hW.empty_iff]
        exact hW'
      simp [step, hr, hf, hempty]
    have hlate : late (step s i) p₁ = p₁.length := by
      by_cases hne : p₁ = []
      · simp [late, hne]
      · simp [late, hnext hne]
    rw [hlate]
    cases hv' : s.outputValidR with
    | true =>
      have hshown : (shown s i).length = 1 := by simp [shown_eq, hf, held, hv']
      simp only [late, hv', Bool.or_true, if_true]
      omega
    | false => simp [late, hv', hp]; omega

/-- **Everything is shown** when nothing has arrived for as long as the longest packet. -/
theorem Sized.idle_run (h : Sized L s g p) (hL : 2 ≤ L)
    (his : ∀ i ∈ is, i.reset = false ∧ i.sAxisTvalid = false) :
    ∃ p₁, Sized L (run step s is) g p₁ ∧ p = collect step shown s is ++ p₁ ∧
      late (run step s is) p₁ ≤ late s p - is.length := by
  induction is generalizing s p with
  | nil => exact ⟨p, h, rfl, le_rfl⟩
  | cons i is ih =>
    obtain ⟨hr, hv⟩ := his i (by simp)
    obtain ⟨p₁, h₁, rfl, hlate₁⟩ := h.idle_step hL hr hv
    obtain ⟨p₂, h₂, rfl, hlate₂⟩ := ih h₁ fun j hj => his j (by simp [hj])
    refine ⟨p₂, h₂, by rw [collect_cons, List.append_assoc], ?_⟩
    rw [List.length_cons, run_cons]
    omega

theorem Sized.late_le (h : Sized L s g p) (hL : 2 ≤ L) : late s p ≤ L := by
  have htotal := h.total
  unfold late
  split
  · omega
  · next hcond =>
    have hp : p ≠ [] := by
      rintro rfl
      simp at hcond
    have hlone := h.lone hp (by simpa [hp] using hcond)
    omega

/-- Packets of two words, one and two without a gap; the one in the middle is bad. -/
def threePackets : List (Inputs (BitVec 8)) :=
  [⟨false, 0x11, false, true, false⟩, ⟨false, 0x12, false, true, true⟩,
    ⟨false, 0x21, true, true, true⟩, ⟨false, 0x31, false, true, false⟩,
    ⟨false, 0x32, false, true, true⟩]

/-- **The packet buffer delivers the good packets** of every run whose packets have at most
`2 ^ D - 2` words, as long as no bad packet ends while the read side holds one of its words: it
never overflows, however closely the packets follow one another. -/
theorem delivers_of_lengths {s : State D α} {is : List (Inputs α)} (h : AfterReset s) (hD : 2 ≤ D)
    (hok : Always step Undisturbed s is)
    (hlen : LengthsLe (2 ^ D - 2) (collect step arrived s is)) :
    Always step Fits s is ∧ Delivers s is := by
  have hpow : 2 ^ 2 ≤ 2 ^ D := Nat.pow_le_pow_right (by norm_num) hD
  obtain ⟨hnow, p, hp, e⟩ := sized_run (h.sized _) (by omega) (by omega) hok hlen
  have hfit : Always step Fits s is := hnow.mono fun _ _ h => h.1
  exact ⟨hfit, hp.toOwes.delivers e (droppedPacketsCountU_run h hfit)⟩

theorem delivers_of_lengths_three : Always step Fits (cleared 2) threePackets ∧
    Delivers (cleared 2) threePackets :=
  delivers_of_lengths cleared_afterReset le_rfl (by decide +kernel) (by decide +kernel)

end RmiiEthernet.RxPacketBuffer
