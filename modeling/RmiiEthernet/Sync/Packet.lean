import RmiiEthernet.Sync.Run

/-!
# Packets on a stream

A stream carries beats, a word and a mark on the last word of a packet. `packets` cuts the beats
seen so far into the complete packets among them, `openPacket` is what has been seen of the
packet in progress, and `beats` is the way back (`beats_packets`).

A source follows the handshake when a beat it offers and that is not taken is offered again in
the next cycle. `Feeds` says that the inputs of a run come from such a source with a given list of
beats to send.
-/

namespace RmiiEthernet.Sync

variable {α S I : Type*}

/-! ## Cutting a stream into packets -/

/-- The packet in progress after one more beat. -/
def cutStep (p : List α) (b : α × Bool) : List α := if b.2 then [] else p ++ [b.1]

/-- The packet that a beat completes. -/
def cutEmit (p : List α) (b : α × Bool) : List (List α) := if b.2 then [p ++ [b.1]] else []

/-- The complete packets of a stream. -/
def packets (bs : List (α × Bool)) : List (List α) := collect cutStep cutEmit [] bs

/-- The words of the packet in progress at the end of a stream. -/
def openPacket (bs : List (α × Bool)) : List α := run cutStep [] bs

/-- The beats of one packet: the mark stands on its last word. -/
def beats : List α → List (α × Bool)
  | [] => []
  | [x] => [(x, true)]
  | x :: y :: l => (x, false) :: beats (y :: l)

@[simp] theorem beats_nil : beats ([] : List α) = [] := rfl

theorem beats_cons (x : α) (p : List α) : beats (x :: p) = (x, p.isEmpty) :: beats p := by
  cases p <;> rfl

theorem beats_concat (p : List α) (x : α) :
    beats (p ++ [x]) = p.map (·, false) ++ [(x, true)] := by
  induction p with
  | nil => rfl
  | cons y p ih =>
    cases p with
    | nil => rfl
    | cons z p => simpa [beats] using ih

theorem beats_append (p : List α) {q : List α} (h : q ≠ []) :
    beats (p ++ q) = p.map (·, false) ++ beats q := by
  rcases List.eq_nil_or_concat q with rfl | ⟨q, x, rfl⟩
  · exact absurd rfl h
  · rw [List.concat_eq_append, ← List.append_assoc, beats_concat, beats_concat]
    simp

/-- The first words of a packet are not marked. -/
theorem map_take_prefix_beats {p : List α} {n : ℕ} (h : n < p.length) :
    (p.take n).map (·, false) <+: beats p := by
  have hrest : p.drop n ≠ [] := by simpa using h
  have hsplit := beats_append (p.take n) hrest
  rw [List.take_append_drop] at hsplit
  exact ⟨_, hsplit.symm⟩

theorem beats_map {β : Type*} (f : α → β) (p : List α) :
    beats (p.map f) = (beats p).map fun b => (f b.1, b.2) := by
  induction p with
  | nil => rfl
  | cons x p ih => rw [List.map_cons, beats_cons, beats_cons, ih, List.map_cons, List.isEmpty_map]

/-- The beats of a packet, each of whose words tells whether it is the last one. -/
theorem beats_map_beats {β : Type*} (f : α × Bool → β) (p : List α) :
    beats ((beats p).map f) = (beats p).map fun b => (f b, b.2) := by
  induction p with
  | nil => rfl
  | cons x p ih =>
    have hempty : ((beats p).map f).isEmpty = p.isEmpty := by cases p <;> simp [beats_cons]
    rw [beats_cons, List.map_cons, beats_cons, ih, hempty, List.map_cons]

theorem map_fst_beats (p : List α) : (beats p).map Prod.fst = p := by
  rcases List.eq_nil_or_concat p with rfl | ⟨q, x, rfl⟩
  · rfl
  · rw [List.concat_eq_append, beats_concat]
    simp [Function.comp_def]

@[simp] theorem packets_nil : packets ([] : List (α × Bool)) = [] := rfl

@[simp] theorem openPacket_nil : openPacket ([] : List (α × Bool)) = [] := rfl

theorem packets_append (bs cs : List (α × Bool)) :
    packets (bs ++ cs) = packets bs ++ collect cutStep cutEmit (openPacket bs) cs :=
  collect_append _ _ _

theorem openPacket_append (bs cs : List (α × Bool)) :
    openPacket (bs ++ cs) = run cutStep (openPacket bs) cs :=
  run_append _ _ _

theorem packets_concat (bs : List (α × Bool)) (x : α) (l : Bool) :
    packets (bs ++ [(x, l)]) = packets bs ++ if l then [openPacket bs ++ [x]] else [] := by
  cases l <;> simp [packets_append, cutEmit]

theorem openPacket_concat (bs : List (α × Bool)) (x : α) (l : Bool) :
    openPacket (bs ++ [(x, l)]) = if l then [] else openPacket bs ++ [x] := by
  cases l <;> simp [openPacket_append, cutStep]

/-- **Cutting loses nothing**: the beats of the complete packets, then the words in progress, are
the stream. -/
theorem beats_packets (bs : List (α × Bool)) :
    (packets bs).flatMap beats ++ (openPacket bs).map (·, false) = bs := by
  induction bs using List.reverseRecOn with
  | nil => rfl
  | append_singleton bs b ih =>
    obtain ⟨x, l⟩ := b
    rw [packets_concat, openPacket_concat]
    cases l
    · simp [← List.append_assoc, ih]
    · simp [beats_concat, ← List.append_assoc, ih]

theorem ne_nil_of_mem_packets {bs : List (α × Bool)} {p : List α} (h : p ∈ packets bs) :
    p ≠ [] := by
  induction bs using List.reverseRecOn with
  | nil => simp at h
  | append_singleton bs b ih =>
    obtain ⟨x, l⟩ := b
    rw [packets_concat, List.mem_append] at h
    rcases h with h | h
    · exact ih h
    · cases l <;> simp at h
      simp [h]

theorem length_beats (p : List α) : (beats p).length = p.length := by
  rw [← List.length_map Prod.fst, map_fst_beats]

theorem length_le_of_mem_packets {bs : List (α × Bool)} {p : List α} (h : p ∈ packets bs) :
    p.length ≤ bs.length := by
  obtain ⟨l, r, hsplit⟩ := List.append_of_mem h
  have hlen := congrArg List.length (beats_packets bs)
  rw [hsplit, List.flatMap_append, List.flatMap_cons] at hlen
  simp only [List.length_append, length_beats] at hlen
  omega

theorem run_map_false (p q : List α) : run cutStep p (q.map (·, false)) = p ++ q := by
  induction q generalizing p with
  | nil => simp
  | cons x q ih =>
    rw [List.map_cons, run_cons, ih]
    simp [cutStep]

theorem collect_map_false (p q : List α) :
    collect cutStep cutEmit p (q.map (·, false)) = [] := by
  induction q generalizing p with
  | nil => rfl
  | cons x q ih =>
    rw [List.map_cons, collect_cons, ih]
    rfl

theorem openPacket_append_map_false (bs : List (α × Bool)) (q : List α) :
    openPacket (bs ++ q.map (·, false)) = openPacket bs ++ q := by
  rw [openPacket_append, run_map_false]

@[simp] theorem openPacket_map_false (q : List α) : openPacket (q.map (·, false)) = q :=
  openPacket_append_map_false [] q

@[simp] theorem packets_map_false (q : List α) : packets (q.map (·, false)) = [] :=
  collect_map_false [] q

theorem packets_beats {p : List α} (h : p ≠ []) :
    packets (beats p) = [p] ∧ openPacket (beats p) = [] := by
  rcases List.eq_nil_or_concat p with rfl | ⟨q, x, rfl⟩
  · exact absurd rfl h
  · rw [List.concat_eq_append, beats_concat, packets_concat, openPacket_concat]
    simp

/-- Cutting the beats of packets gives the packets back. -/
theorem packets_flatMap_beats {ps : List (List α)} (h : ∀ p ∈ ps, p ≠ []) :
    packets (ps.flatMap beats) = ps ∧ openPacket (ps.flatMap beats) = [] := by
  induction ps with
  | nil => exact ⟨rfl, rfl⟩
  | cons p ps ih =>
    obtain ⟨h₁, h₂⟩ := packets_beats (h p (by simp))
    obtain ⟨h₃, h₄⟩ := ih fun q hq => h q (by simp [hq])
    rw [List.flatMap_cons, packets_append, openPacket_append, h₁, h₂]
    exact ⟨congrArg ([p] ++ ·) h₃, h₄⟩

/-- The same with a packet in progress. -/
theorem packets_flatMap_beats_append {ps : List (List α)} (h : ∀ p ∈ ps, p ≠ []) (q : List α) :
    packets (ps.flatMap beats ++ q.map (·, false)) = ps ∧
      openPacket (ps.flatMap beats ++ q.map (·, false)) = q := by
  obtain ⟨h₁, h₂⟩ := packets_flatMap_beats h
  rw [packets_append, openPacket_append, h₁, h₂]
  exact ⟨(congrArg (ps ++ ·) (packets_map_false q)).trans (List.append_nil _),
    openPacket_map_false q⟩

/-- A beat with the last one of a packet behind it, or with the mark itself, is a beat of a complete
packet. -/
theorem concat_prefix_packets {bs cs : List (α × Bool)} {b : α × Bool}
    (h : ∃ c ∈ b :: cs, c.2 = true) :
    bs ++ [b] <+: (packets (bs ++ b :: cs)).flatMap beats := by
  obtain ⟨c, hc, hlast⟩ := h
  have hsplit := beats_packets (bs ++ b :: cs)
  have hle : (bs ++ [b]).length ≤ ((packets (bs ++ b :: cs)).flatMap beats).length := by
    by_contra hlt
    rw [List.length_append, List.length_singleton] at hlt
    -- else the mark would stand in the packet in progress
    obtain ⟨ds, hds⟩ :=
      List.prefix_of_prefix_length_le ⟨_, hsplit⟩ (List.prefix_append bs (b :: cs)) (by omega)
    generalize (packets (bs ++ b :: cs)).flatMap beats = u at *
    generalize openPacket (bs ++ b :: cs) = q at *
    subst hds
    rw [List.append_assoc, List.append_cancel_left_eq] at hsplit
    have hmem : c ∈ q.map (·, false) := by simp [hsplit, List.mem_cons.mp hc]
    obtain ⟨x, -, rfl⟩ := List.mem_map.mp hmem
    cases hlast
  exact List.prefix_of_prefix_length_le ⟨cs, by simp⟩ ⟨_, hsplit⟩ hle

/-- Where beats of packets are still to come, a packet is not complete. -/
theorem length_packets_lt {ps : List (List α)} (hps : ∀ p ∈ ps, p ≠ [])
    {bs cs : List (α × Bool)} (h : ps.flatMap beats = bs ++ cs) (hcs : cs ≠ []) :
    (packets bs).length < ps.length := by
  obtain ⟨hpackets, hopen⟩ := packets_flatMap_beats hps
  rw [h, packets_append] at hpackets
  have hle := congrArg List.length hpackets
  rw [List.length_append] at hle
  by_contra hnot
  have hnone : collect cutStep cutEmit (openPacket bs) cs = [] :=
    List.eq_nil_of_length_eq_zero (by omega)
  rw [hnone, List.append_nil] at hpackets
  -- all the packets are complete, so their beats are the whole stream
  have hsplit := beats_packets bs
  have hbs : bs ++ cs <+: bs := by
    rw [← h, ← hpackets]
    exact ⟨_, hsplit⟩
  exact hcs (List.append_right_eq_self.mp (hbs.eq_of_length_le (by simp)))

theorem packets_prefix {bs cs : List (α × Bool)} (h : bs <+: cs) : packets bs <+: packets cs :=
  collect_prefix [] h

theorem mem_packets_append {bs : List (α × Bool)} (cs : List (α × Bool)) {p : List α}
    (h : p ∈ packets bs) : p ∈ packets (bs ++ cs) := by
  rw [packets_append]
  exact List.mem_append_left _ h

/-- The packet in progress is the beginning of a packet of every longer stream. -/
theorem exists_openPacket_prefix (bs cs : List (α × Bool)) :
    ∃ p ∈ packets (bs ++ cs) ++ [openPacket (bs ++ cs)], openPacket bs <+: p := by
  induction cs using List.reverseRecOn with
  | nil => exact ⟨openPacket bs, by simp, List.prefix_refl _⟩
  | append_singleton cs c ih =>
    obtain ⟨p, hp, hpre⟩ := ih
    obtain ⟨x, l⟩ := c
    rw [← List.append_assoc, packets_concat, openPacket_concat]
    rcases List.mem_append.mp hp with hp | hp
    · exact ⟨p, by simp [hp], hpre⟩
    · rw [List.mem_singleton] at hp
      refine ⟨p ++ [x], ?_, hpre.trans (List.prefix_append _ _)⟩
      cases l <;> simp [hp]

/-- A beat of a stream of packets continues one of them, and ends it if it is marked. -/
theorem exists_mem_of_concat_prefix {ps : List (List α)} (hps : ∀ p ∈ ps, p ≠ [])
    {bs : List (α × Bool)} {x : α} {l : Bool} (h : bs ++ [(x, l)] <+: ps.flatMap beats) :
    ∃ p ∈ ps, openPacket bs ++ [x] <+: p ∧ (l = true → openPacket bs ++ [x] = p) := by
  obtain ⟨cs, hcs⟩ := h
  obtain ⟨hpackets, hopen⟩ := packets_flatMap_beats hps
  cases l with
  | true =>
    have hmem : openPacket bs ++ [x] ∈ ps := by
      rw [← hpackets, ← hcs, packets_append, packets_concat]
      simp
    exact ⟨_, hmem, List.prefix_refl _, fun _ => rfl⟩
  | false =>
    obtain ⟨p, hp, hpre⟩ := exists_openPacket_prefix (bs ++ [(x, false)]) cs
    rw [hcs, hpackets, hopen, openPacket_concat] at *
    simp only [Bool.false_eq_true, if_false, false_implies, and_true] at hpre ⊢
    rcases List.mem_append.mp hp with hp | hp
    · exact ⟨p, hp, hpre⟩
    · rw [List.mem_singleton.mp hp, List.prefix_nil] at hpre
      simp at hpre

/-- **The conservation rule for packets.** A circuit that turns the packets it accepts into the
beats `f` of each, where every packet accepted satisfies `Q`. -/
theorem exists_pending_packets {B : Type*} {step : S → I → S} {ok : S → I → Prop}
    {acc : S → I → List (α × Bool)} {emit : S → I → List B} {f : List α → List B}
    {Q : List α → Prop} {R : S → List α → List B → Prop}
    (hstep : ∀ s g p i, R s g p → ok s i → (∀ q ∈ collect cutStep cutEmit g (acc s i), Q q) →
      ∃ p', R (step s i) (run cutStep g (acc s i)) p' ∧
        p ++ (collect cutStep cutEmit g (acc s i)).flatMap f = emit s i ++ p')
    {s : S} {g : List α} {p : List B} {is : List I} (hs : R s g p) (h : Always step ok s is)
    (hQ : ∀ q ∈ collect cutStep cutEmit g (collect step acc s is), Q q) :
    ∃ p', R (run step s is) (run cutStep g (collect step acc s is)) p' ∧
      p ++ (collect cutStep cutEmit g (collect step acc s is)).flatMap f =
        collect step emit s is ++ p' := by
  induction is generalizing s g p with
  | nil => exact ⟨p, hs, by simp⟩
  | cons i is ih =>
    rw [collect_cons, collect_append] at hQ
    obtain ⟨p₁, h₁, e₁⟩ := hstep s g p i hs h.1 fun q hq => hQ q (List.mem_append_left _ hq)
    obtain ⟨p₂, h₂, e₂⟩ := ih h₁ h.2 fun q hq => hQ q (List.mem_append_right _ hq)
    refine ⟨p₂, by simpa [run_append] using h₂, ?_⟩
    rw [collect_cons, collect_append, List.flatMap_append, ← List.append_assoc, e₁,
      List.append_assoc, e₂, collect_cons, List.append_assoc]

/-! ## Resets -/

section Cutting

variable (step : S → I → S) (reset : S → I → Bool) (got : S → I → List (α × Bool))

/-- A machine with the packet in progress at one of its ports. A reset cuts the packet off. -/
def cutting (x : S × List α) (i : I) : S × List α :=
  (step x.1 i, if reset x.1 i then [] else run cutStep x.2 (got x.1 i))

/-- The packet that a cycle completes at the port. -/
def completes (x : S × List α) (i : I) : List (List α) := collect cutStep cutEmit x.2 (got x.1 i)

/-- The complete packets of a run with resets. -/
def wholePackets (s : S) (is : List I) : List (List α) :=
  collect (cutting step reset got) (completes got) (s, []) is

end Cutting

/-! ## Readers of packets -/

section Reader

variable {step : S → I → S} {ok bound : S → I → Prop} {got : S → I → List (α × Bool)}
  {Q : List α → Prop} {R : S → List α → Prop} {s : S} {f : List α} {is : List I}

/-- **A machine that reads packets word by word.** `R s f` says that the words `f` of a packet have
been read; a cycle keeps that up as long as the packets it ends satisfy `Q`. -/
def Reads (step : S → I → S) (got : S → I → List (α × Bool)) (ok : S → I → Prop)
    (Q : List α → Prop) (R : S → List α → Prop) : Prop :=
  ∀ s f i, R s f → ok s i → (∀ g ∈ collect cutStep cutEmit f (got s i), Q g) →
    R (step s i) (run cutStep f (got s i))

/-- **Every run** of a reader: what has been read is the packet in progress. -/
theorem Reads.run_open (h : Reads step got ok Q R) (hs : R s f) (hok : Always step ok s is)
    (hQ : ∀ g ∈ collect cutStep cutEmit f (collect step got s is), Q g) :
    R (run step s is) (run cutStep f (collect step got s is)) := by
  induction is generalizing s f with
  | nil => exact hs
  | cons i is ih =>
    rw [collect_cons, collect_append] at hQ
    have hstep := h s f i hs hok.1 fun g hg => hQ g (List.mem_append_left _ hg)
    rw [run_cons, collect_cons, run_append]
    exact ih hstep hok.2 fun g hg => hQ g (List.mem_append_right _ hg)

/-- **Packet boundaries**: a condition that a cycle meets exactly if the packets it ends satisfy `Q`
is met in every cycle of a run exactly if all packets of the run satisfy `Q`. -/
theorem Reads.always_bound_iff (h : Reads step got ok Q R)
    (hbound : ∀ s f i, R s f → ok s i →
      (bound s i ↔ ∀ g ∈ collect cutStep cutEmit f (got s i), Q g))
    (hs : R s f) (hok : Always step ok s is) :
    Always step bound s is ↔ ∀ g ∈ collect cutStep cutEmit f (collect step got s is), Q g := by
  induction is generalizing s f with
  | nil => simp
  | cons i is ih =>
    rw [always_cons, collect_cons, collect_append, List.forall_mem_append, hbound s f i hs hok.1]
    refine and_congr_right fun hQ => ?_
    exact ih (h s f i hs hok.1 hQ) hok.2

end Reader

/-! ## Sources that follow the handshake -/

/-- A source with the beats it has yet to hand over. `must` says that it has to offer the next
one now. -/
structure Source (α : Type*) where
  todo : List (α × Bool)
  must : Bool

section Source

variable (gapless : Bool) (step : S → I → S) (offer : I → Option (α × Bool)) (ready : S → I → Bool)

/-- The source offers nothing, or the next of its beats; it may not withdraw. -/
def Source.Offers (x : S × Source α) (i : I) : Prop :=
  match offer i with
  | none => x.2.must = false
  | some b => x.2.todo.head? = some b

instance [DecidableEq α] (x : S × Source α) (i : I) : Decidable (Source.Offers offer x i) := by
  unfold Source.Offers
  split <;> infer_instance

/-- A machine together with its source. A beat is handed over when it is offered and the machine
is ready; a refused beat has to be offered again, and a `gapless` source keeps offering until the
end of a packet. -/
def sourced (x : S × Source α) (i : I) : S × Source α :=
  (step x.1 i,
    match offer i with
    | none => x.2
    | some b =>
      if ready x.1 i then ⟨x.2.todo.tail, gapless && !b.2⟩ else ⟨x.2.todo, true⟩)

/-- **The run is fed by a source that follows the handshake** and has the beats `bs` to send, with
any pauses between beats (between packets, if `gapless`). -/
def Feeds (bs : List (α × Bool)) (s : S) (is : List I) : Prop :=
  Always (sourced gapless step offer ready) (Source.Offers offer) (s, ⟨bs, false⟩) is

instance [DecidableEq α] (bs : List (α × Bool)) (s : S) (is : List I) :
    Decidable (Feeds gapless step offer ready bs s is) :=
  inferInstanceAs (Decidable (Always _ _ _ _))

/-- The beat that is handed over in a cycle. -/
def handed (s : S) (i : I) : List (α × Bool) :=
  match offer i with
  | none => []
  | some b => if ready s i then [b] else []

/-- The beats that have not been handed over at the end of a run. -/
def unsent (bs : List (α × Bool)) (s : S) (is : List I) : List (α × Bool) :=
  (run (sourced gapless step offer ready) (s, ⟨bs, false⟩) is).2.todo

/-- A cycle in which the source has a beat to send and offers none. -/
def paused (x : S × Source α) (i : I) : List Unit :=
  if (offer i).isNone && !x.2.todo.isEmpty then [()] else []

/-- The number of cycles of a run in which the source pauses. -/
def pauses (bs : List (α × Bool)) (s : S) (is : List I) : ℕ :=
  (collect (sourced gapless step offer ready) (paused offer) (s, ⟨bs, false⟩) is).length

variable {gapless step offer ready}

theorem length_collect_paused_le (offer : I → Option (α × Bool))
    (step' : S × Source α → I → S × Source α) (x : S × Source α) (is : List I) :
    (collect step' (paused offer) x is).length ≤ is.length := by
  induction is generalizing x with
  | nil => rfl
  | cons i is ih =>
    have hone : (paused offer x i).length ≤ 1 := by
      unfold paused
      split <;> simp
    have := ih (step' x i)
    rw [collect_cons, List.length_append, List.length_cons]
    omega

theorem handed_sourced {x : S × Source α} {i : I} (h : Source.Offers offer x i) :
    handed offer ready x.1 i ++ (sourced gapless step offer ready x i).2.todo = x.2.todo := by
  unfold Source.Offers at h
  unfold handed sourced
  cases ho : offer i with
  | none => rfl
  | some b =>
    rw [ho] at h
    obtain ⟨t, ht⟩ := List.head?_eq_some_iff.mp h
    cases hr : ready x.1 i <;> simp [ht]

/-- What has been handed over and what has not are what there was to send. -/
theorem handed_append_unsent {bs : List (α × Bool)} {s : S} {is : List I}
    (h : Feeds gapless step offer ready bs s is) :
    collect step (handed offer ready) s is ++ unsent gapless step offer ready bs s is = bs := by
  have hπ : ∀ (x : S × Source α) i, (sourced gapless step offer ready x i).1 = step x.1 i :=
    fun _ _ => rfl
  suffices key : ∀ x : S × Source α,
      Always (sourced gapless step offer ready) (Source.Offers offer) x is →
      collect (sourced gapless step offer ready) (fun x i => handed offer ready x.1 i) x is ++
        (run (sourced gapless step offer ready) x is).2.todo = x.2.todo by
    have := key (s, ⟨bs, false⟩) h
    rwa [collect_proj hπ] at this
  clear h
  intro x h
  induction is generalizing x with
  | nil => rfl
  | cons i is ih =>
    rw [collect_cons, run_cons, List.append_assoc, ih _ h.2, handed_sourced h.1]

/-- A stream is a source that follows the handshake, when the beats handed over and the one that is
offered are always the first of `bs`, and a beat that is refused is offered again. -/
theorem feeds_of_prefix {bs : List (α × Bool)} {s : S} {is : List I}
    (hpre : ∀ js i ks, is = js ++ i :: ks →
      collect step (handed offer ready) s js ++ (offer i).toList <+: bs)
    (hhold : ∀ js i j ks, is = js ++ i :: j :: ks → ready (run step s js) i = false →
      (offer i).isSome = true → offer j = offer i) :
    Feeds false step offer ready bs s is := by
  have hπ : ∀ (x : S × Source α) i, (sourced false step offer ready x i).1 = step x.1 i :=
    fun _ _ => rfl
  induction is using List.reverseRecOn with
  | nil => trivial
  | append_singleton is i ih =>
    have hfeeds : Feeds false step offer ready bs s is :=
      ih (fun js j ks h => hpre js j (ks ++ [i]) (by simp [h]))
        (fun js j k ks h => hhold js j k (ks ++ [i]) (by simp [h]))
    refine (always_append _ _ _).mpr ⟨hfeeds, ?_, trivial⟩
    have hsum := handed_append_unsent hfeeds
    have hnext := hpre is i [] rfl
    unfold Source.Offers
    cases ho : offer i with
    | some b =>
      obtain ⟨cs, hcs⟩ := hnext
      rw [ho, Option.toList_some, List.append_assoc, ← hsum, List.append_cancel_left_eq] at hcs
      change (unsent false step offer ready bs s is).head? = some b
      rw [← hcs]
      rfl
    | none =>
      -- the beat before was not refused
      rcases List.eq_nil_or_concat is with rfl | ⟨js, j, rfl⟩
      · rfl
      · rw [List.concat_eq_append] at hhold hfeeds ⊢
        have hrefused := hhold js j i [] (by simp)
        have hoffers := ((always_append _ _ _).mp hfeeds).2.1
        rw [run_concat]
        rw [← run_proj hπ (s, ⟨bs, false⟩), ho] at hrefused
        generalize run (sourced false step offer ready) (s, ⟨bs, false⟩) js = x at *
        unfold Source.Offers at hoffers
        cases hj : offer j with
        | none => simpa [sourced, hj] using hoffers
        | some b =>
          have hready : ready x.1 j = true := by
            by_contra hready
            simpa [hj] using hrefused (by simpa using hready)
          simp [sourced, hj, hready]

/-- **A stream inside a circuit**: what `feeds_of_prefix` asks for, in terms of the circuit that
drives the inputs of the machine. -/
theorem feeds_component {T J : Type*} {π : T → S} {step' : T → J → T} {inp : T → J → I}
    (hπ : ∀ x j, π (step' x j) = step (π x) (inp x j)) {bs : List (α × Bool)} {x : T} {js : List J}
    (hpre : ∀ ks j ls, js = ks ++ j :: ls →
      collect step' (fun y k => handed offer ready (π y) (inp y k)) x ks ++
        (offer (inp (run step' x ks) j)).toList <+: bs)
    (hhold : ∀ y, ∀ j ∈ js, ∀ k, ready (π y) (inp y j) = false →
      (offer (inp y j)).isSome = true → offer (inp (step' y j) k) = offer (inp y j)) :
    Feeds false step offer ready bs (π x) (inputs step' inp x js) := by
  apply feeds_of_prefix
  · intro as a cs hsplit
    obtain ⟨ks, j, ls, rfl, rfl, rfl, -⟩ := exists_of_inputs_eq hsplit
    rw [collect_component hπ]
    exact hpre ks j ls rfl
  · intro as a b cs hsplit hready hvalid
    obtain ⟨ks, j, ls, rfl, rfl, rfl, hrest⟩ := exists_of_inputs_eq hsplit
    rw [run_component hπ] at hready
    cases ls with
    | nil => cases hrest
    | cons k ls =>
      rw [inputs_cons, List.cons.injEq] at hrest
      obtain ⟨rfl, -⟩ := hrest
      exact hhold _ j (by simp) k hready hvalid

end Source

end RmiiEthernet.Sync
