import RmiiEthernet.Sync.Packet

/-!
# Circuits with several clocks

In a circuit with several clocks a step is an edge of one of them. It moves the components on that
clock and leaves the others as they are. So a component gets a list of inputs `inp x j` from an edge
`j`, with one input or none, and what it does in a run of the circuit is what it does alone on the
inputs of all the edges (`Clocked`).

`Clocked.feeds` is the rule for a stream between two clocks: the circuit that drives it is a source
that follows the handshake, if the beats are the right ones and a valid beat stays valid for as long
as the protocol asks for it. `Paces` bounds the number of edges of one clock between two edges of
another.
-/

namespace RmiiEthernet.Sync

variable {S I B T J : Type*} {step : S → I → S} {ok : S → I → Prop} {obs : S → I → List B}
  {π : T → S} {step' : T → J → T} {inp : T → J → List I}

/-- **A component on one of the clocks** of a circuit: an edge of the circuit moves it by the inputs
that the circuit gives it there. -/
def Clocked (step : S → I → S) (π : T → S) (step' : T → J → T) (inp : T → J → List I) : Prop :=
  ∀ x j, π (step' x j) = run step (π x) (inp x j)

namespace Clocked

variable (h : Clocked step π step' inp)

include h

theorem run_eq (x : T) (js : List J) :
    run step (π x) (collect step' inp x js) = π (run step' x js) := by
  induction js generalizing x with
  | nil => rfl
  | cons j js ih => rw [collect_cons, run_append, ← h, ih, run_cons]

theorem collect_eq (x : T) (js : List J) :
    collect step obs (π x) (collect step' inp x js) =
      collect step' (fun x j => collect step obs (π x) (inp x j)) x js := by
  induction js generalizing x with
  | nil => rfl
  | cons j js ih => rw [collect_cons, collect_append, ← h, ih, collect_cons]

theorem always_iff (x : T) (js : List J) :
    Always step ok (π x) (collect step' inp x js) ↔
      Always step' (fun x j => Always step ok (π x) (inp x j)) x js := by
  induction js generalizing x with
  | nil => rfl
  | cons j js ih => rw [collect_cons, always_append, ← h, ih, always_cons]

end Clocked

/-- Two readings of a run that agree at every edge. -/
theorem collect_congr_of_always {obs' : S → I → List B} {s : S} {is : List I}
    (h : Always step (fun s i => obs s i = obs' s i) s is) :
    collect step obs s is = collect step obs' s is := by
  induction is generalizing s with
  | nil => rfl
  | cons i is ih => rw [collect_cons, collect_cons, h.1, ih h.2]

/-! ## Streams between clocks -/

section Feeds

variable {α : Type*} {gapless : Bool} {offer : I → Option (α × Bool)} {ready : S → I → Bool}
  {bs : List (α × Bool)} {x : T} {js : List J}

/-- **A stream between clocks.** The beats handed over and the one that is offered are always the
first of `bs`; `valid` tells whether there is one to offer, and it stays true until a beat is handed
over behind which the source may pause. -/
theorem Clocked.feeds (h : Clocked step π step' inp) {valid : T → Bool}
    (hone : ∀ y j, inp y j = [] ∨ ∃ i, inp y j = [i] ∧ (offer i).isSome = valid y)
    (hpre : ∀ ks j ls, js = ks ++ j :: ls → ∀ i ∈ inp (run step' x ks) j,
      collect step' (fun y k => collect step (handed offer ready) (π y) (inp y k)) x ks ++
        (offer i).toList <+: bs)
    (hkeep : ∀ ks j ls, js = ks ++ j :: ls → valid (run step' x ks) = true →
      (∀ b ∈ collect step (handed offer ready) (π (run step' x ks)) (inp (run step' x ks) j),
        gapless = true ∧ b.2 = false) →
      valid (step' (run step' x ks) j) = true) :
    Feeds gapless step offer ready bs (π x) (collect step' inp x js) := by
  have hπ : ∀ (y : S × Source α) i, (sourced gapless step offer ready y i).1 = step y.1 i :=
    fun _ _ => rfl
  suffices key : Feeds gapless step offer ready bs (π x) (collect step' inp x js) ∧
      ((run (sourced gapless step offer ready) (π x, ⟨bs, false⟩)
        (collect step' inp x js)).2.must = true → valid (run step' x js) = true) from key.1
  induction js using List.reverseRecOn with
  | nil => exact ⟨trivial, nofun⟩
  | append_singleton js j ih =>
    obtain ⟨hfeeds, hmust⟩ := ih
      (fun ks k ls hjs => hpre ks k (ls ++ [j]) (by simp [hjs]))
      (fun ks k ls hjs => hkeep ks k (ls ++ [j]) (by simp [hjs]))
    have hnext := hpre js j [] rfl
    have hstay := hkeep js j [] rfl
    have hstate : (run (sourced gapless step offer ready) (π x, ⟨bs, false⟩)
        (collect step' inp x js)).1 = π (run step' x js) := by
      rw [run_proj hπ, h.run_eq]
    have hsum := handed_append_unsent hfeeds
    rw [h.collect_eq] at hsum
    rw [collect_concat, run_concat, run_append]
    unfold Feeds at hfeeds ⊢
    unfold unsent at hsum
    rw [always_append]
    generalize run (sourced gapless step offer ready) (π x, ⟨bs, false⟩)
      (collect step' inp x js) = y at *
    generalize run step' x js = z at *
    rcases hone z j with hnone | ⟨i, hi, hvalid⟩
    · rw [hnone] at hstay ⊢
      exact ⟨⟨hfeeds, trivial⟩, fun hm => hstay (hmust hm) (by simp)⟩
    · rw [hi] at hnext hstay ⊢
      simp only [always_cons, always_nil, and_true, run_cons, run_nil, collect_cons, collect_nil,
        List.append_nil] at hstay ⊢
      have hnext := hnext i (by simp)
      cases ho : offer i with
      | none =>
        have hz : valid z = false := by rw [← hvalid, ho]; rfl
        have hm : y.2.must = false := by
          by_contra hm
          simp [hmust (by simpa using hm)] at hz
        refine ⟨⟨hfeeds, by simpa [Source.Offers, ho] using hm⟩, fun hm' => ?_⟩
        simp [sourced, ho, hm] at hm'
      | some b =>
        have hz : valid z = true := by rw [← hvalid, ho]; rfl
        obtain ⟨cs, hcs⟩ := hnext
        rw [ho, Option.toList_some, List.append_assoc, ← hsum, List.append_cancel_left_eq] at hcs
        refine ⟨⟨hfeeds, by simp [Source.Offers, ho, ← hcs]⟩, fun hm => hstay hz fun c hc => ?_⟩
        -- the beat that is handed over does not end its packet
        rw [← hstate] at hc
        unfold handed at hc
        rw [ho] at hc
        cases hr : ready y.1 i with
        | false => simp [hr] at hc
        | true =>
          obtain rfl : c = b := by simpa [hr] using hc
          simpa [sourced, ho, hr] using hm

end Feeds

/-! ## The pace of a clock -/

section Pace

variable {n : ℕ} {fast slow : J → Bool} {js ks : List J}

/-- Where there is no edge of one clock, there are at most `n` of the other. -/
def Paces (n : ℕ) (fast slow : J → Bool) (js : List J) : Prop :=
  ∀ ks, ks <:+: js → ks.any fast = false → ks.countP slow ≤ n

/-- The edges of the one clock since the last edge of the other. -/
def lag (fast slow : J → Bool) (c : ℕ) (j : J) : ℕ :=
  if fast j then 0 else if slow j then c + 1 else c

theorem Paces.of_infix (h : Paces n fast slow js) (hks : ks <:+: js) : Paces n fast slow ks :=
  fun ls hls => h ls (hls.trans hks)

theorem exists_suffix_lag (fast slow : J → Bool) (js : List J) :
    ∃ ks, ks <:+ js ∧ ks.any fast = false ∧ ks.countP slow = run (lag fast slow) 0 js := by
  induction js using List.reverseRecOn with
  | nil => exact ⟨[], List.suffix_refl _, rfl, rfl⟩
  | append_singleton js j ih =>
    rw [run_concat, lag]
    cases hf : fast j with
    | true => exact ⟨[], List.nil_suffix, rfl, rfl⟩
    | false =>
      obtain ⟨ks, ⟨ls, rfl⟩, hnone, hcount⟩ := ih
      refine ⟨ks ++ [j], ⟨ls, by simp⟩, by simp [hnone, hf], ?_⟩
      rw [List.countP_append, hcount]
      cases hs : slow j <;> simp [hs]

/-- **The pace bounds the lag.** -/
theorem Paces.lag_le (h : Paces n fast slow js) : run (lag fast slow) 0 js ≤ n := by
  obtain ⟨ks, hks, hnone, hcount⟩ := exists_suffix_lag fast slow js
  rw [← hcount]
  exact h ks hks.isInfix hnone

theorem run_lag_of_any_eq_false (h : ks.any fast = false) (c : ℕ) :
    run (lag fast slow) c ks = c + ks.countP slow := by
  induction ks generalizing c with
  | nil => rfl
  | cons j ks ih =>
    rw [List.any_cons, Bool.or_eq_false_iff] at h
    rw [run_cons, ih h.2, lag, h.1, List.countP_cons]
    cases slow j
    · simp
    · simp [Nat.add_comm, Nat.add_left_comm]

/-- A pace is kept when the lag never grows beyond it. -/
theorem paces_iff : Paces n fast slow js ↔
    Always (lag fast slow) (fun c j => lag fast slow c j ≤ n) 0 js := by
  constructor
  · intro h
    refine always_of_forall_split fun ks j ls hjs => ?_
    have hprefix : ks ++ [j] <+: js := ⟨ls, by simp [hjs]⟩
    have hlag := (h.of_infix hprefix.isInfix).lag_le
    rwa [run_concat] at hlag
  · rintro h ks ⟨as, bs, rfl⟩ hnone
    rcases List.eq_nil_or_concat ks with rfl | ⟨ks, j, rfl⟩
    · exact Nat.zero_le _
    · rw [List.concat_eq_append] at hnone h ⊢
      rw [List.append_assoc, List.append_assoc, always_append, always_append] at h
      have hlast : lag fast slow (run (lag fast slow) (run (lag fast slow) 0 as) ks) j ≤ n :=
        h.2.2.1
      have hrun : run (lag fast slow) (run (lag fast slow) 0 as) (ks ++ [j]) = _ :=
        run_lag_of_any_eq_false hnone _
      rw [run_concat] at hrun
      omega

instance : Decidable (Paces n fast slow js) := decidable_of_iff _ paces_iff.symm

/-- A component keeps the pace of what drives it. -/
theorem Paces.inputs {T I : Type*} {step' : T → J → T} {inp : T → J → I} {fast' slow' : I → Bool}
    (hfast : ∀ x j, fast' (inp x j) = fast j) (hslow : ∀ x j, slow' (inp x j) = slow j)
    (h : Paces n fast slow js) (x : T) : Paces n fast' slow' (Sync.inputs step' inp x js) := by
  rw [paces_iff] at h ⊢
  generalize 0 = c at h ⊢
  induction js generalizing x c with
  | nil => trivial
  | cons j js ih =>
    have hlag : lag fast' slow' c (inp x j) = lag fast slow c j := by
      rw [lag, lag, hfast, hslow]
    rw [inputs_cons, always_cons, hlag]
    exact ⟨h.1, ih _ _ h.2⟩

end Pace

end RmiiEthernet.Sync
