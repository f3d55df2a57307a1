import RmiiEthernet.Mdio.Frames

/-!
# The preamble of the management interface

The bit counter counts down while the machine is idle, and the idle slot loads it with `31` for the
preamble, through a register. In the phase `n / 2` an operation comes too late for that: the
preamble is then as long as the counter happens to say (`fullPreamble_iff`).
-/

namespace RmiiEthernet.Mdio

open Sync

variable {n total : ℕ} {x : Scope n} {i : Inputs} {o : Operation} {ps fs : List Edge}

/-- What has been noted after an acceptance, further operations included: the ones, or the ones and
then the first zero. -/
def Seen (total : ℕ) (x : Scope n) (es : List Edge) : Prop :=
  (∃ o, Watched x ∧ Shown o total x es []) ∨
    ∃ ps z fs, es = ps ++ z :: fs ∧ (∀ e ∈ ps, e.line = true) ∧ z.line = false ∧ ps.length = total

/-- The first slot of the frame is a zero. -/
theorem line_head {z : Edge} {bs : List (Option Bool)}
    (h : (z :: fs).map Edge.driven ++ bs = o.frame) : z.line = false := by
  rw [List.map_cons, List.cons_append, Operation.frame, List.cons.injEq] at h
  rw [Edge.line, h.1]
  rfl

/-- With a slot of the frame its first zero has been noted, and no ones are left. -/
theorem Shown.seen (h : Shown o total x ps fs) (hfs : fs ≠ []) :
    ∃ ps' z fs', ps ++ fs = ps' ++ z :: fs' ∧ (∀ e ∈ ps', e.line = true) ∧ z.line = false ∧
      ps'.length = total := by
  obtain ⟨z, fs', rfl⟩ := List.exists_cons_of_ne_nil hfs
  have hlength := h.length
  have hstate : ¬(x.circuit.fsmState = .idle ∨ x.circuit.fsmState = .preamble) :=
    fun hstate => by cases h.eq_nil hstate
  obtain ⟨hidle, hpre⟩ := not_or.mp hstate
  have hdue : due x = 0 := by simp [due, ones_eq_zero hidle hpre, early, hidle]
  exact ⟨ps, z, fs', rfl, h.line, line_head h.frame, by omega⟩

theorem seen_step (hn : Fits n) {es : List Edge} (h : Seen total x es) (hreset : i.reset = false) :
    Seen total (x.step i) (es ++ x.edge i) := by
  rcases h with ⟨o, hx, hshown⟩ | ⟨ps, z, fs, rfl, hline, hz, hlength⟩
  · have hlast : ¬(phase x.circuit = n / 2 + 1 ∧ x.circuit.fsmState = .done) := by
      rintro ⟨-, hdone⟩
      cases (hshown.whole hdone).2
    obtain ⟨ps', fs', heq, hshown'⟩ := hshown.step hn hx hreset hlast
    rw [List.append_nil] at heq
    by_cases hfs : fs' = []
    · subst hfs
      rw [List.append_nil] at heq
      rw [← heq]
      exact .inl ⟨o, hx.step hn hreset hlast, hshown'⟩
    · rw [← heq]
      exact .inr (hshown'.seen hfs)
  · exact .inr ⟨ps, z, fs ++ x.edge i, by simp, hline, hz, hlength⟩

theorem seen_run (hn : Fits n) (h : Seen total x []) {js : List Inputs}
    (hjs : ∀ j ∈ js, j.reset = false) :
    Seen total (run Scope.step x js) (collect Scope.step Scope.edge x js) := by
  induction js using List.reverseRecOn with
  | nil => exact h
  | append_singleton js j ih =>
    rw [run_concat, collect_concat]
    exact seen_step hn (ih fun k hk => hjs k (List.mem_append_left _ hk))
      (hjs j (List.mem_append_right _ (List.mem_singleton_self j)))

/-- A list of ones and then a zero determines how many ones there are. -/
theorem eq_of_first_zero {es ps fs : List Edge} {e z : Edge} (heq : es ++ [e] <+: ps ++ z :: fs)
    (hes : ∀ e ∈ es, e.line = true) (he : e.line = false) (hps : ∀ e ∈ ps, e.line = true)
    (hz : z.line = false) : es = ps := by
  induction es generalizing ps with
  | nil =>
    cases ps with
    | nil => rfl
    | cons p ps =>
      rw [List.nil_append, List.cons_append, List.cons_prefix_cons] at heq
      have hp := hps p (List.mem_cons_self ..)
      rw [← heq.1, he] at hp
      cases hp
  | cons d es ih =>
    cases ps with
    | nil =>
      rw [List.cons_append, List.nil_append, List.cons_prefix_cons] at heq
      have hd := hes d (List.mem_cons_self ..)
      rw [heq.1, hz] at hd
      cases hd
    | cons p ps =>
      rw [List.cons_append, List.cons_append, List.cons_prefix_cons] at heq
      rw [heq.1, ih heq.2 (fun e he => hes e (List.mem_cons_of_mem _ he))
        fun e he => hps e (List.mem_cons_of_mem _ he)]

/-! ## How long it is -/

section Acceptance

variable {s : State (counterBits n)}

/-- The ones that an operation shows, in terms of the state in which it is accepted. -/
theorem due_accepted (hn : Fits n) (hs : Sound s) (hreset : i.reset = false)
    (haccepts : accepts s i = true) :
    32 ≤ due (Scope.step ⟨mdcOut s, s⟩ i) ↔
      ¬(phase s = n / 2 ∧ s.bitCounter ≠ 0 ∧ s.bitCounter ≠ 31) := by
  have h6 := hn.six_le
  have hidle := fsmState_accepted hreset haccepts
  have hphase := phase_step hn hs.phase_le hreset
  by_cases hhalf : phase s = n / 2
  · have hnext : phase (step s i) = n / 2 + 1 := by
      rw [hphase, hhalf, if_neg (by omega)]
    have hbit : nextBit (step s i) = s.bitCounter - 1 := by
      obtain ⟨hstate, hprog⟩ := idle_of_accepts haccepts
      have hrising : s.mdcRising = false := by simp [hs.mdcRising, hhalf]
      simp [nextBit, step, hreset, hrising, loadBitCounterComb, hstate, hprog]
    have hdue : due (Scope.step ⟨mdcOut s, s⟩ i) = (s.bitCounter - 1).toNat + 2 := by
      rw [Watched.due_tick hnext, ones, Scope.step_circuit, hidle, hnext, hbit]
      simp
    have hcount : ∀ b : BitVec 5, 32 ≤ (b - 1).toNat + 2 ↔ ¬(b ≠ 0 ∧ b ≠ 31) := by decide
    rw [hdue, hcount]
    simp [hhalf]
  · have hnext : phase (step s i) ≠ n / 2 + 1 := by
      rw [hphase]
      split <;> omega
    have hones : ones (step s i) = 33 := by simp [ones, hidle, hnext]
    rw [due, Scope.step_circuit, hones]
    simp [hhalf]
    omega

/-- With a request, at least 32 edges see the line at `1` before the first that sees it at `0`. -/
def FullPreamble (s : State (counterBits n)) (i : Inputs) : Prop :=
  ∀ js, (∀ j ∈ js, j.reset = false) → ∀ es e, es ++ [e] <+: edges s (i :: js) →
    (∀ e' ∈ es, e'.line = true) → e.line = false → 32 ≤ es.length

theorem fullPreamble_iff_due (hn : Fits n) (hs : Sound s) (hreset : i.reset = false)
    (haccepts : accepts s i = true) :
    FullPreamble s i ↔ 32 ≤ due (Scope.step ⟨mdcOut s, s⟩ i) := by
  have hx := watched_accepted hn hs hreset haccepts
  have hshown := shown_accepted hreset haccepts
  constructor
  · intro h
    -- a run to the end of the operation shows its frame
    obtain ⟨ps, fs, heq, hstands⟩ := stands_run hn (.inl ⟨hx, hshown, Nat.zero_add _⟩)
      ((always_proj (π := Scope.circuit) (fun _ _ => rfl) _ _).mpr
        (always_quiet (left (Scope.step ⟨mdcOut s, s⟩ i).circuit)))
    rw [List.length_replicate] at hstands
    obtain ⟨hline, hlength, hframe⟩ := hstands.whole hn (Nat.sub_le _ _)
    cases fs with
    | nil => cases hframe
    | cons z fs =>
      rw [← List.append_nil (List.map _ _)] at hframe
      rw [← hlength]
      have hpre := List.prefix_append (ps ++ [z]) fs
      rw [List.append_assoc, List.singleton_append, ← heq, ← edges_cons] at hpre
      exact h _ (by simp [quiet]) ps z hpre hline (line_head hframe)
  · intro h js hjs es e hpre hes he
    rw [edges_cons] at hpre
    rcases seen_run hn (.inl ⟨_, hx, hshown⟩) hjs with
      ⟨_, -, hshown'⟩ | ⟨ps, z, fs, heq, hps, hz, hlength⟩
    · -- only ones have been seen
      have hone := hshown'.line e (hpre.subset (by simp))
      rw [he] at hone
      cases hone
    · rw [heq] at hpre
      rw [eq_of_first_zero hpre hes he hps hz, hlength]
      exact h

end Acceptance

/-- **When the preamble is full.** An operation that is accepted in a reachable state has a full
preamble unless the counter of the divider is then at half the period and the bit counter neither at
`0` nor at `31`. -/
theorem fullPreamble_iff (hn : Fits n) {s₀ : State (counterBits n)} (hs₀ : PowerUp s₀)
    (hs : List Inputs) {i : Inputs} (hreset : i.reset = false)
    (haccepts : accepts (run step s₀ hs) i = true) :
    FullPreamble (run step s₀ hs) i ↔
      ¬((run step s₀ hs).clkDivCounter = clkDivCountHalfU n ∧
        (run step s₀ hs).bitCounter ≠ 0 ∧ (run step s₀ hs).bitCounter ≠ 31) := by
  have hsound := sound_run hn hs₀ hs
  have hhalf := hn.halfReached (s := run step s₀ hs)
  rw [halfReached_iff (by have := hn.four_le; omega), decide_eq_decide] at hhalf
  rw [fullPreamble_iff_due hn hsound hreset haccepts, due_accepted hn hsound hreset haccepts, hhalf]

/-- A request at power-up. -/
theorem fullPreamble_initial :
    FullPreamble (initial (counterBits 6)) { quiet with sendMsgIn := true } :=
  (fullPreamble_iff (n := 6) (i := { quiet with sendMsgIn := true }) ⟨by decide, by decide⟩
    (powerUp_initial _) [] rfl rfl).mpr (by decide)

/-- A request after 17 cycles, in the third period of the divided clock: the counter is at `30`. -/
theorem not_fullPreamble :
    ¬∀ n : ℕ, Fits n → ∀ s₀ : State (counterBits n), PowerUp s₀ → ∀ (hs : List Inputs) (i : Inputs),
      i.reset = false → accepts (run step s₀ hs) i = true → FullPreamble (run step s₀ hs) i := by
  intro h
  have hn : Fits 6 := ⟨by decide, by decide⟩
  have hfull := h 6 hn (initial _) (powerUp_initial _) (List.replicate 17 quiet)
    { quiet with sendMsgIn := true } rfl (by decide)
  rw [fullPreamble_iff_due hn (sound_run hn (powerUp_initial _) _) rfl (by decide),
    due_accepted hn (sound_run hn (powerUp_initial _) _) rfl (by decide)] at hfull
  exact hfull (by decide)

end RmiiEthernet.Mdio
