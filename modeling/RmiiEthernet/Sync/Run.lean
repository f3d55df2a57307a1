import Mathlib.Data.List.Infix

/-!
# Runs of synchronous machines

A synchronous circuit is a step function `S → I → S`, one clock edge a step. What it does to
its surroundings is read off cycle by cycle by an observation `S → I → List B`: the beats it
accepts, the beats it shows, the events it starts.

* `run` is the state after a list of inputs, `collect` what an observation reads off the whole
  list, `Always` says that a condition holds at every cycle.
* A transducer, the abstract meaning of a stream component, is the same thing over the beats of
  a stream instead of the cycles of a clock; `collect` is its output.
* `exists_pending` is the rule every stream component is proved with. A relation ties the state
  to the transducer's state and to the list of beats the circuit still owes; if one cycle
  conserves what is owed, what the transducer makes of all the accepted beats is what the
  circuit has shown, followed by what it still owes.
-/

namespace RmiiEthernet.Sync

variable {S I A B G : Type*}

/-- The state after a list of inputs. -/
def run (step : S → I → S) (s : S) (is : List I) : S := is.foldl step s

/-- What the observation `obs` reads off a run, cycle by cycle. -/
def collect (step : S → I → S) (obs : S → I → List B) : S → List I → List B
  | _, [] => []
  | s, i :: is => obs s i ++ collect step obs (step s i) is

/-- `ok` holds at every cycle of a run. -/
def Always (step : S → I → S) (ok : S → I → Prop) : S → List I → Prop
  | _, [] => True
  | s, i :: is => ok s i ∧ Always step ok (step s i) is

instance Always.decidable (step : S → I → S) (ok : S → I → Prop) [∀ s i, Decidable (ok s i)] :
    ∀ s is, Decidable (Always step ok s is)
  | _, [] => inferInstanceAs (Decidable True)
  | s, i :: is =>
    have := Always.decidable step ok (step s i) is
    inferInstanceAs (Decidable (ok s i ∧ Always step ok (step s i) is))

variable {step : S → I → S} {ok ok' : S → I → Prop} {obs : S → I → List B}

@[simp] theorem run_nil (s : S) : run step s [] = s := rfl

@[simp] theorem run_cons (s : S) (i : I) (is : List I) :
    run step s (i :: is) = run step (step s i) is := rfl

@[simp] theorem collect_nil (s : S) : collect step obs s [] = [] := rfl

@[simp] theorem collect_cons (s : S) (i : I) (is : List I) :
    collect step obs s (i :: is) = obs s i ++ collect step obs (step s i) is := rfl

@[simp] theorem always_nil (s : S) : Always step ok s [] ↔ True := Iff.rfl

@[simp] theorem always_cons (s : S) (i : I) (is : List I) :
    Always step ok s (i :: is) ↔ ok s i ∧ Always step ok (step s i) is := Iff.rfl

theorem run_append (s : S) (is js : List I) :
    run step s (is ++ js) = run step (run step s is) js := List.foldl_append

theorem collect_append (s : S) (is js : List I) :
    collect step obs s (is ++ js) =
      collect step obs s is ++ collect step obs (run step s is) js := by
  induction is generalizing s with
  | nil => rfl
  | cons i is ih => simp [ih]

theorem run_concat (s : S) (is : List I) (i : I) :
    run step s (is ++ [i]) = step (run step s is) i := by
  rw [run_append, run_cons, run_nil]

theorem collect_concat (s : S) (is : List I) (i : I) :
    collect step obs s (is ++ [i]) = collect step obs s is ++ obs (run step s is) i := by
  rw [collect_append, collect_cons, collect_nil, List.append_nil]

/-- What holds at every cycle of a run with one more cycle. -/
theorem forall_prefix_concat_iff {P : List I → I → Prop} {is : List I} {i : I} :
    (∀ js j, js ++ [j] <+: is ++ [i] → P js j) ↔ (∀ js j, js ++ [j] <+: is → P js j) ∧ P is i := by
  constructor
  · intro h
    exact ⟨fun js j hjs => h js j (hjs.trans (List.prefix_append _ _)), h is i (List.prefix_refl _)⟩
  · rintro ⟨h, hi⟩ js j hjs
    rcases List.prefix_concat_iff.mp hjs with heq | hpre
    · obtain ⟨rfl, rfl⟩ := List.append_singleton_inj.mp heq
      exact hi
    · exact h js j hpre

theorem always_append (s : S) (is js : List I) :
    Always step ok s (is ++ js) ↔ Always step ok s is ∧ Always step ok (run step s is) js := by
  induction is generalizing s with
  | nil => simp
  | cons i is ih => simp [ih, and_assoc]

theorem Always.mono (h : ∀ s i, ok s i → ok' s i) {s : S} {is : List I}
    (hs : Always step ok s is) : Always step ok' s is := by
  induction is generalizing s with
  | nil => trivial
  | cons i is ih => exact ⟨h s i hs.1, ih hs.2⟩

theorem Always.and {s : S} {is : List I} (h : Always step ok s is) (h' : Always step ok' s is) :
    Always step (fun s i => ok s i ∧ ok' s i) s is := by
  induction is generalizing s with
  | nil => trivial
  | cons i is ih => exact ⟨⟨h.1, h'.1⟩, ih h.2 h'.2⟩

theorem always_of_forall {P : I → Prop} {is : List I} (h : ∀ i ∈ is, P i) (s : S) :
    Always step (fun _ i => P i) s is := by
  induction is generalizing s with
  | nil => trivial
  | cons i is ih => exact ⟨h i (by simp), ih (fun j hj => h j (by simp [hj])) _⟩

/-- What holds at each cycle of a run, wherever the run is cut. -/
theorem always_of_forall_split {s : S} {is : List I}
    (h : ∀ js i ks, is = js ++ i :: ks → ok (run step s js) i) : Always step ok s is := by
  induction is generalizing s with
  | nil => trivial
  | cons i is ih =>
    exact ⟨h [] i is rfl, ih fun js j ks hjs => h (i :: js) j ks (by rw [hjs]; rfl)⟩

theorem always_iff_forall_split {s : S} {is : List I} :
    Always step ok s is ↔ ∀ js i ks, is = js ++ i :: ks → ok (run step s js) i := by
  refine ⟨fun h js i ks hsplit => ?_, always_of_forall_split⟩
  rw [hsplit] at h
  exact ((always_append _ _ _).mp h).2.1

theorem always_congr_of_split {s : S} {is : List I}
    (h : ∀ js i ks, is = js ++ i :: ks → (ok (run step s js) i ↔ ok' (run step s js) i)) :
    Always step ok s is ↔ Always step ok' s is := by
  rw [always_iff_forall_split, always_iff_forall_split]
  exact forall₃_congr fun js i ks => forall_congr' (h js i ks)

/-- What is read off a run is read off one of its cycles. -/
theorem mem_collect_iff {s : S} {is : List I} {b : B} :
    b ∈ collect step obs s is ↔ ∃ js i ks, is = js ++ i :: ks ∧ b ∈ obs (run step s js) i := by
  induction is generalizing s with
  | nil => simp
  | cons i is ih =>
    rw [collect_cons, List.mem_append, ih]
    constructor
    · rintro (hb | ⟨js, j, ks, rfl, hb⟩)
      · exact ⟨[], i, is, rfl, hb⟩
      · exact ⟨i :: js, j, ks, rfl, hb⟩
    · rintro ⟨js, j, ks, heq, hb⟩
      cases js with
      | nil =>
        obtain ⟨rfl, rfl⟩ := List.cons.inj heq
        exact .inl hb
      | cons k js =>
        obtain ⟨rfl, rfl⟩ := List.cons.inj heq
        exact .inr ⟨js, j, ks, rfl, hb⟩

theorem forall_mem_collect_iff {P : B → Prop} {s : S} {is : List I} :
    (∀ b ∈ collect step obs s is, P b) ↔ Always step (fun s i => ∀ b ∈ obs s i, P b) s is := by
  induction is generalizing s with
  | nil => simp
  | cons i is ih => rw [collect_cons, List.forall_mem_append, ih, always_cons]

/-- A cycle of a run that is not one of the first is one of the last. -/
theorem mem_of_append_eq {as bs js ks : List I} {i : I} (h : js ++ ks = as ++ i :: bs)
    (hle : js.length ≤ as.length) : i ∈ ks := by
  obtain ⟨cs, rfl⟩ := List.prefix_of_prefix_length_le ⟨ks, h⟩ (List.prefix_append as (i :: bs)) hle
  rw [List.append_assoc, List.append_cancel_left_eq] at h
  simp [h]

/-- A longer input list shows at least as much. -/
theorem collect_prefix (s : S) {is js : List I} (h : is <+: js) :
    collect step obs s is <+: collect step obs s js := by
  obtain ⟨ks, rfl⟩ := h
  rw [collect_append]
  exact List.prefix_append _ _

theorem collect_eq_nil_iff_always (h : ∀ s i, obs s i = [] ↔ ok s i) (s : S)
    (is : List I) : collect step obs s is = [] ↔ Always step ok s is := by
  induction is generalizing s with
  | nil => simp
  | cons i is ih => rw [collect_cons, List.append_eq_nil_iff, always_cons, h, ih]

@[simp] theorem collect_singleton (g : G) (as : List A) :
    collect (fun g _ => g) (fun _ a => [a]) g as = as := by
  induction as with
  | nil => rfl
  | cons a as ih => simp [ih]

theorem collect_flatMap {C : Type*} (f : B → List C) (s : S) (is : List I) :
    collect step (fun s i => (obs s i).flatMap f) s is = (collect step obs s is).flatMap f := by
  induction is generalizing s with
  | nil => rfl
  | cons i is ih => simp [ih]

/-! ## A machine inside a larger one -/

section Projection

variable {T : Type*} {π : T → S} {step' : T → I → T}

theorem run_proj (hπ : ∀ x i, π (step' x i) = step (π x) i) (x : T) (is : List I) :
    π (run step' x is) = run step (π x) is := by
  induction is generalizing x with
  | nil => rfl
  | cons i is ih => rw [run_cons, ih, hπ, run_cons]

theorem collect_proj (hπ : ∀ x i, π (step' x i) = step (π x) i) (x : T) (is : List I) :
    collect step' (fun x i => obs (π x) i) x is = collect step obs (π x) is := by
  induction is generalizing x with
  | nil => rfl
  | cons i is ih => rw [collect_cons, ih, hπ, collect_cons]

theorem always_proj (hπ : ∀ x i, π (step' x i) = step (π x) i) (x : T) (is : List I) :
    Always step' (fun x i => ok (π x) i) x is ↔ Always step ok (π x) is := by
  induction is generalizing x with
  | nil => rfl
  | cons i is ih => rw [always_cons, ih, hπ, always_cons]

end Projection

/-! ## A component of a circuit

A machine that is wired into a circuit gets inputs `inp x j` that depend on the whole circuit. What
it does in a run of the circuit is what it does alone on the list of these inputs. -/

section Component

variable {T J : Type*} {π : T → S} {step' : T → J → T} {inp : T → J → I}

/-- The inputs of a component in a run. -/
def inputs (step' : T → J → T) (inp : T → J → I) : T → List J → List I :=
  collect step' fun x j => [inp x j]

theorem inputs_cons (x : T) (j : J) (js : List J) :
    inputs step' inp x (j :: js) = inp x j :: inputs step' inp (step' x j) js := rfl

theorem length_inputs (x : T) (js : List J) : (inputs step' inp x js).length = js.length := by
  induction js generalizing x with
  | nil => rfl
  | cons j js ih => rw [inputs_cons, List.length_cons, List.length_cons, ih]

theorem run_component (hπ : ∀ x j, π (step' x j) = step (π x) (inp x j)) (x : T) (js : List J) :
    run step (π x) (inputs step' inp x js) = π (run step' x js) := by
  induction js generalizing x with
  | nil => rfl
  | cons j js ih => rw [inputs_cons, run_cons, ← hπ, ih, run_cons]

theorem collect_component (hπ : ∀ x j, π (step' x j) = step (π x) (inp x j)) (x : T)
    (js : List J) :
    collect step obs (π x) (inputs step' inp x js) =
      collect step' (fun x j => obs (π x) (inp x j)) x js := by
  induction js generalizing x with
  | nil => rfl
  | cons j js ih => rw [inputs_cons, collect_cons, ← hπ, ih, collect_cons]

theorem always_component (hπ : ∀ x j, π (step' x j) = step (π x) (inp x j)) (x : T)
    (js : List J) :
    Always step ok (π x) (inputs step' inp x js) ↔
      Always step' (fun x j => ok (π x) (inp x j)) x js := by
  induction js generalizing x with
  | nil => rfl
  | cons j js ih => rw [inputs_cons, always_cons, ← hπ, ih, always_cons]

theorem inputs_append (x : T) (js ks : List J) :
    inputs step' inp x (js ++ ks) =
      inputs step' inp x js ++ inputs step' inp (run step' x js) ks := collect_append _ _ _

/-- A cycle of the component is a cycle of the circuit. -/
theorem exists_of_inputs_eq {x : T} {js : List J} {as bs : List I} {i : I}
    (h : inputs step' inp x js = as ++ i :: bs) :
    ∃ ks j ls, js = ks ++ j :: ls ∧ as = inputs step' inp x ks ∧ i = inp (run step' x ks) j ∧
      bs = inputs step' inp (step' (run step' x ks) j) ls := by
  induction as generalizing x js with
  | nil =>
    cases js with
    | nil => cases h
    | cons j js =>
      rw [inputs_cons, List.nil_append, List.cons.injEq] at h
      exact ⟨[], j, js, rfl, rfl, h.1.symm, h.2.symm⟩
  | cons a as ih =>
    cases js with
    | nil => cases h
    | cons k js =>
      rw [inputs_cons, List.cons_append, List.cons.injEq] at h
      obtain ⟨ks, j, ls, rfl, rfl, hi, hbs⟩ := ih h.2
      exact ⟨k :: ks, j, ls, rfl, by rw [inputs_cons, h.1], hi, hbs⟩

theorem exists_of_mem_inputs {x : T} {js : List J} {i : I} (h : i ∈ inputs step' inp x js) :
    ∃ ks j ls, js = ks ++ j :: ls ∧ i = inp (run step' x ks) j := by
  obtain ⟨as, bs, hsplit⟩ := List.append_of_mem h
  obtain ⟨ks, j, ls, hjs, -, hi, -⟩ := exists_of_inputs_eq hsplit
  exact ⟨ks, j, ls, hjs, hi⟩

theorem countP_inputs {P : I → Bool} {Q : J → Bool} (h : ∀ x j, P (inp x j) = Q j) (x : T)
    (js : List J) : (inputs step' inp x js).countP P = js.countP Q := by
  induction js generalizing x with
  | nil => rfl
  | cons j js ih => rw [inputs_cons, List.countP_cons, List.countP_cons, ih, h]

end Component

/-- A list with `a + b` cycles of a kind has a first part with `a` of them and a second with `b`. -/
theorem exists_append_countP {f : I → Bool} {a b : ℕ} {is : List I} (h : a + b ≤ is.countP f) :
    ∃ js ks, is = js ++ ks ∧ a ≤ js.countP f ∧ b ≤ ks.countP f := by
  induction is generalizing a with
  | nil => exact ⟨[], [], rfl, by simp at h; simp [h], by simp at h; simp [h]⟩
  | cons i is ih =>
    cases a with
    | zero => exact ⟨[], i :: is, rfl, Nat.zero_le _, by omega⟩
    | succ a =>
      rw [List.countP_cons] at h
      split at h
      · next hi =>
        obtain ⟨js, ks, rfl, ha, hb⟩ := ih (a := a) (by omega)
        exact ⟨i :: js, ks, rfl, by rw [List.countP_cons, if_pos hi]; omega, hb⟩
      · obtain ⟨js, ks, rfl, ha, hb⟩ := ih (a := a + 1) (by omega)
        exact ⟨i :: js, ks, rfl, by rw [List.countP_cons]; omega, hb⟩

/-! ## Invariants along runs -/

/-- **The invariant rule.** What holds at the start and is kept by every step holds at the end
of every run. -/
theorem run_invariant {Inv : S → Prop} (hstep : ∀ s i, Inv s → ok s i → Inv (step s i))
    {s : S} {is : List I} (hs : Inv s) (h : Always step ok s is) : Inv (run step s is) := by
  induction is generalizing s with
  | nil => exact hs
  | cons i is ih => exact ih (hstep s i hs h.1) h.2

/-- What follows from an invariant at every cycle holds at every cycle. -/
theorem always_of_invariant {Inv : S → Prop}
    (hstep : ∀ s i, Inv s → ok s i → ok' s i ∧ Inv (step s i)) {s : S} {is : List I}
    (hs : Inv s) (h : Always step ok s is) : Always step ok' s is := by
  induction is generalizing s with
  | nil => trivial
  | cons i is ih =>
    obtain ⟨h₁, h₂⟩ := hstep s i hs h.1
    exact ⟨h₁, ih h₂ h.2⟩

/-- **The conservation rule.** `R s g p` ties a state to the transducer's state `g` and to the
beats `p` the circuit still owes. If every cycle turns what is owed and what the transducer
makes of the beats accepted in it into what the circuit shows and what it owes next, then so
does every run. -/
theorem exists_pending {acc : S → I → List A} {emit : S → I → List B} {tstep : G → A → G}
    {temit : G → A → List B} {R : S → G → List B → Prop}
    (hstep : ∀ s g p i, R s g p → ok s i → ∃ p', R (step s i) (run tstep g (acc s i)) p' ∧
      p ++ collect tstep temit g (acc s i) = emit s i ++ p')
    {s : S} {g : G} {p : List B} {is : List I} (hs : R s g p) (h : Always step ok s is) :
    ∃ p', R (run step s is) (run tstep g (collect step acc s is)) p' ∧
      p ++ collect tstep temit g (collect step acc s is) = collect step emit s is ++ p' := by
  induction is generalizing s g p with
  | nil => exact ⟨p, hs, by simp⟩
  | cons i is ih =>
    obtain ⟨p₁, h₁, e₁⟩ := hstep s g p i hs h.1
    obtain ⟨p₂, h₂, e₂⟩ := ih h₁ h.2
    refine ⟨p₂, by simpa [run_append] using h₂, ?_⟩
    rw [collect_cons, collect_append, ← List.append_assoc, e₁, List.append_assoc, e₂,
      collect_cons, List.append_assoc]

/-- **The unwinding rule.** If every cycle shows the first of the beats that are still to come, a
run has shown the first of them. -/
theorem exists_rest {emit : S → I → List B} {R : S → List B → Prop}
    (hstep : ∀ s p i, R s p → ok s i → ∃ p', R (step s i) p' ∧ p = emit s i ++ p')
    {s : S} {p : List B} {is : List I} (hs : R s p) (h : Always step ok s is) :
    ∃ p', R (run step s is) p' ∧ p = collect step emit s is ++ p' := by
  induction is generalizing s p with
  | nil => exact ⟨p, hs, rfl⟩
  | cons i is ih =>
    obtain ⟨p₁, h₁, rfl⟩ := hstep s p i hs h.1
    obtain ⟨p₂, h₂, rfl⟩ := ih h₁ h.2
    exact ⟨p₂, h₂, (List.append_assoc _ _ _).symm⟩

end RmiiEthernet.Sync
