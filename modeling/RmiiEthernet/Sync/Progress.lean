import RmiiEthernet.Sync.Run

/-!
# Progress under fair schedules

A run that is scheduled from outside makes progress if each state that is not at its end has an
input that helps it on, and if this input comes. `Progress` bounds what is left to do by a number:
an input that helps makes it smaller, and one that does not change it takes no help away. A round
that contains help for every state therefore counts for one (`Progress.rounds`).
-/

namespace RmiiEthernet.Sync

variable {S I : Type*} {step : S → I → S} {ok : S → I → Prop} {Left : S → ℕ → Prop}
  {Helps : S → I → Prop} {s : S} {n : ℕ}

/-- `Left s n` says that `n` is left to do in the state `s`. An input that is allowed there makes it
less; or something is left, the input does not help, and it leaves the help that there is. -/
def Progress (step : S → I → S) (ok : S → I → Prop) (Left : S → ℕ → Prop)
    (Helps : S → I → Prop) : Prop :=
  ∀ s n i, Left s n → ok s i → ∃ m, Left (step s i) m ∧
    (m < n ∨ m = n ∧ (0 < n → ¬ Helps s i ∧ ∀ j, Helps s j → Helps (step s i) j))

namespace Progress

theorem run_le (h : Progress step ok Left Helps) (hs : Left s n) {is : List I}
    (hok : Always step ok s is) : ∃ m ≤ n, Left (run step s is) m := by
  induction is generalizing s n with
  | nil => exact ⟨n, le_rfl, hs⟩
  | cons i is ih =>
    obtain ⟨m, hm, hle⟩ := h s n i hs hok.1
    obtain ⟨l, hl, hleft⟩ := ih hm hok.2
    exact ⟨l, hl.trans (by omega), hleft⟩

/-- Help that comes is used, by this input or by one before it. -/
theorem run_lt (h : Progress step ok Left Helps) (hs : Left s n) (hpos : 0 < n) {is : List I}
    (hok : Always step ok s is) (hhelp : ∃ i ∈ is, Helps s i) :
    ∃ m < n, Left (run step s is) m := by
  induction is generalizing s n with
  | nil => simp at hhelp
  | cons i is ih =>
    obtain ⟨m, hm, hlt | ⟨rfl, hstays⟩⟩ := h s n i hs hok.1
    · obtain ⟨l, hl, hleft⟩ := h.run_le hm hok.2
      exact ⟨l, by omega, hleft⟩
    · obtain ⟨hnot, hkeeps⟩ := hstays hpos
      obtain ⟨j, hj, hhelps⟩ := hhelp
      refine ih hm hpos hok.2 ⟨j, (List.mem_cons.mp hj).resolve_left ?_, hkeeps j hhelps⟩
      rintro rfl
      exact hnot hhelps

/-- **Rounds.** If every state in which something is left finds help in every round, a round makes
what is left less by one at least. -/
theorem rounds (h : Progress step ok Left Helps) {rs : List (List I)}
    (hrs : ∀ r ∈ rs, ∀ s n, Left s n → 0 < n → ∃ i ∈ r, Helps s i) (hs : Left s n)
    (hok : Always step ok s rs.flatten) :
    ∃ m ≤ n - rs.length, Left (run step s rs.flatten) m := by
  induction rs generalizing s n with
  | nil => exact ⟨n, by simp, hs⟩
  | cons r rs ih =>
    obtain ⟨hr, hrest⟩ := (always_append _ _ _).mp hok
    rw [List.flatten_cons, run_append]
    have hround : ∃ m ≤ n - 1, Left (run step s r) m := by
      rcases Nat.eq_zero_or_pos n with rfl | hpos
      · exact h.run_le hs hr
      · obtain ⟨m, hm, hleft⟩ := h.run_lt hs hpos hr (hrs r (by simp) s n hs hpos)
        exact ⟨m, by omega, hleft⟩
    obtain ⟨m, hm, hleft⟩ := hround
    obtain ⟨l, hl, hend⟩ := ih (fun q hq => hrs q (by simp [hq])) hleft hrest
    exact ⟨l, by rw [List.length_cons]; omega, hend⟩

end Progress

end RmiiEthernet.Sync
