import RmiiEthernet.Rmii.Link

/-!
# The length of the preamble

`rmii_mac_rx` makes bytes of four di-bits from the first di-bit 01 on, and looks for the delimiter
among these bytes. A preamble of `p` nibbles and the delimiter begin with `2 * p + 3` di-bits 01, so
the delimiter is one of the bytes exactly if `p` is even (`shown_preamble_iff`). With one nibble
more the bytes straddle those of the packet, and the end of the carrier comes inside of one.
-/

namespace RmiiEthernet.RmiiMacRx

open Sync EthernetFcs RmiiMacTx RmiiLink

/-- The di-bits of a packet `q`: some 00, a preamble of `p` nibbles, the delimiter, the bytes. -/
def preambled (z p : ℕ) (q : List Byte) : List DiBit :=
  List.replicate z 0 ++ (List.replicate (2 * p + 3) 1 ++ 3 :: q.flatMap diBits)

namespace Decoder

variable {f : FsmState} {l : List DiBit}

/-- Di-bits 00 do not align the receiver. -/
theorem collect_zeros (z : ℕ) (hl : l ≠ []) :
    collect Decoder.step Decoder.emit ⟨none, f⟩ (beats (List.replicate z 0 ++ l)) =
      collect Decoder.step Decoder.emit ⟨none, f⟩ (beats l) := by
  induction z with
  | zero => rfl
  | succ z ih =>
    have hne : (List.replicate z 0 ++ l).isEmpty = false := by simp [hl]
    rw [List.replicate_succ, List.cons_append, beats_cons, hne, collect_cons]
    have hstep : Decoder.step ⟨none, f⟩ (0, false) = ⟨none, f⟩ := by cases f <;> rfl
    have hemit : Decoder.emit ⟨none, f⟩ (0, false) = [] := by cases f <;> rfl
    rw [hstep, hemit, ih, List.nil_append]

/-- The first di-bit 01 begins a byte. -/
theorem collect_one (b : List (DiBit × Bool)) :
    collect Decoder.step Decoder.emit ⟨none, f⟩ ((1, false) :: b) =
      collect Decoder.step Decoder.emit ⟨some [], f⟩ ((1, false) :: b) := by
  cases f <;> rfl

/-- Bytes of the preamble are passed over. -/
theorem collect_ones (k : ℕ) (hl : l ≠ []) :
    collect Decoder.step Decoder.emit ⟨some [], .waitForSfd⟩
        (beats (List.replicate (4 * k) 1 ++ l)) =
      collect Decoder.step Decoder.emit ⟨some [], .waitForSfd⟩ (beats l) := by
  induction k with
  | zero => rfl
  | succ k ih =>
    have hfour : List.replicate (4 * (k + 1)) (1 : DiBit) ++ l =
        1 :: 1 :: 1 :: 1 :: (List.replicate (4 * k) 1 ++ l) := rfl
    have hne : (List.replicate (4 * k) (1 : DiBit) ++ l).isEmpty = false := by simp [hl]
    rw [hfour, beats_four, hne, collect_append, run_four, collect_four]
    exact ih

theorem collect_short (hl : l.length < 4) :
    collect Decoder.step Decoder.emit ⟨some [], f⟩ (beats l) = [] := by
  match l with
  | [] => rfl
  | [a] => cases f <;> rfl
  | [a, b] => cases f <;> rfl
  | [a, b, c] => cases f <;> rfl
  | a :: b :: c :: d :: l =>
    simp only [List.length_cons] at hl
    omega

/-- If the carrier ends inside a byte, no byte is marked as the last one. -/
theorem snd_of_mem_collect (hl : l.length % 4 ≠ 0) {b : Byte × Bool}
    (hb : b ∈ collect Decoder.step Decoder.emit ⟨some [], f⟩ (beats l)) : b.2 = false := by
  fun_induction completeBytes l generalizing f with
  | case1 a b c d l ih =>
    rw [List.length_cons, List.length_cons, List.length_cons, List.length_cons] at hl
    have hne : l.isEmpty = false := by
      cases l with
      | nil => simp at hl
      | cons e l => rfl
    rw [beats_four, hne, collect_append, run_four, collect_four] at hb
    rcases List.mem_append.mp hb with hb | hb
    · split at hb <;> simp at hb
      rw [hb]
    · exact ih (by omega) hb
  | case2 l hshort =>
    rw [collect_short (length_lt_four hshort)] at hb
    simp at hb

/-- From the first di-bit 01 on. -/
theorem collect_preambled (z p : ℕ) (q : List Byte) :
    collect Decoder.step Decoder.emit ⟨none, .waitForSfd⟩ (beats (preambled z p q)) =
      collect Decoder.step Decoder.emit ⟨some [], .waitForSfd⟩
        (beats (List.replicate (2 * p + 3) 1 ++ 3 :: q.flatMap diBits)) := by
  have hone : List.replicate (2 * p + 3) (1 : DiBit) ++ 3 :: q.flatMap diBits =
      1 :: (List.replicate (2 * p + 2) 1 ++ 3 :: q.flatMap diBits) := rfl
  have hne : (List.replicate (2 * p + 2) (1 : DiBit) ++ 3 :: q.flatMap diBits).isEmpty = false := by
    simp
  rw [preambled, collect_zeros z (by simp), hone, beats_cons, hne, collect_one]

/-- With a preamble of whole bytes the delimiter is found. -/
theorem collect_preambled_even (z k : ℕ) {q : List Byte} (hq : q ≠ []) :
    collect Decoder.step Decoder.emit ⟨none, .waitForSfd⟩ (beats (preambled z (2 * k) q)) =
      beats q := by
  have hsplit : List.replicate (2 * (2 * k) + 3) (1 : DiBit) ++ 3 :: q.flatMap diBits =
      List.replicate (4 * k) 1 ++ (1 :: 1 :: 1 :: 3 :: q.flatMap diBits) := by
    rw [show 2 * (2 * k) + 3 = 4 * k + 3 by omega, List.replicate_add, List.append_assoc]
    rfl
  have hne : (q.flatMap diBits).isEmpty = false := by
    obtain ⟨b, q, rfl⟩ := List.exists_cons_of_ne_nil hq
    rfl
  rw [collect_preambled, hsplit, collect_ones k (by simp), beats_four, hne, collect_append,
    run_four, collect_four]
  exact (decode_data hq).1

/-- With half a byte more the carrier ends inside a byte. -/
theorem collect_preambled_odd (z k : ℕ) (q : List Byte) {b : Byte × Bool}
    (hb : b ∈ collect Decoder.step Decoder.emit ⟨none, .waitForSfd⟩
      (beats (preambled z (2 * k + 1) q))) : b.2 = false := by
  have hlen := length_flatMap_diBits q
  rw [collect_preambled] at hb
  refine snd_of_mem_collect ?_ hb
  rw [List.length_append, List.length_replicate, List.length_cons, hlen]
  omega

end Decoder

section Runs

variable {s : State} {q : List Byte} {gap : List DiBit}

/-- **When the delimiter is found**: from an idle receiver, exactly the bytes of the packet are
shown, the last one marked, if and only if the number of preamble nibbles is even. -/
theorem shown_preamble_iff (hs : Silent s) (hwait : s.fsmState = .waitForSfd) (z p : ℕ)
    (hq : q ≠ []) (hgap : 4 ≤ gap.length) :
    collect step shown s (carrier (List.replicate z 0 ++ (List.replicate (2 * p + 3) 1 ++
      3 :: q.flatMap diBits)) ++ quiet gap) = beats q ↔ p % 2 = 0 := by
  have hshown := (hs.run_carrier (preambled z p q) hgap).2.2
  rw [preambled, hwait] at hshown
  rw [hshown]
  rcases Nat.even_or_odd' p with ⟨k, rfl | rfl⟩
  · exact iff_of_true (Decoder.collect_preambled_even z k hq) (by omega)
  · refine iff_of_false (fun h => ?_) (by omega)
    obtain ⟨r, b, rfl⟩ : ∃ r b, q = r ++ [b] := ⟨_, _, (List.dropLast_append_getLast hq).symm⟩
    have hlast : (b, true) ∈ beats (r ++ [b]) := by
      rw [beats_concat]
      simp
    rw [← h] at hlast
    have := Decoder.collect_preambled_odd z k _ hlast
    simp at this

/-- A preamble of four nibbles behind two di-bits 00. -/
theorem shown_preamble_four :
    collect step shown cleared (carrier (List.replicate 2 0 ++ (List.replicate 11 1 ++
      3 :: [0x12, 0x34].flatMap diBits)) ++ quiet [0, 0, 0, 0]) = beats [0x12, 0x34] :=
  (shown_preamble_iff (silent_afterReset afterReset_cleared).1
    (silent_afterReset afterReset_cleared).2 2 4 (by decide) (by decide)).mpr rfl

/-- Without the end of the carrier in a byte: a preamble of one nibble and the byte 12. -/
theorem not_shown_preamble :
    ¬ ∀ (s : State) (z p : ℕ) (q : List Byte) (gap : List DiBit), Silent s →
      s.fsmState = .waitForSfd → q ≠ [] → 4 ≤ gap.length →
      collect step shown s (carrier (List.replicate z 0 ++ (List.replicate (2 * p + 3) 1 ++
        3 :: q.flatMap diBits)) ++ quiet gap) = beats q := by
  intro h
  obtain ⟨hsilent, hwait⟩ := silent_afterReset afterReset_cleared
  have hshown := h cleared 0 1 [0x12] [0, 0, 0, 0] hsilent hwait (by decide) (by decide)
  revert hshown
  decide

end Runs

end RmiiEthernet.RmiiMacRx
