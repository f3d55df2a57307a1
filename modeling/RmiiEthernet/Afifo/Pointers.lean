import RmiiEthernet.Afifo.Circuit
import RmiiEthernet.Sync.Ring

/-!
# The pointers of the asynchronous FIFO

Each side of `afifo` knows the pointer of the other by its Gray code alone. The tests it makes on
the codes are exact at every width: `WriteLogic.fullSig_iff` for the whole memory between two
pointers, `ReadLogic.emptyR_iff` for none of it. In every run a pointer register turns over at most
one bit at an edge of its clock (`pointers_adjacent`), so that a flop of the other clock that meets
the edge takes the old code or the new one.
-/

namespace RmiiEthernet.Afifo

open Sync

variable {A : ℕ}

/-! ## The tests -/

theorem WriteLogic.fullSig_iff (hA : 1 ≤ A) (l : WriteLogic A) (en : Bool) (r : BitVec (A + 1)) :
    l.fullSig en (gray r) = true ↔ (l.writeAddrNext en - r).toNat = 2 ^ A := by
  obtain ⟨w, rfl⟩ : ∃ w, A = w + 1 := ⟨A - 1, by omega⟩
  rw [← ptr_sub_iff, ← gray_full_iff]
  simp only [WriteLogic.fullSig, WriteLogic.writePointerNext, Bool.and_eq_true, bne_iff_ne,
    beq_iff_eq, Nat.add_sub_cancel, and_assoc]
  exact Iff.rfl

theorem ReadLogic.emptyR_iff (l : ReadLogic A) (en : Bool) (w : BitVec (A + 1)) :
    (l.step en false (gray w)).emptyR = true ↔ l.readAddrNext en = w := by
  rw [ReadLogic.step, Bool.false_or, beq_iff_eq, ReadLogic.readPointerNext, gray_inj]

/-! ## The registers -/

variable {α : Type*} {s : State A α}

/-- The pointer registers hold the codes of the address registers. -/
structure Coded (s : State A α) : Prop where
  write : s.writeLogic.writePointerR = gray s.writeLogic.writeAddrR
  read : s.readLogic.readPointerR = gray s.readLogic.readAddrR

theorem PowerUp.coded (h : PowerUp s) : Coded s := by
  constructor
  · simp [h.writeLogic, gray]
  · simp [h.readLogic, gray]

theorem WriteLogic.step_coded (l : WriteLogic A) (en : Bool) (p : BitVec (A + 1)) (reset : Bool) :
    (l.step en p reset).writePointerR = gray (l.step en p reset).writeAddrR := by
  cases reset
  · rfl
  · simp [WriteLogic.step, gray]

theorem ReadLogic.step_coded (l : ReadLogic A) (en reset : Bool) (p : BitVec (A + 1)) :
    (l.step en reset p).readPointerR = gray (l.step en reset p).readAddrR := by
  cases reset
  · rfl
  · simp [ReadLogic.step, gray]

theorem Coded.step [Zero α] (h : Coded s) (gFwft : Bool) (e : Edge α) :
    Coded (step gFwft s e) := by
  cases e with
  | wr reset writeEn d => exact ⟨WriteLogic.step_coded .., h.read⟩
  | rd readEn => exact ⟨h.write, ReadLogic.step_coded ..⟩

theorem WriteLogic.step_adjacent {l : WriteLogic A} (h : l.writePointerR = gray l.writeAddrR)
    (en : Bool) (p : BitVec (A + 1)) :
    Adjacent l.writePointerR (l.step en p false).writePointerR := by
  change Adjacent _ (gray (l.writeAddrNext en))
  rw [h, WriteLogic.writeAddrNext]
  split_ifs
  · exact adjacent_gray_add_one _
  · exact adjacent_refl _

theorem ReadLogic.step_adjacent {l : ReadLogic A} (h : l.readPointerR = gray l.readAddrR)
    (en : Bool) (p : BitVec (A + 1)) :
    Adjacent l.readPointerR (l.step en false p).readPointerR := by
  change Adjacent _ (gray (l.readAddrNext en))
  rw [h, ReadLogic.readAddrNext]
  split_ifs
  · exact adjacent_gray_add_one _
  · exact adjacent_refl _

theorem Coded.adjacent [Zero α] (h : Coded s) (gFwft : Bool) (e : Edge α) (he : NoReset s e)
    (hr : s.readReset = false) :
    Adjacent s.writeLogic.writePointerR (Afifo.step gFwft s e).writeLogic.writePointerR ∧
      Adjacent s.readLogic.readPointerR (Afifo.step gFwft s e).readLogic.readPointerR := by
  cases e with
  | wr reset writeEn d =>
    obtain rfl : reset = false := he
    exact ⟨WriteLogic.step_adjacent h.write _ _, adjacent_refl _⟩
  | rd readEn =>
    refine ⟨adjacent_refl _, ?_⟩
    rw [Afifo.step, State.rdStep, hr]
    exact ReadLogic.step_adjacent h.read _ _

/-- In every run, resets included, an edge outside a reset turns over at most one bit of each
pointer register. -/
theorem pointers_adjacent [Zero α] (gFwft : Bool) (h : PowerUp s) (es : List (Edge α)) :
    Always (Afifo.step gFwft) (fun s e => NoReset s e → s.readReset = false →
      Adjacent s.writeLogic.writePointerR (Afifo.step gFwft s e).writeLogic.writePointerR ∧
        Adjacent s.readLogic.readPointerR (Afifo.step gFwft s e).readLogic.readPointerR) s es :=
  always_of_invariant (fun _ e h _ => ⟨h.adjacent gFwft e, h.step gFwft e⟩) h.coded
    (always_of_forall (fun _ _ => trivial) s)

/-! ## The arithmetic -/

/-- The arithmetic on the pointers of a memory with `A` address bits. The codes of different counts
differ, those of a count and the next one in a single bit. The writer's test on the codes says that
the writer is a whole memory ahead of the reader, the reader's that it has caught up. -/
theorem pointer_codes_exact (hA : 2 ≤ A) :
    (∀ m n : BitVec (A + 1), gray m = gray n → m = n) ∧
      (∀ n : BitVec (A + 1), ∃! i, (gray n).getLsbD i ≠ (gray (n + 1)).getLsbD i) ∧
      (∀ (l : WriteLogic A) (writeEn : Bool) (r : BitVec (A + 1)),
        l.fullSig writeEn (gray r) = true ↔ (l.writeAddrNext writeEn - r).toNat = 2 ^ A) ∧
      ∀ (l : ReadLogic A) (readEn : Bool) (w : BitVec (A + 1)),
        (l.step readEn false (gray w)).emptyR = true ↔ l.readAddrNext readEn = w :=
  ⟨fun _ _ => gray_inj.mp, gray_add_one, WriteLogic.fullSig_iff (by omega), ReadLogic.emptyR_iff⟩

/-- The writer at count 2 is a whole memory of four rows ahead of the reader at count 6. -/
theorem pointer_codes_exact_two :
    (⟨false, 2, gray 2⟩ : WriteLogic 2).fullSig false (gray 6) = true ∧
      ((⟨false, 5, gray 5⟩ : ReadLogic 2).step true false (gray 6)).emptyR = true :=
  have h := pointer_codes_exact (A := 2) le_rfl
  ⟨(h.2.2.1 _ _ _).mpr rfl, (h.2.2.2 _ _ _).mpr rfl⟩

end RmiiEthernet.Afifo
