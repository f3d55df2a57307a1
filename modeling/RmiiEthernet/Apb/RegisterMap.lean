import RmiiEthernet.Sync.Run
import RmiiEthernet.Utils
import Mathlib.Logic.Function.Basic

/-!
# Transactions on a register map

What the host asks for and what it gets: words of four bytes, the least significant one first; a
read is one word with the top bit clear, a write one with the top bit set and the data. The low
eight bits of the first word select a register, those above them a slave.

There are `2 ^ S` slaves, and slave `j` has `2 ^ R j` registers.
-/

namespace RmiiEthernet.RegisterMap

open Sync Utils

/-- The word of four bytes. -/
def word (b₀ b₁ b₂ b₃ : BitVec 8) : BitVec 32 := b₃ ++ (b₂ ++ (b₁ ++ b₀))

/-- The bytes of a word in the order of transmission. -/
def bytesOf (w : BitVec 32) : List (BitVec 8) := [byteOf w 0, byteOf w 1, byteOf w 2, byteOf w 3]

theorem word_byteOf (w : BitVec 32) :
    word (byteOf w 0) (byteOf w 1) (byteOf w 2) (byteOf w 3) = w := by
  refine BitVec.eq_of_getLsbD_eq fun m hm => ?_
  refine (BitVec.getLsbD_append (n := 8) (m := 24)).trans ?_
  rw [BitVec.getLsbD_append, BitVec.getLsbD_append]
  split
  · split
    · split
      · next h => simpa using getLsbD_byteOf w 0 h
      · rw [getLsbD_byteOf w 1 (by omega)]
        congr 1
        simp
        omega
    · rw [getLsbD_byteOf w 2 (by omega)]
      congr 1
      simp
      omega
  · rw [getLsbD_byteOf w 3 (by omega)]
    congr 1
    simp
    omega

/-- What a host asks for. -/
inductive Transaction
  | read (addr : BitVec 32)
  | write (addr data : BitVec 32)
  deriving DecidableEq

/-! ## The host -/

/-- The transaction that the bytes make, if they make one. -/
def transaction? : List (BitVec 8) → Option Transaction
  | [a₀, a₁, a₂, a₃] =>
    if (word a₀ a₁ a₂ a₃).getLsbD 31 then none else some (.read (word a₀ a₁ a₂ a₃))
  | [a₀, a₁, a₂, a₃, d₀, d₁, d₂, d₃] => some (.write (word a₀ a₁ a₂ a₃) (word d₀ d₁ d₂ d₃))
  | _ => none

/-- The bytes of a transaction in progress, after one more. -/
def hostStep (g : List (BitVec 8)) (b : BitVec 8) : List (BitVec 8) :=
  match transaction? (g ++ [b]) with
  | some _ => []
  | none => g ++ [b]

/-- The transaction that a byte completes. -/
def hostEmit (g : List (BitVec 8)) (b : BitVec 8) : List Transaction :=
  (transaction? (g ++ [b])).toList

/-- The complete transactions. -/
def transactions (bs : List (BitVec 8)) : List Transaction := collect hostStep hostEmit [] bs

/-- The bytes behind them. -/
def openBytes (bs : List (BitVec 8)) : List (BitVec 8) := run hostStep [] bs

theorem bytesOf_word (b₀ b₁ b₂ b₃ : BitVec 8) : bytesOf (word b₀ b₁ b₂ b₃) = [b₀, b₁, b₂, b₃] := by
  have h₀ : byteOf (word b₀ b₁ b₂ b₃) 0 = b₀ :=
    calc (b₃ ++ (b₂ ++ (b₁ ++ b₀))).extractLsb' 0 8
      _ = (b₂ ++ (b₁ ++ b₀)).extractLsb' 0 8 := BitVec.extractLsb'_append_eq_of_add_le (by omega)
      _ = (b₁ ++ b₀).extractLsb' 0 8 := BitVec.extractLsb'_append_eq_of_add_le (by omega)
      _ = b₀ := BitVec.extractLsb'_append_eq_right
  have h₁ : byteOf (word b₀ b₁ b₂ b₃) 1 = b₁ :=
    calc (b₃ ++ (b₂ ++ (b₁ ++ b₀))).extractLsb' 8 8
      _ = (b₂ ++ (b₁ ++ b₀)).extractLsb' 8 8 := BitVec.extractLsb'_append_eq_of_add_le (by omega)
      _ = (b₁ ++ b₀).extractLsb' 8 8 := BitVec.extractLsb'_append_eq_of_add_le (by omega)
      _ = b₁ := BitVec.extractLsb'_append_eq_left
  have h₂ : byteOf (word b₀ b₁ b₂ b₃) 2 = b₂ :=
    calc (b₃ ++ (b₂ ++ (b₁ ++ b₀))).extractLsb' 16 8
      _ = (b₂ ++ (b₁ ++ b₀)).extractLsb' 16 8 := BitVec.extractLsb'_append_eq_of_add_le (by omega)
      _ = b₂ := BitVec.extractLsb'_append_eq_left
  have h₃ : byteOf (word b₀ b₁ b₂ b₃) 3 = b₃ :=
    BitVec.extractLsb'_append_eq_left (a := b₃) (b := b₂ ++ (b₁ ++ b₀))
  rw [bytesOf, h₀, h₁, h₂, h₃]

theorem host_of_some {g : List (BitVec 8)} {b : BitVec 8} {t : Transaction}
    (h : transaction? (g ++ [b]) = some t) : hostStep g b = [] ∧ hostEmit g b = [t] := by
  rw [hostStep, hostEmit, h]
  exact ⟨rfl, rfl⟩

theorem host_of_none {g : List (BitVec 8)} {b : BitVec 8} (h : transaction? (g ++ [b]) = none) :
    hostStep g b = g ++ [b] ∧ hostEmit g b = [] := by
  rw [hostStep, hostEmit, h]
  exact ⟨rfl, rfl⟩

/-- A byte of an address. -/
theorem host_address {d : List (BitVec 8)} (hd : d.length < 3) (b : BitVec 8) :
    hostStep d b = d ++ [b] ∧ hostEmit d b = [] := by
  match d with
  | [] | [_] | [_, _] => exact ⟨rfl, rfl⟩
  | _ :: _ :: _ :: _ =>
    simp only [List.length_cons] at hd
    omega

/-- The last byte of an address. -/
theorem host_read {b₀ b₁ b₂ b₃ : BitVec 8} (h : (word b₀ b₁ b₂ b₃).getLsbD 31 = false) :
    hostStep [b₀, b₁, b₂] b₃ = [] ∧ hostEmit [b₀, b₁, b₂] b₃ = [.read (word b₀ b₁ b₂ b₃)] :=
  host_of_some (if_neg (by rw [h]; exact Bool.false_ne_true))

theorem host_writeAddress {b₀ b₁ b₂ b₃ : BitVec 8} (h : (word b₀ b₁ b₂ b₃).getLsbD 31 = true) :
    hostStep [b₀, b₁, b₂] b₃ = bytesOf (word b₀ b₁ b₂ b₃) ∧ hostEmit [b₀, b₁, b₂] b₃ = [] := by
  have hnone : transaction? ([b₀, b₁, b₂] ++ [b₃]) = none := if_pos h
  obtain ⟨hstep, hemit⟩ := host_of_none hnone
  exact ⟨hstep.trans (bytesOf_word b₀ b₁ b₂ b₃).symm, hemit⟩

/-- A byte of the data. -/
theorem host_data (a : BitVec 32) {d : List (BitVec 8)} (hd : d.length < 3) (b : BitVec 8) :
    hostStep (bytesOf a ++ d) b = bytesOf a ++ (d ++ [b]) ∧ hostEmit (bytesOf a ++ d) b = [] := by
  match d with
  | [] | [_] | [_, _] => exact ⟨rfl, rfl⟩
  | _ :: _ :: _ :: _ =>
    simp only [List.length_cons] at hd
    omega

/-- The last byte of the data. -/
theorem host_write (a : BitVec 32) (b₀ b₁ b₂ b₃ : BitVec 8) :
    hostStep (bytesOf a ++ [b₀, b₁, b₂]) b₃ = [] ∧
      hostEmit (bytesOf a ++ [b₀, b₁, b₂]) b₃ = [.write a (word b₀ b₁ b₂ b₃)] := by
  have hsome : transaction? (bytesOf a ++ [b₀, b₁, b₂] ++ [b₃]) =
      some (.write (word (byteOf a 0) (byteOf a 1) (byteOf a 2) (byteOf a 3))
        (word b₀ b₁ b₂ b₃)) := rfl
  rw [word_byteOf] at hsome
  exact host_of_some hsome

/-! ## Transactions on the wire -/

/-- The bytes of a transaction. -/
def wire : Transaction → List (BitVec 8)
  | .read addr => bytesOf addr
  | .write addr data => bytesOf addr ++ bytesOf data

/-- The top bit says which kind of transaction it is. -/
def Marked : Transaction → Prop
  | .read addr => addr.getLsbD 31 = false
  | .write addr _ => addr.getLsbD 31 = true

theorem wire_ne_nil (t : Transaction) : wire t ≠ [] := by
  cases t <;> exact List.cons_ne_nil _ _

theorem wire_of_transaction? {bs : List (BitVec 8)} {t : Transaction}
    (h : transaction? bs = some t) : bs = wire t := by
  unfold transaction? at h
  split at h
  · split at h
    · cases h
    · cases h
      exact (bytesOf_word _ _ _ _).symm
  · cases h
    rw [wire, bytesOf_word, bytesOf_word]
    rfl
  · cases h

/-- **Nothing is lost**: the bytes are those of the complete transactions and the ones behind. -/
theorem flatMap_wire_transactions (bs : List (BitVec 8)) :
    (transactions bs).flatMap wire ++ openBytes bs = bs := by
  induction bs using List.reverseRecOn with
  | nil => rfl
  | append_singleton bs b ih =>
    rw [transactions, collect_concat, openBytes, run_concat, ← openBytes, ← transactions,
      List.flatMap_append, List.append_assoc]
    have hmore := congrArg (· ++ [b]) ih
    simp only [List.append_assoc] at hmore
    cases ht : transaction? (openBytes bs ++ [b]) with
    | none =>
      obtain ⟨hstep, hemit⟩ := host_of_none ht
      rw [hstep, hemit, List.flatMap_nil, List.nil_append, hmore]
    | some t =>
      obtain ⟨hstep, hemit⟩ := host_of_some ht
      rw [hstep, hemit, List.flatMap_singleton, List.append_nil, ← wire_of_transaction? ht, hmore]

theorem host_bytesOf (a : BitVec 32) :
    run hostStep [] (bytesOf a) = (if a.getLsbD 31 then bytesOf a else []) ∧
      collect hostStep hostEmit [] (bytesOf a) = if a.getLsbD 31 then [] else [.read a] := by
  have hbytes : bytesOf a = [byteOf a 0, byteOf a 1, byteOf a 2] ++ [byteOf a 3] := rfl
  have hrun : run hostStep [] [byteOf a 0, byteOf a 1, byteOf a 2] =
      [byteOf a 0, byteOf a 1, byteOf a 2] := rfl
  have hcollect : collect hostStep hostEmit [] [byteOf a 0, byteOf a 1, byteOf a 2] = [] := rfl
  rw [hbytes, run_concat, collect_concat, hrun, hcollect, List.nil_append, ← hbytes]
  cases hbit : a.getLsbD 31 with
  | false =>
    have hword : (word (byteOf a 0) (byteOf a 1) (byteOf a 2) (byteOf a 3)).getLsbD 31 = false := by
      rwa [word_byteOf]
    have h := host_read hword
    rwa [word_byteOf] at h
  | true =>
    have hword : (word (byteOf a 0) (byteOf a 1) (byteOf a 2) (byteOf a 3)).getLsbD 31 = true := by
      rwa [word_byteOf]
    have h := host_writeAddress hword
    rwa [word_byteOf] at h

/-- The bytes of a transaction make this transaction. -/
theorem host_wire {t : Transaction} (h : Marked t) :
    run hostStep [] (wire t) = [] ∧ collect hostStep hostEmit [] (wire t) = [t] := by
  cases t with
  | read a =>
    obtain ⟨hrun, hcollect⟩ := host_bytesOf a
    rw [show a.getLsbD 31 = false from h] at hrun hcollect
    exact ⟨hrun, hcollect⟩
  | write a d =>
    obtain ⟨hrun, hcollect⟩ := host_bytesOf a
    rw [show a.getLsbD 31 = true from h] at hrun hcollect
    obtain ⟨hstep, hemit⟩ := host_write a (byteOf d 0) (byteOf d 1) (byteOf d 2) (byteOf d 3)
    rw [word_byteOf] at hemit
    have hbytes : bytesOf d = [byteOf d 0, byteOf d 1, byteOf d 2] ++ [byteOf d 3] := rfl
    have hrun' : run hostStep (bytesOf a) [byteOf d 0, byteOf d 1, byteOf d 2] =
        bytesOf a ++ [byteOf d 0, byteOf d 1, byteOf d 2] := rfl
    have hcollect' : collect hostStep hostEmit (bytesOf a) [byteOf d 0, byteOf d 1, byteOf d 2] =
        [] := rfl
    rw [wire, run_append, collect_append, hrun, hcollect, if_pos rfl, hbytes, run_concat,
      collect_concat, hrun', hcollect', hstep, hemit]
    exact ⟨rfl, rfl⟩

theorem host_flatMap_wire {ts : List Transaction} (h : ∀ t ∈ ts, Marked t) :
    openBytes (ts.flatMap wire) = [] ∧ transactions (ts.flatMap wire) = ts := by
  induction ts with
  | nil => exact ⟨rfl, rfl⟩
  | cons t ts ih =>
    obtain ⟨hrun, hcollect⟩ := host_wire (h t (by simp))
    obtain ⟨hopen, htransactions⟩ := ih fun u hu => h u (by simp [hu])
    rw [openBytes, transactions, List.flatMap_cons, run_append, collect_append, hrun, hcollect]
    exact ⟨hopen, congrArg (t :: ·) htransactions⟩

/-! ## The registers -/

section Registers

variable {S : ℕ} {R : Fin (2 ^ S) → ℕ}

/-- The contents of all registers. -/
abbrev Registers (R : Fin (2 ^ S) → ℕ) := (j : Fin (2 ^ S)) → Fin (2 ^ R j) → BitVec 32

/-- The slave that an address selects. -/
def slaveOf (S : ℕ) (addr : BitVec 32) : Fin (2 ^ S) :=
  ⟨(addr.extractLsb' 8 S).toNat, (addr.extractLsb' 8 S).isLt⟩

/-- The register that an address selects in a slave with `2 ^ r` of them. -/
def registerOf (r : ℕ) (addr : BitVec 32) : Fin (2 ^ r) :=
  ⟨((addr.extractLsb' 0 8).setWidth r).toNat, ((addr.extractLsb' 0 8).setWidth r).isLt⟩

/-- The registers after a transaction. -/
def apply (m : Registers R) : Transaction → Registers R
  | .read _ => m
  | .write addr data => Function.update m (slaveOf S addr)
      (Function.update (m (slaveOf S addr)) (registerOf (R (slaveOf S addr)) addr) data)

/-- The answer to a transaction. -/
def answer (m : Registers R) : Transaction → BitVec 32
  | .read addr => m (slaveOf S addr) (registerOf (R (slaveOf S addr)) addr)
  | .write _ data => data

/-- The answers to some transactions. -/
def answers (m : Registers R) (ts : List Transaction) : List (BitVec 32) :=
  collect apply (fun m t => [answer m t]) m ts

/-- The address selects this register. -/
def selects (addr : BitVec 32) (j : Fin (2 ^ S)) (k : Fin (2 ^ R j)) : Bool :=
  slaveOf S addr == j && registerOf (R j) addr == k

/-- A read of this register. -/
def readsFrom (j : Fin (2 ^ S)) (k : Fin (2 ^ R j)) : Transaction → Bool
  | .read addr => selects addr j k
  | .write _ _ => false

/-- A write to this register. -/
def writesTo (j : Fin (2 ^ S)) (k : Fin (2 ^ R j)) : Transaction → Bool
  | .read _ => false
  | .write addr _ => selects addr j k

@[simp] theorem answers_nil (m : Registers R) : answers m [] = [] := rfl

@[simp] theorem answers_singleton (m : Registers R) (t : Transaction) :
    answers m [t] = [answer m t] := rfl

theorem answers_append (m : Registers R) (ts us : List Transaction) :
    answers m (ts ++ us) = answers m ts ++ answers (run apply m ts) us := collect_append _ _ _

/-- Every answer has four bytes. -/
theorem length_answers (m : Registers R) (ts : List Transaction) :
    ((answers m ts).flatMap bytesOf).length = 4 * ts.length := by
  induction ts generalizing m with
  | nil => rfl
  | cons t ts ih =>
    have hcons : answers m (t :: ts) = answer m t :: answers (apply m t) ts := rfl
    rw [hcons, List.flatMap_cons, List.length_append, ih, List.length_cons, Nat.mul_succ,
      Nat.add_comm]
    rfl

/-- The data that a transaction writes to this register. -/
def written (j : Fin (2 ^ S)) (k : Fin (2 ^ R j)) : Transaction → List (BitVec 32)
  | .read _ => []
  | .write addr data => if selects addr j k then [data] else []

/-- A transaction changes the register it writes to and no other one. -/
theorem apply_eq (m : Registers R) (t : Transaction) (j : Fin (2 ^ S)) (k : Fin (2 ^ R j)) :
    apply m t j k = (written j k t).getLast?.getD (m j k) := by
  cases t with
  | read addr => rfl
  | write addr data =>
    by_cases hj : slaveOf S addr = j
    · subst hj
      by_cases hk : registerOf (R (slaveOf S addr)) addr = k
      · subst hk
        simp [apply, written, selects]
      · simp [apply, written, selects, hk, Ne.symm hk]
    · simp [apply, written, selects, hj, Ne.symm hj]

/-- **A register map**: a register holds what was last written to it, or its first content. -/
theorem run_apply (m : Registers R) (ts : List Transaction) (j : Fin (2 ^ S)) (k : Fin (2 ^ R j)) :
    run apply m ts j k = (ts.flatMap (written j k)).getLast?.getD (m j k) := by
  induction ts generalizing m with
  | nil => rfl
  | cons t ts ih =>
    rw [run_cons, ih, apply_eq, List.flatMap_cons, List.getLast?_append]
    cases (ts.flatMap (written j k)).getLast? <;> rfl

end Registers

end RmiiEthernet.RegisterMap
