import RmiiEthernet.Apb.Bridge
import RmiiEthernet.Apb.RegisterMap
import Mathlib.Tactic.IntervalCases

/-!
# Words in and out of the bridge

`Assembles` says which bytes of the next word are in the buffer, `Sending` which bytes of an answer
have been taken. The serialiser shows a byte one cycle after it has counted the one before it; in
that cycle `axi_uart_tx` is not ready, so that no byte is taken twice.
-/

namespace RmiiEthernet.UartApbBridge

open Utils RegisterMap

variable {N p : ℕ} {s : State N (log2Ceil p)} {i : Inputs N} {d : List (BitVec 8)}

/-! ## Assembly -/

theorem getLsbD_setByte (w : BitVec 32) (k : BitVec 2) (b : BitVec 8) {m : ℕ} (hm : m < 32) :
    (setByte w k b).getLsbD m = if m / 8 = k.toNat then b.getLsbD (m % 8) else w.getLsbD m := by
  have hk : k = 0 ∨ k = 1 ∨ k = 2 ∨ k = 3 := by revert k; decide
  rcases hk with rfl | rfl | rfl | rfl
  · refine (BitVec.getLsbD_append (n := 24) (m := 8)).trans ?_
    rw [BitVec.getLsbD_extractLsb', show BitVec.toNat (0 : BitVec 2) = 0 from rfl]
    grind
  · refine (BitVec.getLsbD_append (n := 16) (m := 16)).trans ?_
    rw [BitVec.getLsbD_extractLsb', BitVec.getLsbD_append, BitVec.getLsbD_extractLsb',
      show BitVec.toNat (1 : BitVec 2) = 1 from rfl]
    grind
  · refine (BitVec.getLsbD_append (n := 8) (m := 24)).trans ?_
    rw [BitVec.getLsbD_extractLsb', BitVec.getLsbD_append, BitVec.getLsbD_extractLsb',
      show BitVec.toNat (2 : BitVec 2) = 2 from rfl]
    grind
  · refine (BitVec.getLsbD_append (n := 8) (m := 24)).trans ?_
    rw [BitVec.getLsbD_extractLsb', show BitVec.toNat (3 : BitVec 2) = 3 from rfl]
    grind

/-- **One byte is set** and the others stay. -/
theorem byteOf_setByte (w : BitVec 32) (k l : BitVec 2) (b : BitVec 8) :
    byteOf (setByte w k b) l = if l = k then b else byteOf w l := by
  refine BitVec.eq_of_getLsbD_eq fun m hm => ?_
  have hl := l.isLt
  rw [getLsbD_byteOf _ _ hm, getLsbD_setByte _ _ _ (by omega),
    show (8 * l.toNat + m) / 8 = l.toNat by omega, show (8 * l.toNat + m) % 8 = m by omega]
  by_cases hlk : l = k
  · rw [if_pos (congrArg _ hlk), if_pos hlk]
  · rw [if_neg fun heq => hlk (BitVec.eq_of_toNat_eq heq), if_neg hlk, getLsbD_byteOf _ _ hm]

theorem setByte_eq_word (w : BitVec 32) (b : BitVec 8) :
    setByte w 3 b = word (byteOf w 0) (byteOf w 1) (byteOf w 2) b := by
  rw [← word_byteOf (setByte w 3 b)]
  simp only [byteOf_setByte]
  rfl

/-- The bytes `d` of the next word are in the buffer. -/
structure Assembles (s : State N (log2Ceil p)) (d : List (BitVec 8)) : Prop where
  rxCounterU : s.rxCounterU = BitVec.ofNat 2 d.length
  length : d.length < 4
  bytes : ∀ k (h : k < d.length), byteOf s.rxBuffer (BitVec.ofNat 2 k) = d[k]

theorem Assembles.wait (h : Assembles s d) (hreset : i.reset = false)
    (hvalid : i.uartRxValid = false) :
    Assembles (step s i) d ∧ (step s i).rxValid = false := by
  refine ⟨⟨?_, h.length, ?_⟩, ?_⟩
  · simp [step, hreset, hvalid, h.rxCounterU]
  · simpa [step, hvalid] using h.bytes
  · simp [step, hvalid]

/-- Another byte of the word. -/
theorem Assembles.byte (h : Assembles s d) (hreset : i.reset = false)
    (hvalid : i.uartRxValid = true) (hd : d.length < 3) :
    Assembles (step s i) (d ++ [i.uartRxData]) ∧ (step s i).rxValid = false := by
  have hbuffer : (step s i).rxBuffer =
      setByte s.rxBuffer (BitVec.ofNat 2 d.length) i.uartRxData := by
    simp [step, hvalid, h.rxCounterU]
  refine ⟨⟨?_, ?_, fun k hk => ?_⟩, ?_⟩
  · simp [step, hreset, hvalid, h.rxCounterU, BitVec.ofNat_add]
  · simp only [List.length_append, List.length_singleton]
    omega
  · rw [hbuffer, byteOf_setByte, List.getElem_append]
    have hne (hlt : k < d.length) : BitVec.ofNat 2 k ≠ BitVec.ofNat 2 d.length := by
      intro heq
      have := congrArg BitVec.toNat heq
      simp only [BitVec.toNat_ofNat] at this
      omega
    split
    · next heq =>
      rw [dif_neg fun hlt => hne hlt heq]
      simp
    · next hkd =>
      have hlt : k < d.length := by
        have hne : k ≠ d.length := fun heq => hkd (by rw [heq])
        simp only [List.length_append, List.length_singleton] at hk
        omega
      rw [dif_pos hlt, h.bytes k hlt]
  · have hcounter : s.rxCounterU ≠ 3#2 := by
      rw [h.rxCounterU]
      intro heq
      have := congrArg BitVec.toNat heq
      simp only [BitVec.toNat_ofNat] at this
      omega
    simp [step, hcounter]

/-- A word of which one byte is missing has three. -/
theorem Assembles.exists_eq (h : Assembles s d) (hd : ¬d.length < 3) :
    ∃ b₀ b₁ b₂, d = [b₀, b₁, b₂] :=
  List.length_eq_three.mp (by have := h.length; omega)

/-- **The last byte** makes the word valid for a cycle. -/
theorem Assembles.last {b₀ b₁ b₂ : BitVec 8} (h : Assembles s [b₀, b₁, b₂])
    (hreset : i.reset = false) (hvalid : i.uartRxValid = true) :
    Assembles (step s i) [] ∧ (step s i).rxValid = true ∧
      (step s i).rxBuffer = word b₀ b₁ b₂ i.uartRxData := by
  have hcounter : s.rxCounterU = 3 := h.rxCounterU
  have h₀ : byteOf s.rxBuffer 0 = b₀ := h.bytes 0 (by simp)
  have h₁ : byteOf s.rxBuffer 1 = b₁ := h.bytes 1 (by simp)
  have h₂ : byteOf s.rxBuffer 2 = b₂ := h.bytes 2 (by simp)
  refine ⟨⟨?_, by simp, nofun⟩, ?_, ?_⟩
  · simp [step, hreset, hvalid, hcounter]
  · simp [step, hreset, hvalid, hcounter]
  · simp only [step, hvalid, if_true, hcounter]
    rw [setByte_eq_word, h₀, h₁, h₂]

/-! ## The serialiser -/

/-- The next byte comes after this number of cycles at most. -/
def bytePeriod (p : ℕ) : ℕ := 12 * (2 ^ log2Ceil p + 1) + 2

/-- The serialiser owes the bytes `q`, and the last of them will be taken within `n` cycles. -/
inductive Sends (s : State N (log2Ceil p)) : List (BitVec 8) → ℕ → Prop
  | still (hvalid : s.txValid = false) (hvalidL : s.txValidL = false)
      (huart : s.uartTxValid = false) (hcounter : s.txCounterU = 0) : Sends s [] 0
  | asked (v : BitVec 32) (hvalid : s.txValid = true) (hdata : s.txData = v)
      (hvalidL : s.txValidL = false) (huart : s.uartTxValid = false) (hcounter : s.txCounterU = 0) :
      Sends s (bytesOf v) (4 * bytePeriod p + 1)
  | held (v : BitVec 32) (hvalid : s.txValid = false) (hvalidL : s.txValidL = true)
      (hdata : s.txDataR = v) (huart : s.uartTxValid = false) (hcounter : s.txCounterU = 0) :
      Sends s (bytesOf v) (4 * bytePeriod p)
  | byte (v : BitVec 32) (k : ℕ) (hk : k < 4) (hvalid : s.txValid = false)
      (hvalidL : s.txValidL = true) (hdata : s.txDataR = v) (huart : s.uartTxValid = true)
      (hcounter : s.txCounterU = BitVec.ofNat 2 k)
      (hready : uartTxReady s = true → s.uartTxData = byteOf v (BitVec.ofNat 2 k)) :
      Sends s ((bytesOf v).drop k) ((3 - k) * bytePeriod p + AxiUartTx.rank s.uartTx + 1)

theorem bytesOf_drop (v : BitVec 32) {k : ℕ} (hk : k < 4) :
    (bytesOf v).drop k = byteOf v (BitVec.ofNat 2 k) :: (bytesOf v).drop (k + 1) := by
  interval_cases k <;> rfl

/-- Nothing is owed when no cycle is left. -/
theorem Sends.eq_nil {q : List (BitVec 8)} (h : Sends s q 0) : q = [] := by
  generalize hn : 0 = n at h
  cases h with
  | still => rfl
  | asked | byte => omega
  | held => simp [bytePeriod] at hn

theorem Sends.still_of_nil {n : ℕ} (h : Sends s [] n) : n = 0 ∧ s.txValid = false ∧
    s.txValidL = false ∧ s.uartTxValid = false ∧ s.txCounterU = 0 := by
  generalize hq : [] = q at h
  cases h with
  | still hvalid hvalidL huart hcounter => exact ⟨rfl, hvalid, hvalidL, huart, hcounter⟩
  | asked | held => simp [bytesOf] at hq
  | byte v k hk => simp [bytesOf_drop v hk] at hq

theorem Sends.le {q : List (BitVec 8)} {n : ℕ} (h : Sends s q n) : n ≤ 4 * bytePeriod p + 1 := by
  cases h with
  | still | asked | held => omega
  | byte v k hk =>
    have hrank := AxiUartTx.rank_le s.uartTx
    have hmul := Nat.mul_le_mul_right (bytePeriod p) (Nat.sub_le 3 k)
    simp only [bytePeriod] at *
    omega

/-- The byte that `axi_uart_tx` takes. -/
def takenByte (s : State N (log2Ceil p)) : List (BitVec 8) :=
  if s.uartTxValid && uartTxReady s then [s.uartTxData] else []

/-- One cycle of the serialiser with a byte. -/
theorem Sends.byte_step {v : BitVec 32} {k : ℕ} (hk : k < 4) (hvalid : s.txValid = false)
    (hvalidL : s.txValidL = true) (hdata : s.txDataR = v) (huart : s.uartTxValid = true)
    (hcounter : s.txCounterU = BitVec.ofNat 2 k)
    (hbyte : uartTxReady s = true → s.uartTxData = byteOf v (BitVec.ofNat 2 k))
    (hregular : AxiUartTx.Regular s.uartTx) (hreset : i.reset = false)
    (hanswers : answers s = false) :
    ∃ q' n', Sends (step s i) q' n' ∧ (bytesOf v).drop k = takenByte s ++ q' ∧
      (2 ≤ p → n' ≤ (3 - k) * bytePeriod p + AxiUartTx.rank s.uartTx + 1 - 1) := by
  have hvalid' : (UartApbBridge.step s i).txValid = false := hanswers
  have hrank := AxiUartTx.rank_le (AxiUartTx.step s.uartTx (uartTxInputs s i))
  have hdata' : (UartApbBridge.step s i).txDataR = v := by
    simp [UartApbBridge.step, hvalid, hdata]
  cases hready : uartTxReady s with
  | false =>
    -- the byte waits
    refine ⟨(bytesOf v).drop k, _, .byte v k hk hvalid' ?_ hdata' ?_ ?_ ?_, ?_, fun hp => ?_⟩
    · simp [UartApbBridge.step, lastTaken, hreset, hready, hvalidL]
    · simp [UartApbBridge.step, lastTaken, hreset, hready, hvalidL]
    · simp [UartApbBridge.step, hreset, hready, hcounter]
    · intro _
      simp [UartApbBridge.step, hvalidL, hdata, hcounter]
    · simp [takenByte, hready]
    · have hless := AxiUartTx.rank_step hp (i := uartTxInputs s i) hreset hready
      change (3 - k) * bytePeriod p +
        AxiUartTx.rank (AxiUartTx.step s.uartTx (uartTxInputs s i)) + 1 ≤ _
      omega
  | true =>
    have htaken : takenByte s = [byteOf v (BitVec.ofNat 2 k)] := by
      simp [takenByte, huart, hready, hbyte hready]
    by_cases hlast : k = 3
    · -- the last one is taken
      subst hlast
      have hcounter' : s.txCounterU = 3#2 := hcounter
      have hlast : lastTaken s = true := by
        simp [lastTaken, hvalidL, hready, huart, hcounter']
      refine ⟨[], 0, .still hvalid' ?_ ?_ ?_, ?_, fun _ => Nat.zero_le _⟩
      · simp [UartApbBridge.step, hlast]
      · simp [UartApbBridge.step, hlast]
      · simp [UartApbBridge.step, hreset, hvalidL, hready, huart, hcounter']
      · rw [htaken]
        rfl
    · -- the next one will be shown one cycle late, and is not taken before
      have hlast : lastTaken s = false := by
        have hne : s.txCounterU ≠ 3#2 := by
          rw [hcounter]
          interval_cases k <;> simp_all
        simp [lastTaken, hne]
      have hready' : uartTxReady (UartApbBridge.step s i) = false :=
        hregular.ready_step hreset hready huart
      refine ⟨(bytesOf v).drop (k + 1), _,
        .byte v (k + 1) (by omega) hvalid' ?_ hdata' ?_ ?_ ?_, ?_, fun _ => ?_⟩
      · simp [UartApbBridge.step, hreset, hlast, hvalidL]
      · simp [UartApbBridge.step, hreset, hlast, hvalidL]
      · simp [UartApbBridge.step, hreset, hready, hvalidL, huart, hcounter, BitVec.ofNat_add]
      · simp [hready']
      · rw [htaken]
        exact bytesOf_drop v hk
      · change (3 - (k + 1)) * bytePeriod p +
          AxiUartTx.rank (AxiUartTx.step s.uartTx (uartTxInputs s i)) + 1 ≤ _
        obtain ⟨m, hm⟩ : ∃ m, 3 - k = m + 1 := ⟨2 - k, by omega⟩
        rw [hm, show 3 - (k + 1) = m by omega, Nat.add_mul, Nat.one_mul]
        simp only [bytePeriod] at *
        omega

/-- **One cycle of the serialiser** when no answer is given to it. -/
theorem Sends.step {q : List (BitVec 8)} {n : ℕ} (h : Sends s q n)
    (hregular : AxiUartTx.Regular s.uartTx) (hreset : i.reset = false)
    (hanswers : answers s = false) :
    ∃ q' n', Sends (step s i) q' n' ∧ q = takenByte s ++ q' ∧ (2 ≤ p → n' ≤ n - 1) := by
  have hvalid' : (UartApbBridge.step s i).txValid = false := hanswers
  have hrank := AxiUartTx.rank_le (AxiUartTx.step s.uartTx (uartTxInputs s i))
  cases h with
  | still hvalid hvalidL huart hcounter =>
    refine ⟨[], 0, .still hvalid' ?_ ?_ ?_, ?_, fun _ => le_rfl⟩
    · simp [UartApbBridge.step, hvalid, hvalidL]
    · simp [UartApbBridge.step, huart, hvalidL]
    · simp [UartApbBridge.step, hcounter, hvalidL]
    · simp [takenByte, huart]
  | asked v hvalid hdata hvalidL huart hcounter =>
    refine ⟨bytesOf v, 4 * bytePeriod p, .held v hvalid' ?_ ?_ ?_ ?_, ?_, fun _ => by omega⟩
    · simp [UartApbBridge.step, lastTaken, hreset, hvalid, hvalidL]
    · simp [UartApbBridge.step, hvalid, hdata]
    · simp [UartApbBridge.step, huart, hvalidL]
    · simp [UartApbBridge.step, hcounter, hvalidL]
    · simp [takenByte, huart]
  | held v hvalid hvalidL hdata huart hcounter =>
    refine ⟨(bytesOf v).drop 0, _, .byte v 0 (by omega) hvalid' ?_ ?_ ?_ ?_ ?_, ?_, fun _ => ?_⟩
    · simp [UartApbBridge.step, lastTaken, hreset, hvalidL, huart]
    · simp [UartApbBridge.step, hvalid, hdata]
    · simp [UartApbBridge.step, lastTaken, hreset, hvalidL, huart]
    · simp [UartApbBridge.step, hcounter, huart]
    · intro _
      simp [UartApbBridge.step, hvalidL, hdata, hcounter]
    · simp [takenByte, huart]
    · change 3 * bytePeriod p + AxiUartTx.rank (AxiUartTx.step s.uartTx (uartTxInputs s i)) + 1 ≤ _
      simp only [bytePeriod] at *
      omega
  | byte v k hk hvalid hvalidL hdata huart hcounter hbyte =>
    exact Sends.byte_step hk hvalid hvalidL hdata huart hcounter hbyte hregular hreset hanswers

/-- **An answer** is given to the serialiser. -/
theorem Sends.answer {n : ℕ} (h : Sends s [] n) (hanswers : answers s = true) :
    Sends (UartApbBridge.step s i) (bytesOf (if s.isWriteOpR then s.writeData else activeData s))
      (4 * bytePeriod p + 1) := by
  obtain ⟨-, hvalid, hvalidL, huart, hcounter⟩ := h.still_of_nil
  refine .asked _ hanswers ?_ ?_ ?_ ?_
  · simp [UartApbBridge.step, hanswers]
  · simp [UartApbBridge.step, hvalid, hvalidL]
  · simp [UartApbBridge.step, huart, hvalidL]
  · simp [UartApbBridge.step, hcounter, hvalidL]

end RmiiEthernet.UartApbBridge
