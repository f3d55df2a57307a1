import RmiiEthernet.Apb.Service
import RmiiEthernet.Uart.Rx

/-!
# The bridge serves a register map

A host that waits for the four bytes of an answer before it begins the next transaction sees a
register map through the bridge: the bytes taken are the answers of `RegisterMap`, the registers are
those of `RegisterMap`, at most one transaction behind, and every transaction raises one enable of
its register for one cycle (`serves_transactions`).

The bytes of an answer keep coming if the transmitter's counter has any bits (`2 ≤ p`). Without them
it never ticks, but then the receiver gives no byte either (`two_le_of_fromLine`).
-/

namespace RmiiEthernet.UartApbBridge

open Sync Utils Apb RegisterMap

variable {S p : ℕ} {R : Fin (2 ^ S) → ℕ} {x : Mapped S p R}

/-- The transactions that a run completes. -/
def asked (x : Mapped S p R) (is : List Rx) : List Transaction :=
  transactions (collect systemStep received x is)

/-- The host begins a transaction only when all bytes of the answers have been taken. -/
def HostWaits (x : Mapped S p R) (is : List Rx) : Prop :=
  ∀ js i, js ++ [i] <+: is → i.uartRxValid = true →
    openBytes (collect systemStep received x js) = [] →
      4 * (asked x js).length ≤ (collect systemStep taken x js).length

/-- The states in the cycles of a run. -/
def states (x : Mapped S p R) (is : List Rx) : List (Mapped S p R) :=
  collect systemStep (fun y _ => [y]) x is

/-- The cycles in which the enables of each register are high are as many as the transactions on
it. -/
def EnablesOf (x : Mapped S p R) (is : List Rx) (ts : List Transaction) : Prop :=
  ∀ j k, (states x is).countP (fun y => (y.slaves j).regRenSig k) = ts.countP (readsFrom j k) ∧
    (states x is).countP (fun y => (y.slaves j).regWenOut k) = ts.countP (writesTo j k)

/-- What a run has done, and what is still owed. -/
structure Served (x : Mapped S p R) (is : List Rx) (o : Owed) : Prop where
  phase : Phase (run systemStep x is) (openBytes (collect systemStep received x is)) o
  regular : AxiUartTx.Regular (run systemStep x is).bridge.uartTx
  todo : ∃ done, asked x is = done ++ o.todo ∧
    registers (run systemStep x is) = run apply (registers x) done
  enables : ∃ now, asked x is = now ++ o.enables ∧ EnablesOf x is now
  bytes : (RegisterMap.answers (registers x) (asked x is)).flatMap bytesOf =
    collect systemStep taken x is ++ o.bytes

theorem served_powerUp (h : SystemPowerUp x) : Served x [] ⟨[], [], [], 0⟩ where
  phase := phase_powerUp h
  regular := AxiUartTx.regular_powerUp h.bridge.uartTx
  todo := ⟨[], rfl, rfl⟩
  enables := ⟨[], rfl, fun _ _ => ⟨rfl, rfl⟩⟩
  bytes := rfl

/-- The transactions after one more cycle. -/
theorem asked_concat (x : Mapped S p R) (is : List Rx) (i : Rx) : asked x (is ++ [i]) =
    asked x is ++ collect hostStep hostEmit (openBytes (collect systemStep received x is))
      (received (run systemStep x is) i) := by
  rw [asked, collect_concat, transactions, collect_append]
  rfl

theorem countP_states_concat (f : Mapped S p R → Bool) (x : Mapped S p R) (is : List Rx) (i : Rx) :
    (states x (is ++ [i])).countP f =
      (states x is).countP f + (f (run systemStep x is)).toNat := by
  rw [states, collect_concat, List.countP_append, List.countP_singleton, Bool.toNat,
    Bool.cond_eq_ite]
  rfl

/-- **One more cycle.** -/
theorem Served.concat {is : List Rx} {i : Rx} {o : Owed} (h : Served x is o)
    (hreset : i.reset = false)
    (hhost : i.uartRxValid = true → openBytes (collect systemStep received x is) = [] →
      o.bytes = []) :
    ∃ o', Served x (is ++ [i]) o' ∧ (2 ≤ p → i.uartRxValid = false → o'.cycles ≤ o.cycles - 1) := by
  obtain ⟨o', hphase, hconserves⟩ := h.phase.step h.regular hreset hhost
  obtain ⟨done, hdone, hregisters⟩ := h.todo
  obtain ⟨done', hdone', hregisters'⟩ := hconserves.todo
  obtain ⟨now, hnow, henables⟩ := h.enables
  obtain ⟨now', hnow', henables'⟩ := hconserves.enables
  refine ⟨o', ⟨?_, ?_, ⟨done ++ done', ?_, ?_⟩, ⟨now ++ now', ?_, fun j k => ?_⟩, ?_⟩,
    hconserves.cycles⟩
  · rw [run_concat, collect_concat, openBytes, run_append]
    exact hphase
  · rw [run_concat]
    exact h.regular.step
  · rw [asked_concat, hdone, List.append_assoc, hdone', List.append_assoc]
  · rw [run_concat, hregisters', hregisters, run_append]
  · rw [asked_concat, hnow, List.append_assoc, hnow', List.append_assoc]
  · obtain ⟨hread, hwrite⟩ := henables j k
    obtain ⟨hread', hwrite'⟩ := henables' j k
    rw [countP_states_concat, countP_states_concat, hread, hwrite, hread', hwrite',
      List.countP_append, List.countP_append]
    exact ⟨rfl, rfl⟩
  · have hmap : run apply (registers x) (asked x is) =
        run apply (registers (run systemStep x is)) o.todo := by
      rw [hdone, run_append, hregisters]
    rw [asked_concat, answers_append, List.flatMap_append, h.bytes, hmap, List.append_assoc,
      hconserves.bytes, collect_concat, List.append_assoc]
    rfl

/-- **The invariant** of a run whose host waits. -/
theorem exists_served (hx : SystemPowerUp x) {is : List Rx} (hreset : ∀ i ∈ is, i.reset = false)
    (hhost : HostWaits x is) : ∃ o, Served x is o := by
  induction is using List.reverseRecOn with
  | nil => exact ⟨_, served_powerUp hx⟩
  | append_singleton is i ih =>
    obtain ⟨hwaits, hwait⟩ := forall_prefix_concat_iff.mp hhost
    obtain ⟨o, ho⟩ := ih (fun j hj => hreset j (List.mem_append_left _ hj)) hwaits
    have hbytes (hvalid : i.uartRxValid = true)
        (hopen : openBytes (collect systemStep received x is) = []) : o.bytes = [] := by
      have hlength := congrArg List.length ho.bytes
      rw [length_answers, List.length_append] at hlength
      have := hwait hvalid hopen
      exact List.eq_nil_of_length_eq_zero (by omega)
    obtain ⟨o', ho', -⟩ := ho.concat (hreset i (by simp)) hbytes
    exact ⟨o', ho'⟩

/-- **The bytes come**: without another byte from the host, what is owed runs out. -/
theorem Served.append (hp : 2 ≤ p) {is js : List Rx} {o : Owed} (h : Served x is o)
    (hjs : ∀ i ∈ js, i.reset = false ∧ i.uartRxValid = false) :
    ∃ o', Served x (is ++ js) o' ∧ o'.cycles ≤ o.cycles - js.length := by
  induction js using List.reverseRecOn with
  | nil => exact ⟨o, by rwa [List.append_nil], le_rfl⟩
  | append_singleton js i ih =>
    obtain ⟨o₁, h₁, hn₁⟩ := ih fun j hj => hjs j (List.mem_append_left _ hj)
    obtain ⟨hreset, hvalid⟩ := hjs i (by simp)
    obtain ⟨o₂, h₂, hn₂⟩ := h₁.concat hreset (by simp [hvalid])
    have := hn₂ hp hvalid
    refine ⟨o₂, by rwa [List.append_assoc] at h₂, ?_⟩
    rw [List.length_append, List.length_singleton]
    omega

/-- Cycles without a byte complete no transaction. -/
theorem asked_append {is js : List Rx} (hjs : ∀ i ∈ js, i.uartRxValid = false) :
    asked x (is ++ js) = asked x is := by
  induction js using List.reverseRecOn with
  | nil => rw [List.append_nil]
  | append_singleton js i ih =>
    have hvalid := hjs i (by simp)
    rw [← List.append_assoc, asked_concat, ih fun j hj => hjs j (List.mem_append_left _ hj)]
    simp [received, hvalid]

/-! ## The register map -/

/-- When all bytes have been taken, nothing is owed. -/
theorem Served.settled {is : List Rx} {o : Owed} (h : Served x is o)
    (htaken : 4 * (asked x is).length ≤ (collect systemStep taken x is).length) :
    registers (run systemStep x is) = run apply (registers x) (asked x is) ∧
      EnablesOf x is (asked x is) := by
  have hlength := congrArg List.length h.bytes
  rw [length_answers, List.length_append] at hlength
  obtain ⟨htodo, henables⟩ := h.phase.settled (List.eq_nil_of_length_eq_zero (by omega))
  obtain ⟨done, hdone, hregisters⟩ := h.todo
  obtain ⟨now, hnow, henabled⟩ := h.enables
  rw [htodo, List.append_nil] at hdone
  rw [henables, List.append_nil] at hnow
  rw [← hdone] at hregisters
  rw [← hnow] at henabled
  exact ⟨hregisters, henabled⟩

/-- The outputs of `i_axi_uart_rx` in a run. -/
def fromLine (s : AxiUartRx.State (log2Ceil p) (log2Ceil (p / 2))) (is : List AxiUartRx.Inputs) :
    List Rx :=
  collect AxiUartRx.step (fun s i => [⟨i.reset, s.rxBuffer, s.sAxiTvalidOut⟩]) s is

/-- The receiver gives a byte only if the counter of the transmitter has bits, too. -/
theorem two_le_of_fromLine {s : AxiUartRx.State (log2Ceil p) (log2Ceil (p / 2))}
    (hs : AxiUartRx.PowerUp s) (is : List AxiUartRx.Inputs) :
    ∀ i ∈ fromLine s is, i.uartRxValid = true → 2 ≤ p := by
  induction is using List.reverseRecOn with
  | nil => simp [fromLine]
  | append_singleton is i ih =>
    intro j hj hvalid
    rw [fromLine, collect_concat, List.mem_append, List.mem_singleton] at hj
    rcases hj with hj | rfl
    · exact ih j hj hvalid
    · have := AxiUartRx.four_le_of_valid hs is hvalid
      omega

/-- **A register map.** The host asks for transactions, at any spacing of the bytes, and waits with
each for the bytes of the answers. Then in every run the bytes taken are the first of the answers'
bytes; the registers have seen all transactions but at most the last one, and so have the enables,
which are high for one cycle for each transaction on their register and for no other one; when all
bytes have been taken, there is no exception; and all bytes are taken within a bounded number of
cycles. -/
theorem serves_transactions (hx : SystemPowerUp x) {is : List Rx}
    (hreset : ∀ i ∈ is, i.reset = false) (hrx : ∀ i ∈ is, i.uartRxValid = true → 2 ≤ p)
    (hhost : HostWaits x is) :
    collect systemStep taken x is <+:
        (RegisterMap.answers (registers x) (asked x is)).flatMap bytesOf ∧
      (∃ done todo, asked x is = done ++ todo ∧ todo.length ≤ 1 ∧
        registers (run systemStep x is) = run apply (registers x) done) ∧
      (∃ done todo, asked x is = done ++ todo ∧ todo.length ≤ 1 ∧ EnablesOf x is done) ∧
      (4 * (asked x is).length ≤ (collect systemStep taken x is).length →
        registers (run systemStep x is) = run apply (registers x) (asked x is) ∧
          EnablesOf x is (asked x is)) ∧
      ∀ js : List Rx, (∀ i ∈ js, i.reset = false ∧ i.uartRxValid = false) →
        4 * bytePeriod p + 9 ≤ js.length → collect systemStep taken x (is ++ js) =
          (RegisterMap.answers (registers x) (asked x is)).flatMap bytesOf := by
  obtain ⟨o, h⟩ := exists_served hx hreset hhost
  obtain ⟨htodo, henables, hcycles⟩ := h.phase.le
  refine ⟨⟨o.bytes, h.bytes.symm⟩, ?_, ?_, h.settled, fun js hjs hlength => ?_⟩
  · obtain ⟨done, hdone, hregisters⟩ := h.todo
    exact ⟨done, o.todo, hdone, htodo, hregisters⟩
  · obtain ⟨now, hnow, henabled⟩ := h.enables
    exact ⟨now, o.enables, hnow, henables, henabled⟩
  · have hasked : asked x (is ++ js) = asked x is := asked_append fun i hi => (hjs i hi).2
    by_cases hp : 2 ≤ p
    · obtain ⟨o', h', hn⟩ := h.append hp hjs
      have hbytes := h'.bytes
      rw [h'.phase.bytes_eq_nil (by omega), List.append_nil, hasked] at hbytes
      exact hbytes.symm
    · -- no byte has been received
      have hquiet : ∀ i ∈ is ++ js, i.reset = false ∧ i.uartRxValid = false := by
        intro i hi
        rcases List.mem_append.mp hi with hi | hi
        · exact ⟨hreset i hi, Bool.eq_false_iff.mpr fun hvalid => hp (hrx i hi hvalid)⟩
        · exact hjs i hi
      have hnone : asked x ([] ++ (is ++ js)) = [] := asked_append fun i hi => (hquiet i hi).2
      rw [List.nil_append] at hnone
      obtain ⟨o', h'⟩ := exists_served hx (fun i hi => (hquiet i hi).1) fun ks i hpre hvalid => by
        have hmem : i ∈ is ++ js := hpre.subset (by simp)
        rw [(hquiet i hmem).2] at hvalid
        exact absurd hvalid Bool.false_ne_true
      have hbytes := h'.bytes
      rw [hnone] at hbytes
      rw [← hasked, hnone]
      exact (List.append_eq_nil_iff.mp hbytes.symm).1

/-- Two slaves with two registers each, all of them zero, and four cycles a bit. -/
def bench : Mapped 1 4 (fun _ => 1) := blank (2 ^ 1) 4 fun _ => 2 ^ 1

/-- A write to register 1 of slave 1, one byte a cycle. -/
def benchWrite : List Rx :=
  [0x01, 0x01, 0x00, 0x80, 0xef, 0xbe, 0xad, 0xde].map fun b => ⟨false, b, true⟩

theorem hostWaits_benchWrite : HostWaits bench benchWrite := by
  intro js i hpre _ hopen
  have hlength : js.length < 8 := by
    have hle := hpre.length_le
    rwa [List.length_append, List.length_singleton] at hle
  have htake := List.prefix_iff_eq_take.mp ((List.prefix_append js [i]).trans hpre)
  generalize js.length = n at hlength htake
  subst htake
  interval_cases n
  · exact Nat.zero_le _
  all_goals exact absurd hopen (by decide)

/-- The data come back. -/
theorem serves_transactions_benchWrite :
    collect systemStep taken bench (benchWrite ++ List.replicate 257 ⟨false, 0, false⟩) =
      [0xef, 0xbe, 0xad, 0xde] := by
  have hreset : ∀ i ∈ benchWrite, i.reset = false := by decide
  have h := serves_transactions (x := bench) (systemPowerUp_blank _ 4 _) hreset (by decide)
    hostWaits_benchWrite
  have hquiet : ∀ i ∈ List.replicate 257 (⟨false, 0, false⟩ : Rx),
      i.reset = false ∧ i.uartRxValid = false := by
    intro i hi
    rw [List.eq_of_mem_replicate hi]
    exact ⟨rfl, rfl⟩
  rw [h.2.2.2.2 _ hquiet (by rw [List.length_replicate]; decide)]
  decide

end RmiiEthernet.UartApbBridge
