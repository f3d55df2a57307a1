import RmiiEthernet.Apb.Transactions
import RmiiEthernet.Driver.UartRegInterface
import RmiiEthernet.Sync.Progress

/-!
# The driver and the bridge

A session is a function of the driver on the host, the two directions of the serial line, and the
bridge with its slaves. The host and the clock of the bridge take their steps in any order, and a
byte of the host reaches the bridge any number of cycles after the one before it.

The driver waits for the answer to a call before it makes the next one, so one transaction at most
is on its way (`Follows.cases`), which is what the bridge needs (`Served.concat`). The driver
therefore sees the registers themselves (`session_refines`).
-/

namespace RmiiEthernet.Driver

open Sync Utils RegisterMap UartApbBridge UartRegInterface

variable {S p : ℕ} {R : Fin (2 ^ S) → ℕ} {α : Type*}

/-- The registers as an interface. -/
def registerInterface (R : Fin (2 ^ S) → ℕ) : RegInterface (Registers R) where
  read address m := (answer m (.read address), m)
  write address data m := apply m (.write address data)

/-- A function of the driver, the bytes that the host has sent and the bridge has not received,
those that the bridge has sent and the host has not read, and the bridge with its slaves. -/
structure Session (S p : ℕ) (R : Fin (2 ^ S) → ℕ) (α : Type*) where
  process : Process α
  outgoing : List (BitVec 8)
  incoming : List (BitVec 8)
  device : Mapped S p R

/-- A step of the host, or a cycle of the bridge in which the next byte arrives, if there is one. -/
inductive Event
  | host
  | clock (arrives : Bool) (noise : BitVec 8)

namespace Session

/-- The outputs of the receiver of the bridge. -/
def rx (y : Session S p R α) (arrives : Bool) (noise : BitVec 8) : Rx where
  reset := false
  uartRxData := if arrives then y.outgoing.headD noise else noise
  uartRxValid := arrives && !y.outgoing.isEmpty

/-- A turn of the host. Of the system it is assumed that `::write` takes all the bytes it is given,
and that `::read` returns when there are four (`VMIN = 4`). -/
def hostStep (y : Session S p R α) : Session S p R α :=
  match y.process with
  | .returned _ => y
  | .thrown _ => y
  | .write bytes next =>
    { y with process := next bytes.length, outgoing := y.outgoing ++ bytes }
  | .read next =>
    match y.incoming with
    | b₀ :: b₁ :: b₂ :: b₃ :: rest =>
      { y with process := next 4 (word b₀ b₁ b₂ b₃), incoming := rest }
    | _ => y

/-- A step of a session. -/
def step (y : Session S p R α) : Event → Session S p R α
  | .host => y.hostStep
  | .clock arrives noise =>
    { y with
      outgoing := if arrives then y.outgoing.tail else y.outgoing
      incoming := y.incoming ++ taken y.device (y.rx arrives noise)
      device := systemStep y.device (y.rx arrives noise) }

/-- A function is called. -/
def start (x : Mapped S p R) (c : Calls α) : Session S p R α := ⟨c.toProcess, [], [], x⟩

end Session

/-! ## What is on its way -/

/-- The word that the driver sends for a read. -/
def readOf (address : BitVec 32) : Transaction := .read (readAddress address)

/-- The words that the driver sends for a write. -/
def writeOf (address data : BitVec 32) : Transaction := .write (writeAddress address) data

theorem getLsbD_readAddress (address : BitVec 32) (k : ℕ) :
    (readAddress address).getLsbD k = (decide (k < 31) && address.getLsbD k) := by
  have hmask : (0xFFFFFFFF#32 >>> 1) = BitVec.setWidth 32 (BitVec.allOnes 31) := by decide
  rw [readAddress, BitVec.zero_or, hmask, BitVec.getLsbD_and, BitVec.getLsbD_setWidth,
    BitVec.getLsbD_allOnes]
  by_cases hk : k < 31
  · simp [hk, show k < 32 by omega]
  · simp [hk]

theorem getLsbD_writeAddress (address : BitVec 32) (k : ℕ) :
    (writeAddress address).getLsbD k = (k == 31 || address.getLsbD k) := by
  have hbit : (1#32 <<< 31) = BitVec.twoPow 32 31 := by decide
  rw [writeAddress, hbit, BitVec.getLsbD_or, BitVec.getLsbD_twoPow]
  by_cases hk : k = 31
  · simp [hk]
  · simp [hk, Ne.symm hk]

theorem marked_readOf (address : BitVec 32) : Marked (readOf address) :=
  (getLsbD_readAddress address 31).trans rfl

theorem marked_writeOf (address data : BitVec 32) : Marked (writeOf address data) :=
  (getLsbD_writeAddress address 31).trans rfl

/-- The selection does not depend on the top bit. -/
theorem selection_eq {a b : BitVec 32} (hS : S ≤ 23) (h : ∀ k < 31, a.getLsbD k = b.getLsbD k) :
    slaveOf S a = slaveOf S b ∧ ∀ r, registerOf r a = registerOf r b := by
  have hbits (start len : ℕ) (hlen : start + len ≤ 31) :
      a.extractLsb' start len = b.extractLsb' start len := by
    refine BitVec.eq_of_getLsbD_eq fun k hk => ?_
    rw [BitVec.getLsbD_extractLsb', BitVec.getLsbD_extractLsb', h _ (by omega)]
  refine ⟨?_, fun r => ?_⟩
  · rw [slaveOf, slaveOf]
    congr 2
    exact hbits 8 S (by omega)
  · rw [registerOf, registerOf]
    congr 3
    exact hbits 0 8 (by omega)

theorem answer_readOf (hS : S ≤ 23) (m : Registers R) (address : BitVec 32) :
    answer m (readOf address) = answer m (.read address) := by
  obtain ⟨hslave, hregister⟩ := selection_eq (a := readAddress address) (b := address) hS
    fun k hk => by rw [getLsbD_readAddress]; simp [hk]
  rw [readOf, answer, answer, hregister, hslave]

theorem apply_writeOf (hS : S ≤ 23) (m : Registers R) (address data : BitVec 32) :
    apply m (writeOf address data) = apply m (.write address data) := by
  obtain ⟨hslave, hregister⟩ := selection_eq (a := writeAddress address) (b := address) hS
    fun k hk => by rw [getLsbD_writeAddress]; simp [show k ≠ 31 by omega]
  rw [writeOf, apply, apply, hregister, hslave]

/-- **What the session has done**: the bridge has been through the cycles `is`; the transactions
`ts` are over, and of the next one the host has sent `w`. -/
structure Follows (x : Mapped S p R) (y : Session S p R α) (is : List Rx) (ts : List Transaction)
    (w : List (BitVec 8)) (o : Owed) : Prop where
  device : y.device = run systemStep x is
  served : Served x is o
  marked : ∀ t ∈ ts, Marked t
  sent : collect systemStep received x is ++ y.outgoing = ts.flatMap wire ++ w
  got : collect systemStep taken x is =
    (RegisterMap.answers (registers x) ts).flatMap bytesOf ++ y.incoming

section Follows

variable {x : Mapped S p R} {y : Session S p R α} {is : List Rx} {ts : List Transaction}
  {w : List (BitVec 8)} {o : Owed} {t : Transaction}

/-- **One transaction at most is on its way.** The bridge has not completed it and owes nothing, or
it has all of it, and what has come back and what is owed make up the answer. -/
theorem Follows.cases (h : Follows x y is ts w o) (ht : Marked t) (hw : w <+: wire t) :
    (asked x is = ts ∧ y.incoming = [] ∧ o.bytes = [] ∧
        openBytes (collect systemStep received x is) ++ y.outgoing = w) ∨
      (asked x is = ts ++ [t] ∧ y.outgoing = [] ∧ w = wire t ∧
        bytesOf (answer (run apply (registers x) ts) t) = y.incoming ++ o.bytes) := by
  obtain ⟨v, hv⟩ := hw
  have hbytes := h.served.bytes
  have hwire : (asked x is).flatMap wire ++ openBytes (collect systemStep received x is) = _ :=
    flatMap_wire_transactions _
  have hpre : asked x is <+: ts ++ [t] := by
    have hmarked : ∀ u ∈ ts ++ [t], Marked u := fun u hu =>
      (List.mem_append.mp hu).elim (h.marked u) fun hu => List.mem_singleton.mp hu ▸ ht
    rw [← (host_flatMap_wire hmarked).2, asked, transactions, transactions]
    refine Sync.collect_prefix _ ⟨y.outgoing ++ v, ?_⟩
    rw [← List.append_assoc, h.sent, List.append_assoc, hv, List.flatMap_append,
      List.flatMap_singleton]
  have hlength : ts.length ≤ (asked x is).length := by
    have hall := congrArg List.length hbytes
    have hgot := congrArg List.length h.got
    simp only [List.length_append, length_answers] at hall hgot
    omega
  rcases List.prefix_concat_iff.mp hpre with hasked | hasked
  · right
    rw [hasked, List.flatMap_append, List.flatMap_singleton] at hwire
    rw [hasked, answers_append, List.flatMap_append, h.got, List.append_assoc,
      List.append_cancel_left_eq] at hbytes
    have hsent := h.sent
    rw [← hwire, List.append_assoc, List.append_assoc, List.append_cancel_left_eq] at hsent
    -- the host has sent all of it, and nothing else
    have hlen := congrArg List.length hsent
    have hlen' := congrArg List.length hv
    simp only [List.length_append] at hlen hlen'
    have hnone : y.outgoing = [] := List.eq_nil_of_length_eq_zero (by omega)
    have hrest : openBytes (collect systemStep received x is) = [] :=
      List.eq_nil_of_length_eq_zero (by omega)
    rw [hnone, hrest, List.append_nil, List.append_nil] at hsent
    exact ⟨hasked, hnone, hsent.symm, by simpa using hbytes⟩
  · left
    have heq : asked x is = ts := hasked.eq_of_length_le hlength
    rw [heq, h.got, List.append_assoc, List.self_eq_append_right, List.append_eq_nil_iff] at hbytes
    have hsent := h.sent
    rw [← hwire, heq, List.append_assoc, List.append_cancel_left_eq] at hsent
    exact ⟨heq, hbytes.1, hbytes.2, hsent⟩

/-- Before the next transaction nothing is on its way. -/
theorem Follows.between (h : Follows x y is ts [] o) :
    y.outgoing = [] ∧ y.incoming = [] ∧ o.bytes = [] ∧ asked x is = ts := by
  obtain ⟨hasked, hin, hbytes, hsent⟩ | ⟨-, -, hw, -⟩ :=
    h.cases (t := .read 0) rfl (List.nil_prefix)
  · exact ⟨(List.append_eq_nil_iff.mp hsent).2, hin, hbytes, hasked⟩
  · exact absurd hw.symm (wire_ne_nil _)

/-- As long as a byte has not been received, the answer has not begun. -/
theorem Follows.sending (h : Follows x y is ts w o) (ht : Marked t) (hw : w <+: wire t)
    (hout : y.outgoing ≠ []) : y.incoming = [] ∧ o.bytes = [] := by
  obtain ⟨-, hin, hbytes, -⟩ | ⟨-, hnone, -⟩ := h.cases ht hw
  · exact ⟨hin, hbytes⟩
  · exact absurd hnone hout

/-- The bridge has received the transaction. -/
theorem Follows.received_all (h : Follows x y is ts (wire t) o) (ht : Marked t)
    (hout : y.outgoing = []) : asked x is = ts ++ [t] ∧
      bytesOf (answer (run apply (registers x) ts) t) = y.incoming ++ o.bytes := by
  obtain ⟨hasked, -, -, hsent⟩ | ⟨hasked, -, -, hanswer⟩ := h.cases ht (List.prefix_rfl)
  · -- the bytes would be a transaction
    have hwire : (asked x is).flatMap wire ++ openBytes (collect systemStep received x is) = _ :=
      flatMap_wire_transactions _
    rw [hout, List.append_nil] at hsent
    rw [hsent, hasked, ← List.flatMap_singleton wire t, ← List.flatMap_append] at hwire
    have hmarked : ∀ u ∈ ts ++ [t], Marked u := fun u hu =>
      (List.mem_append.mp hu).elim (h.marked u) fun hu => List.mem_singleton.mp hu ▸ ht
    have hall := (host_flatMap_wire hmarked).2
    rw [hwire] at hall
    exact absurd (hasked.symm.trans hall) (by simp)
  · exact ⟨hasked, hanswer⟩

/-- **A cycle of the bridge.** -/
theorem Follows.clock (h : Follows x y is ts w o) (ht : Marked t) (hw : w <+: wire t)
    (arrives : Bool) (noise : BitVec 8) :
    ∃ js o', Follows x (y.step (.clock arrives noise)) js ts w o' ∧
      (2 ≤ p → (arrives = false ∨ y.outgoing = []) → o'.cycles ≤ o.cycles - 1) := by
  have hhost : (y.rx arrives noise).uartRxValid = true →
      openBytes (collect systemStep received x is) = [] → o.bytes = [] := by
    intro hvalid _
    refine (h.sending ht hw fun hnone => ?_).2
    simp [Session.rx, hnone] at hvalid
  obtain ⟨o', hserved, hcycles⟩ := h.served.concat (i := y.rx arrives noise) rfl hhost
  refine ⟨_, o', ⟨?_, hserved, h.marked, ?_, ?_⟩, fun hp hquiet => hcycles hp ?_⟩
  · rw [run_concat, ← h.device]
    rfl
  · rw [collect_concat, List.append_assoc, ← h.sent]
    congr 1
    cases arrives with
    | false => rfl
    | true =>
      cases hout : y.outgoing <;> simp [received, Session.rx, Session.step, hout]
  · rw [collect_concat, h.got, List.append_assoc, ← h.device]
    rfl
  · rcases hquiet with hquiet | hquiet <;> simp [Session.rx, hquiet]

/-- **The answer has come**: the transaction is over. -/
theorem Follows.answered (h : Follows x y is ts (wire t) o) (ht : Marked t)
    (hin : 4 ≤ y.incoming.length) (q : Process α) :
    y.incoming = bytesOf (answer (run apply (registers x) ts) t) ∧ y.outgoing = [] ∧
      Follows x { y with process := q, incoming := [] } is (ts ++ [t]) [] o := by
  have hout : y.outgoing = [] := by
    by_contra hne
    rw [(h.sending ht List.prefix_rfl hne).1] at hin
    simp at hin
  obtain ⟨-, hanswer⟩ := h.received_all ht hout
  have hlen := congrArg List.length hanswer
  rw [List.length_append] at hlen
  have hbytes : o.bytes = [] :=
    List.eq_nil_of_length_eq_zero (by change 4 = _ at hlen; omega)
  rw [hbytes, List.append_nil] at hanswer
  refine ⟨hanswer.symm, hout, h.device, h.served, fun u hu => ?_, ?_, ?_⟩
  · exact (List.mem_append.mp hu).elim (h.marked u) fun hu => List.mem_singleton.mp hu ▸ ht
  · rw [List.flatMap_append, List.flatMap_singleton, List.append_nil]
    exact h.sent
  · rw [answers_append, List.flatMap_append, h.got, ← hanswer, List.append_nil]
    rfl

/-- The host sends more of the transaction. -/
theorem Follows.send (h : Follows x y is ts w o) (q : Process α) (bytes : List (BitVec 8)) :
    Follows x { y with process := q, outgoing := y.outgoing ++ bytes } is ts (w ++ bytes) o := by
  refine ⟨h.device, h.served, h.marked, ?_, h.got⟩
  rw [← List.append_assoc, ← List.append_assoc]
  exact congrArg (· ++ bytes) h.sent

end Follows

/-! ## Where the driver is -/

/-- The cycles in which the bridge answers, at most, and one more. -/
def answerCycles (p : ℕ) : ℕ := 4 * bytePeriod p + 10

/-- The rounds that a call takes at most. -/
def callRounds (p : ℕ) : ℕ := 8 * answerCycles p + 3

/-- **Where the driver is** in its calls `c`: what it has sent for the first of them, what it does
next, and how many of the rounds of this call it does not need any more, besides those for the bytes
that are on their way. -/
inductive Stage (p : ℕ) : Calls α → List (BitVec 8) → Process α → ℕ → Prop
  | between (c : Calls α) : Stage p c [] c.toProcess 0
  | reads (address : BitVec 32) (next : BitVec 32 → Calls α) :
    Stage p (.read address next) (wire (readOf address))
      (.read fun ret response => (takeResponse ret response).bind fun v => (next v).toProcess)
      (8 * answerCycles p + 2)
  | announced (address data : BitVec 32) (next : Calls α) :
    Stage p (.write address data next) (bytesOf (writeAddress address))
      (.write (bytesOf data) fun ret =>
        (if ret ≠ 4 then Process.thrown "Failed to send write data"
          else .read (checkResponse data)).bind fun _ => next.toProcess)
      (4 * answerCycles p + 1)
  | writes (address data : BitVec 32) (next : Calls α) :
    Stage p (.write address data next) (wire (writeOf address data))
      (.read fun ret response => (checkResponse data ret response).bind fun _ => next.toProcess)
      (8 * answerCycles p + 2)

variable {x : Mapped S p R} {c₀ : Calls α} {y : Session S p R α} {n : ℕ}

theorem Stage.exists_marked {c : Calls α} {w : List (BitVec 8)} {q : Process α} {k : ℕ}
    (h : Stage p c w q k) : ∃ t, Marked t ∧ w <+: wire t := by
  cases h with
  | between => exact ⟨.read 0, rfl, List.nil_prefix⟩
  | reads address => exact ⟨_, marked_readOf address, List.prefix_rfl⟩
  | announced address data => exact ⟨_, marked_writeOf address data, List.prefix_append _ _⟩
  | writes address data => exact ⟨_, marked_writeOf address data, List.prefix_rfl⟩

/-- **The invariant of a session**: the calls that are left give what all of them give from the
first registers on, and `n` rounds are enough for them. -/
def Left (x : Mapped S p R) (c₀ : Calls α) (y : Session S p R α) (n : ℕ) : Prop :=
  ∃ is ts c w o k, Follows x y is ts w o ∧ Stage p c w y.process k ∧
    c.run (registerInterface R) (run apply (registers x) ts) =
      c₀.run (registerInterface R) (registers x) ∧
    n + k = c.count (registerInterface R) (run apply (registers x) ts) * callRounds p +
      (y.outgoing.length * answerCycles p + o.cycles)

/-- What the next step is that helps: the host goes on, or the bridge gets on with the call that the
host waits for. -/
def Helps (y : Session S p R α) : Event → Prop
  | .host => (∃ bytes next, y.process = .write bytes next) ∨
      ((∃ next, y.process = .read next) ∧ 4 ≤ y.incoming.length)
  | .clock arrives _ => (∃ next, y.process = .read next) ∧ y.incoming.length < 4 ∧
      (arrives = true ∨ y.outgoing = [])

section Steps

variable {c : Calls α} {w : List (BitVec 8)} {q : Process α} {k : ℕ}

theorem Calls.toProcess_ne_read (c : Calls α) (next : ℤ → BitVec 32 → Process α) :
    c.toProcess ≠ .read next := by
  intro h
  cases c <;> simp [toProcess, UartRegInterface.read, UartRegInterface.write, Process.bind] at h

theorem Stage.of_read {next : ℤ → BitVec 32 → Process α} (h : Stage p c w (.read next) k) :
    ∃ t, Marked t ∧ w = wire t := by
  generalize hq : Process.read next = q at h
  cases h with
  | between c => exact absurd hq.symm (c.toProcess_ne_read next)
  | reads address => exact ⟨_, marked_readOf address, rfl⟩
  | announced => cases hq
  | writes address data => exact ⟨_, marked_writeOf address data, rfl⟩

/-- A call that has not ended needs another round. -/
theorem Stage.lt {σ : Type*} {r : RegInterface σ} {m : σ} (h : Stage p c w q k)
    (hc : 0 < c.count r m) : k < c.count r m * callRounds p := by
  have hk : k < callRounds p := by
    rw [callRounds]
    cases h <;> omega
  exact hk.trans_le (Nat.le_mul_of_pos_left _ hc)

theorem Stage.le {σ : Type*} {r : RegInterface σ} {m : σ} (h : Stage p c w q k) :
    k ≤ c.count r m * callRounds p := by
  rcases Nat.eq_zero_or_pos (c.count r m) with hc | hc
  · cases h with
    | between => exact Nat.zero_le _
    | reads | announced | writes => cases hc
  · exact (h.lt hc).le

theorem hostStep_write {bytes : List (BitVec 8)} {next : ℤ → Process α}
    (hq : y.process = .write bytes next) : y.hostStep =
      { y with process := next bytes.length, outgoing := y.outgoing ++ bytes } := by
  rw [Session.hostStep, hq]

theorem hostStep_read {next : ℤ → BitVec 32 → Process α} {v : BitVec 32}
    (hq : y.process = .read next) (hin : y.incoming = bytesOf v) :
    y.hostStep = { y with process := next 4 v, incoming := [] } := by
  rw [← word_byteOf v, Session.hostStep, hq]
  simp only [hin, bytesOf]

theorem hostStep_blocked {next : ℤ → BitVec 32 → Process α} (hq : y.process = .read next)
    (hin : y.incoming.length < 4) : y.hostStep = y := by
  rw [Session.hostStep, hq]
  match h : y.incoming with
  | [] | [_] | [_, _] | [_, _, _] => rfl
  | _ :: _ :: _ :: _ :: _ =>
    rw [h] at hin
    simp only [List.length_cons] at hin
    omega

/-- **A cycle of the bridge.** -/
theorem left_clock (hp : 2 ≤ p) (h : Left x c₀ y n) (arrives : Bool) (noise : BitVec 8) :
    ∃ m, Left x c₀ (y.step (.clock arrives noise)) m ∧
      (m < n ∨ m = n ∧ ¬ Helps y (.clock arrives noise) ∧
        ∀ e, Helps y e → Helps (y.step (.clock arrives noise)) e) := by
  obtain ⟨is, ts, c, w, o, k, hfollows, hstage, hrun, hn⟩ := h
  obtain ⟨t, ht, hw⟩ := hstage.exists_marked
  obtain ⟨js, o', hfollows', hcycles⟩ := hfollows.clock ht hw arrives noise
  have hle := hstage.le (r := registerInterface R) (m := run apply (registers x) ts)
  set calls := c.count (registerInterface R) (run apply (registers x) ts) * callRounds p
  have hleft : Left x c₀ (y.step (.clock arrives noise)) (calls - k +
      ((y.step (.clock arrives noise)).outgoing.length * answerCycles p + o'.cycles)) :=
    ⟨js, ts, c, w, o', k, hfollows', hstage, hrun, by omega⟩
  refine ⟨_, hleft, ?_⟩
  by_cases harrives : arrives = true ∧ y.outgoing ≠ []
  · -- a byte arrives
    left
    obtain ⟨rfl, hout⟩ := harrives
    obtain ⟨b, bs, hbs⟩ := List.exists_cons_of_ne_nil hout
    have hless := hfollows'.served.phase.le.2.2
    have htail : (y.step (.clock true noise)).outgoing = bs := by simp [Session.step, hbs]
    rw [hbs, List.length_cons, Nat.add_mul, Nat.one_mul] at hn
    rw [htail]
    simp only [answerCycles] at *
    omega
  · have hquiet : arrives = false ∨ y.outgoing = [] := by
      cases arrives with
      | false => exact .inl rfl
      | true => exact .inr (by simpa using harrives)
    have hsame : (y.step (.clock arrives noise)).outgoing = y.outgoing := by
      rcases hquiet with rfl | hout
      · rfl
      · simp [Session.step, hout]
    have hless := hcycles hp hquiet
    rw [hsame]
    by_cases hhelps : Helps y (.clock arrives noise)
    · -- the answer is on its way
      left
      obtain ⟨⟨next, hq⟩, hin, hor⟩ := hhelps
      have hout : y.outgoing = [] := by
        rcases hor with rfl | hout
        · exact hquiet.resolve_left Bool.false_ne_true.symm
        · exact hout
      rw [hq] at hstage
      obtain ⟨u, hu, rfl⟩ := hstage.of_read
      obtain ⟨-, hanswer⟩ := hfollows.received_all hu hout
      have hpos : o.cycles ≠ 0 := fun hzero => by
        rw [hfollows.served.phase.bytes_eq_nil hzero, List.append_nil] at hanswer
        rw [← hanswer] at hin
        simp [bytesOf] at hin
      omega
    · by_cases hlt : o'.cycles < o.cycles
      · left
        omega
      · right
        refine ⟨by omega, hhelps, fun e he => ?_⟩
        cases e with
        | host =>
          refine he.imp id fun hread => ⟨hread.1, hread.2.trans ?_⟩
          simp [Session.step]
        | clock arrives' noise' =>
          -- the next byte has to arrive first
          obtain ⟨hread, hin, hor⟩ := he
          have hout : y.outgoing ≠ [] := fun hout => hhelps ⟨hread, hin, .inr hout⟩
          have hnone := (hfollows'.sending ht hw (by rwa [hsame])).1
          exact ⟨hread, by simp [hnone], hor.imp_right fun hout' => absurd hout' hout⟩

theorem helps_of_read {next : ℤ → BitVec 32 → Process α} (hq : y.process = .read next)
    (hin : y.incoming.length < 4) : ¬ Helps y .host := by
  rintro (⟨bytes, next', hq'⟩ | ⟨-, hin'⟩)
  · rw [hq] at hq'
    cases hq'
  · omega

/-- The host has its answer and goes on to the next call. -/
theorem Follows.left_next {is : List Rx} {ts : List Transaction} {o : Owed} {t : Transaction}
    {next : Calls α} (h : Follows x y is ts (wire t) o) (ht : Marked t)
    (hin : 4 ≤ y.incoming.length)
    (hstep : y.hostStep = { y with process := next.toProcess, incoming := [] })
    (hrun : next.run (registerInterface R) (run apply (registers x) (ts ++ [t])) =
      c₀.run (registerInterface R) (registers x))
    (hn : n + (8 * answerCycles p + 2) =
      (next.count (registerInterface R) (run apply (registers x) (ts ++ [t])) + 1) * callRounds p +
        (y.outgoing.length * answerCycles p + o.cycles)) :
    ∃ m < n, Left x c₀ y.hostStep m := by
  obtain ⟨-, hout, hnext⟩ := h.answered ht hin next.toProcess
  rw [hout, List.length_nil, Nat.zero_mul, Nat.add_mul, Nat.one_mul] at hn
  rw [hstep]
  have hcall : callRounds p = 8 * answerCycles p + 3 := rfl
  set calls := next.count (registerInterface R) (run apply (registers x) (ts ++ [t])) * callRounds p
  refine ⟨calls + o.cycles, by omega, is, ts ++ [t], next, [], o, 0, hnext, .between next, hrun, ?_⟩
  rw [hout, List.length_nil, Nat.zero_mul, Nat.zero_add, Nat.add_zero]

/-- **A step of the host.** -/
theorem left_host (hS : S ≤ 23) (h : Left x c₀ y n) :
    ∃ m, Left x c₀ y.hostStep m ∧
      (m < n ∨ m = n ∧ ¬ Helps y .host ∧ ∀ e, Helps y e → Helps y.hostStep e) := by
  have hblocked (hnot : ¬ Helps y .host) (hstep : y.hostStep = y) :
      ∃ m, Left x c₀ y.hostStep m ∧
        (m < n ∨ m = n ∧ ¬ Helps y .host ∧ ∀ e, Helps y e → Helps y.hostStep e) := by
    rw [hstep]
    exact ⟨n, h, .inr ⟨rfl, hnot, fun _ he => he⟩⟩
  obtain ⟨is, ts, c, w, o, k, hfollows, hstage, hrun, hn⟩ := h
  have hcall : callRounds p = 8 * answerCycles p + 3 := rfl
  have hle := hstage.le (r := registerInterface R) (m := run apply (registers x) ts)
  -- the answer is there, or the host waits
  have hread {next : ℤ → BitVec 32 → Process α} (hq : y.process = .read next)
      (hgo : 4 ≤ y.incoming.length → ∃ m < n, Left x c₀ y.hostStep m) :
      ∃ m, Left x c₀ y.hostStep m ∧
        (m < n ∨ m = n ∧ ¬ Helps y .host ∧ ∀ e, Helps y e → Helps y.hostStep e) := by
    by_cases hin : y.incoming.length < 4
    · exact hblocked (helps_of_read hq hin) (hostStep_blocked hq hin)
    · obtain ⟨m, hm, hleft⟩ := hgo (by omega)
      exact ⟨m, hleft, .inl hm⟩
  generalize hq : y.process = q at hstage
  cases hstage with
  | between c =>
    obtain ⟨hout, -, -, -⟩ := hfollows.between
    rw [hout, List.length_nil, Nat.zero_mul] at hn
    cases c with
    | done a =>
      refine hblocked ?_ (by rw [Session.hostStep, hq]; rfl)
      rintro (⟨bytes, next, hq'⟩ | ⟨⟨next, hq'⟩, -⟩) <;> cases hq.symm.trans hq'
    | read address next =>
      have hcalls : callRounds p ≤ (Calls.read address next).count (registerInterface R)
          (run apply (registers x) ts) * callRounds p :=
        Nat.le_mul_of_pos_left _ (Nat.succ_pos _)
      rw [hostStep_write hq]
      refine ⟨n - (4 * answerCycles p + 2), ⟨is, ts, _, _, o, _, hfollows.send _ _,
        .reads address next, hrun, ?_⟩, .inl (by omega)⟩
      rw [hout]
      simp only [List.nil_append, bytesOf, List.length_cons, List.length_nil]
      omega
    | write address data next =>
      have hcalls : callRounds p ≤ (Calls.write address data next).count (registerInterface R)
          (run apply (registers x) ts) * callRounds p :=
        Nat.le_mul_of_pos_left _ (Nat.succ_pos _)
      rw [hostStep_write hq]
      refine ⟨n - 1, ⟨is, ts, _, _, o, _, hfollows.send _ _,
        .announced address data next, hrun, ?_⟩, .inl (by omega)⟩
      rw [hout]
      simp only [List.nil_append, bytesOf, List.length_cons, List.length_nil]
      omega
  | reads address next =>
    refine hread hq fun hin => ?_
    have ht := marked_readOf address
    have hanswer := (hfollows.answered ht hin y.process).1
    rw [answer_readOf hS] at hanswer
    refine hfollows.left_next ht hin (hostStep_read hq hanswer) ?_ ?_
    · rw [run_append]
      exact hrun
    · rw [run_append]
      exact hn
  | announced address data next =>
    have hcalls : callRounds p ≤ (Calls.write address data next).count (registerInterface R)
        (run apply (registers x) ts) * callRounds p :=
      Nat.le_mul_of_pos_left _ (Nat.succ_pos _)
    rw [hostStep_write hq]
    refine ⟨n - 1, ⟨is, ts, _, _, o, _, hfollows.send _ _,
      .writes address data next, hrun, ?_⟩, .inl (by omega)⟩
    simp only [List.length_append, Nat.add_mul, bytesOf, List.length_cons, List.length_nil]
    omega
  | writes address data next =>
    refine hread hq fun hin => ?_
    have ht := marked_writeOf address data
    have hanswer := (hfollows.answered ht hin y.process).1
    have hstep : y.hostStep = { y with process := next.toProcess, incoming := [] } := by
      rw [hostStep_read hq hanswer]
      simp [checkResponse, writeOf, answer, Process.bind]
    refine hfollows.left_next ht hin hstep ?_ ?_
    · rw [run_append, run_cons, run_nil, apply_writeOf hS]
      exact hrun
    · rw [run_append, run_cons, run_nil, apply_writeOf hS]
      exact hn

end Steps

/-- The steps of a session make progress. -/
theorem progress_session (hp : 2 ≤ p) (hS : S ≤ 23) (x : Mapped S p R) (c₀ : Calls α) :
    Progress Session.step (fun _ _ => True) (Left x c₀) Helps := by
  intro y n e h _
  obtain ⟨m, hleft, hle⟩ : ∃ m, Left x c₀ (y.step e) m ∧
      (m < n ∨ m = n ∧ ¬ Helps y e ∧ ∀ f, Helps y f → Helps (y.step e) f) := by
    cases e with
    | host => exact left_host hS h
    | clock arrives noise => exact left_clock hp h arrives noise
  exact ⟨m, hleft, hle.imp_right fun hstays => ⟨hstays.1, fun _ => hstays.2⟩⟩

theorem left_start (hx : SystemPowerUp x) (c : Calls α) : Left x c (Session.start x c)
    (c.count (registerInterface R) (registers x) * callRounds p) :=
  ⟨[], [], c, [], _, 0, ⟨rfl, served_powerUp hx, by simp, rfl, rfl⟩, .between c, rfl,
    by simp [Session.start]⟩

/-- What a session does next, or what it has done. -/
theorem Left.process (h : Left x c₀ y n) :
    (∃ a, y.process = .returned a ∧ n = 0 ∧
        (a, registers y.device) = c₀.run (registerInterface R) (registers x)) ∨
      0 < n ∧ ((∃ bytes next, y.process = .write bytes next) ∨ ∃ next, y.process = .read next) := by
  obtain ⟨is, ts, c, w, o, k, hfollows, hstage, hrun, hn⟩ := h
  have hlt := hstage.lt (r := registerInterface R) (m := run apply (registers x) ts)
  generalize hq : y.process = q at hstage
  cases hstage with
  | between c =>
    cases c with
    | done a =>
      left
      obtain ⟨hout, -, hbytes, hasked⟩ := hfollows.between
      obtain ⟨htodo, -⟩ := hfollows.served.phase.settled hbytes
      obtain ⟨done, hdone, hregisters⟩ := hfollows.served.todo
      rw [htodo, List.append_nil, hasked] at hdone
      rw [hout, hfollows.served.phase.cycles_eq_zero hbytes] at hn
      refine ⟨a, rfl, by simpa [Calls.count] using hn, ?_⟩
      rw [hfollows.device, hregisters, ← hdone]
      exact hrun
    | read address next =>
      have := hlt (Nat.succ_pos _)
      exact .inr ⟨by omega, .inl ⟨_, _, rfl⟩⟩
    | write address data next =>
      have := hlt (Nat.succ_pos _)
      exact .inr ⟨by omega, .inl ⟨_, _, rfl⟩⟩
  | reads address next =>
    have := hlt (Nat.succ_pos _)
    exact .inr ⟨by omega, .inr ⟨_, rfl⟩⟩
  | announced address data next =>
    have := hlt (Nat.succ_pos _)
    exact .inr ⟨by omega, .inl ⟨_, _, rfl⟩⟩
  | writes address data next =>
    have := hlt (Nat.succ_pos _)
    exact .inr ⟨by omega, .inr ⟨_, rfl⟩⟩

/-- A round in which the host has a turn and a byte may arrive helps. -/
theorem Left.exists_helps (h : Left x c₀ y n) (hn : 0 < n) {r : List Event}
    (hr : .host ∈ r ∧ ∃ noise, .clock true noise ∈ r) : ∃ e ∈ r, Helps y e := by
  obtain ⟨hhost, noise, hclock⟩ := hr
  obtain ⟨a, -, hzero, -⟩ | ⟨-, hwrite | hread⟩ := h.process
  · omega
  · exact ⟨_, hhost, .inl hwrite⟩
  · by_cases hin : 4 ≤ y.incoming.length
    · exact ⟨_, hhost, .inr ⟨hread, hin⟩⟩
    · exact ⟨_, hclock, hread, by omega, .inl rfl⟩

/-- **The driver sees the registers.** Whatever the driver calls, depending on what it has read, and
in whatever order the host and the bridge take their steps and the bytes arrive: no call throws;
when the driver has its result, this and the contents of the registers are those of calls to the
registers themselves; and it has its result after a bounded number of rounds in each of which the
host has a turn and the line brings a byte if there is one. -/
theorem session_refines (hp : 2 ≤ p) (hS : S ≤ 23) (hx : SystemPowerUp x) (c : Calls α)
    (es : List Event) :
    let y := run Session.step (Session.start x c) es
    (∀ what, y.process ≠ .thrown what) ∧
      (∀ a, y.process = .returned a →
        (a, registers y.device) = c.run (registerInterface R) (registers x)) ∧
      ∀ (fs : List Event) (rs : List (List Event)), es = fs ++ rs.flatten →
        (∀ r ∈ rs, .host ∈ r ∧ ∃ noise, .clock true noise ∈ r) →
        c.count (registerInterface R) (registers x) * callRounds p ≤ rs.length →
        ∃ a, y.process = .returned a := by
  intro y
  have hprogress := progress_session hp hS x c
  have hstart := left_start hx c
  have hallowed (z : Session S p R α) (fs : List Event) :
      Always Session.step (fun _ _ => True) z fs := always_of_forall (fun _ _ => trivial) z
  obtain ⟨n, -, hleft⟩ := hprogress.run_le hstart (hallowed _ es)
  refine ⟨fun what hq => ?_, fun a ha => ?_, ?_⟩
  · obtain ⟨a, ha, -⟩ | ⟨-, ⟨bytes, next, ha⟩ | ⟨next, ha⟩⟩ := hleft.process <;>
      cases hq.symm.trans ha
  · obtain ⟨b, hb, -, hrun⟩ | ⟨-, ⟨bytes, next, hb⟩ | ⟨next, hb⟩⟩ := hleft.process <;>
      cases ha.symm.trans hb
    exact hrun
  · rintro fs rs rfl hrs hlength
    obtain ⟨m, hm, hfs⟩ := hprogress.run_le hstart (hallowed _ fs)
    obtain ⟨l, hl, hend⟩ :=
      hprogress.rounds (fun r hr _ _ h hpos => h.exists_helps hpos (hrs r hr)) hfs (hallowed _ _)
    rw [← run_append] at hend
    obtain ⟨a, ha, -⟩ | ⟨hpos, -⟩ := hend.process
    · exact ⟨a, ha⟩
    · omega

/-- A register is written and read back. -/
theorem session_refines_read_back :
    (run Session.step
      (Session.start bench (.write 0x101 0xdeadbeef (.read 0x101 .done)))
      (List.replicate 4134 [.host, .clock true 0]).flatten).process = .returned 0xdeadbeef := by
  have hrounds : ∀ r ∈ List.replicate 4134 [Event.host, .clock true 0],
      .host ∈ r ∧ ∃ noise, .clock true noise ∈ r := by
    intro r hr
    rw [List.eq_of_mem_replicate hr]
    exact ⟨by simp, 0, by simp⟩
  obtain ⟨-, hrun, hends⟩ := session_refines (x := bench) (by decide) (by decide)
    (systemPowerUp_blank _ 4 _) (.write 0x101 0xdeadbeef (.read 0x101 .done))
    (List.replicate 4134 [.host, .clock true 0]).flatten
  obtain ⟨a, ha⟩ := hends [] _ (List.nil_append _).symm hrounds
    (by rw [List.length_replicate]; decide)
  have hvalue : ((Calls.write 0x101 0xdeadbeef (.read 0x101 .done)).run
      (registerInterface fun _ => 1) (registers bench)).1 = 0xdeadbeef := by decide
  rw [ha, ← hvalue, ← hrun a ha]

end RmiiEthernet.Driver
