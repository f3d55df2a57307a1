import RmiiEthernet.Arp.Pending
import RmiiEthernet.Ethernet.Deframer
import RmiiEthernet.Udp.Deframer

/-!
# Received requests

The parser of `arp` counts the bytes of a received frame with seven bits and compares each byte
where it stands: four flags remember whether everything has agreed so far, three shift registers
collect the addresses, and the byte with number 41 decides.

`Parses` says what the registers hold after the cycles `l` in which the bytes of the frame in
progress have arrived, as long as the decision is still ahead; every flag is set anew in every
frame before it is used, so nothing is left over from the frame before.

* `matched_iff`: for frames of at most 128 bytes the parser notices the requests for the own
  address, if and only if none of them is complete in the cycle after a reply has been started, and
  all those are whose destination agrees with the own address or with the broadcast address byte by
  byte without being one of them.
* `replyPending_of_alike`: for frames of at most 169 bytes the bytes behind the ARP header have no
  influence. The byte with number 169 is taken for number 41 again.
* `Heard`: a reply that waits is for the sender of a request that has been received.
-/

namespace RmiiEthernet.Arp

open Sync EthernetFcs EthernetFrame Udp

/-! ## One byte -/

section Bytes

variable {i : Inputs} {l : List Inputs} {a b n : ℕ}

/-- The fixed bytes of a request: those with the numbers 12 to 21. -/
def requestBytes : List Byte := [0x08, 0x06, 0x00, 0x01, 0x08, 0x00, 0x06, 0x04, 0x00, 0x01]

/-- The byte with number `n` of a frame agrees with what the parser compares it to. -/
def agrees (n : ℕ) (i : Inputs) : Bool :=
  if n < 6 then macByteMatches i n
  else if 12 ≤ n ∧ n < 22 then i.rxAxisTdata == requestBytes.getD (n - 12) 0
  else true

/-- A flag for the bytes with the numbers `a` to `b - 1` after the byte with number `n`. -/
def flagNext (a b n : ℕ) (flag ok : Bool) : Bool :=
  if n = a then ok else if a < n ∧ n < b then flag && ok else flag

theorem destMacMatchNext_eq (r : Parser) (i : Inputs) : destMacMatchNext r i =
    flagNext 0 6 r.rxByteCnt.toNat r.rxDestMacMatch (agrees r.rxByteCnt.toNat i) := by
  unfold destMacMatchNext
  split <;> simp_all [flagNext, agrees]
  omega

theorem ethertypeMatchNext_eq (r : Parser) (i : Inputs) : ethertypeMatchNext r i =
    flagNext 12 14 r.rxByteCnt.toNat r.rxEthertypeMatch (agrees r.rxByteCnt.toNat i) := by
  unfold ethertypeMatchNext
  split <;> simp_all [flagNext, agrees, requestBytes]
  omega

theorem hwProtoMatchNext_eq (r : Parser) (i : Inputs) : hwProtoMatchNext r i =
    flagNext 14 20 r.rxByteCnt.toNat r.rxHwProtoMatch (agrees r.rxByteCnt.toNat i) := by
  unfold hwProtoMatchNext
  split <;> simp_all [flagNext, agrees, requestBytes]
  omega

theorem opcodeIsReqNext_eq (r : Parser) (i : Inputs) : opcodeIsReqNext r i =
    flagNext 20 22 r.rxByteCnt.toNat r.rxOpcodeIsReq (agrees r.rxByteCnt.toNat i) := by
  unfold opcodeIsReqNext
  split <;> simp_all [flagNext, agrees, requestBytes]
  omega

/-- The bytes with the numbers `a` to `b - 1` have agreed, as far as they have arrived. -/
def AgreeOn (a b : ℕ) (l : List Inputs) : Prop :=
  ∀ n i, a ≤ n → n < b → l[n]? = some i → agrees n i = true

theorem agreeOn_concat : AgreeOn a b (l ++ [i]) ↔
    AgreeOn a b l ∧ (a ≤ l.length → l.length < b → agrees l.length i = true) := by
  constructor
  · intro h
    refine ⟨fun n j ha hb hj => h n j ha hb ?_, fun ha hb => h _ i ha hb (by simp)⟩
    rw [List.getElem?_append_left (List.getElem?_eq_some_iff.mp hj).1]
    exact hj
  · rintro ⟨h, hi⟩ n j ha hb hj
    by_cases hn : n < l.length
    · rw [List.getElem?_append_left hn] at hj
      exact h n j ha hb hj
    · obtain rfl : n = l.length := by
        have := (List.getElem?_eq_some_iff.mp hj).1
        simp at this
        omega
      simp at hj
      exact hj ▸ hi ha hb

theorem agreeOn_of_length_le (h : l.length ≤ a) : AgreeOn a b l := by
  intro n j ha hb hj
  have := (List.getElem?_eq_some_iff.mp hj).1
  omega

theorem agreeOn_split {c : ℕ} (hab : a ≤ b) (hbc : b ≤ c) :
    AgreeOn a c l ↔ AgreeOn a b l ∧ AgreeOn b c l := by
  constructor
  · exact fun h => ⟨fun n j ha hb => h n j ha (by omega), fun n j ha hb => h n j (by omega) hb⟩
  · rintro ⟨h₁, h₂⟩ n j ha hb
    by_cases hn : n < b
    · exact h₁ n j ha hn
    · exact h₂ n j (by omega) hb

/-- **A flag** tells, once it has been set, whether the bytes of its range have agreed. -/
theorem flagNext_iff {flag : Bool} (hab : a < b)
    (h : a + 1 ≤ l.length → (flag = true ↔ AgreeOn a b l)) (hlen : a ≤ l.length) :
    flagNext a b l.length flag (agrees l.length i) = true ↔ AgreeOn a b (l ++ [i]) := by
  rw [agreeOn_concat, flagNext]
  by_cases heq : l.length = a
  · have := agreeOn_of_length_le (b := b) heq.le
    simp [heq, hab, this]
  · rw [if_neg heq]
    have h := h (by omega)
    by_cases hb : l.length < b
    · rw [if_pos ⟨by omega, hb⟩, Bool.and_eq_true, h]
      simp [hb, hlen]
    · rw [if_neg (by omega), h]
      simp [hb]

/-- The bytes with the numbers `a` to `b - 1`, as far as they have arrived. -/
def segment {α : Type*} (a b : ℕ) (l : List α) : List α := (l.take b).drop a

theorem segment_concat {α : Type*} (a b : ℕ) (l : List α) (x : α) :
    segment a b (l ++ [x]) =
      segment a b l ++ if a ≤ l.length ∧ l.length < b then [x] else [] := by
  unfold segment
  by_cases hb : l.length < b
  · rw [List.take_of_length_le (by simp; omega), List.take_of_length_le hb.le]
    by_cases ha : a ≤ l.length
    · rw [List.drop_append_of_le_length ha, if_pos ⟨ha, hb⟩]
    · rw [List.drop_of_length_le (by simp; omega), List.drop_of_length_le (by omega),
        if_neg (by omega), List.append_nil]
  · rw [List.take_append_of_le_length (by omega), if_neg (by omega), List.append_nil]

/-- **A shift register** that takes the bytes of a range. -/
theorem exists_foldl_segment {β : Type*} {f : β → Byte → β} {r : β} {m : List Byte} {x : Byte}
    (h : ∃ c, r = (segment a b m).foldl f c) :
    ∃ c, (if a ≤ m.length ∧ m.length < b then f r x else r) =
      (segment a b (m ++ [x])).foldl f c := by
  obtain ⟨c, hc⟩ := h
  refine ⟨c, ?_⟩
  rw [segment_concat]
  split <;> simp [hc]

end Bytes

/-! ## The registers of the parser -/

section Parses

variable {r : Parser} {i : Inputs} {l : List Inputs} {started : Bool}

/-- The bytes that have arrived in the cycles `l`. -/
def rxBytes (l : List Inputs) : List Byte := l.map (·.rxAxisTdata)

@[simp] theorem length_rxBytes (l : List Inputs) : (rxBytes l).length = l.length :=
  List.length_map _

theorem rxBytes_concat (l : List Inputs) (i : Inputs) :
    rxBytes (l ++ [i]) = rxBytes l ++ [i.rxAxisTdata] := by simp [rxBytes]

/-- **The parser** after the cycles `l` in which the bytes of the frame in progress have arrived. -/
structure Parses (r : Parser) (l : List Inputs) : Prop where
  count : r.rxByteCnt = BitVec.ofNat 7 l.length
  dest : 1 ≤ l.length → l.length ≤ 41 → (r.rxDestMacMatch = true ↔ AgreeOn 0 6 l)
  ethertype : 13 ≤ l.length → l.length ≤ 41 → (r.rxEthertypeMatch = true ↔ AgreeOn 12 14 l)
  hwProto : 15 ≤ l.length → l.length ≤ 41 → (r.rxHwProtoMatch = true ↔ AgreeOn 14 20 l)
  opcode : 21 ≤ l.length → l.length ≤ 41 → (r.rxOpcodeIsReq = true ↔ AgreeOn 20 22 l)
  sha : l.length ≤ 41 →
    ∃ c, r.rxShaShift = (segment 22 28 (rxBytes l)).foldl EthernetDeframer.shiftIn c
  spa : l.length ≤ 41 → ∃ c, r.rxSpaShift = (segment 28 32 (rxBytes l)).foldl UdpDeframer.shiftIn c
  tpa : l.length ≤ 41 → ∃ c, r.rxTpaShift = (segment 38 42 (rxBytes l)).foldl UdpDeframer.shiftIn c

theorem parses_nil (h : r.rxByteCnt = 0#7) : Parses r [] :=
  ⟨h, by simp, by simp, by simp, by simp, fun _ => ⟨_, rfl⟩, fun _ => ⟨_, rfl⟩, fun _ => ⟨_, rfl⟩⟩

theorem Parses.toNat_count (h : Parses r l) (hlen : l.length < 128) :
    r.rxByteCnt.toNat = l.length := by
  rw [h.count, BitVec.toNat_ofNat, Nat.mod_eq_of_lt hlen]

theorem cntIn_eq (hcount : r.rxByteCnt.toNat = l.length) (a b : ℕ) :
    cntIn r a b = decide (a ≤ (rxBytes l).length ∧ (rxBytes l).length < b + 1) := by
  simp only [cntIn, hcount, length_rxBytes, Bool.decide_and, Nat.lt_succ_iff]

/-- A cycle without a byte. -/
theorem Parses.step_quiet (h : Parses r l) (hreset : i.reset = false)
    (hv : i.rxAxisTvalid = false) : Parses (r.step i started) l := by
  simp only [Parser.step, hreset, hv, Bool.false_and, Bool.false_eq_true, if_false]
  exact ⟨h.count, h.dest, h.ethertype, h.hwProto, h.opcode, h.sha, h.spa, h.tpa⟩

/-- A byte of a frame that goes on. -/
theorem Parses.step_byte (h : Parses r l) (hreset : i.reset = false) (hv : i.rxAxisTvalid = true)
    (hl : i.rxAxisTlast = false) : Parses (r.step i started) (l ++ [i]) := by
  have hcount : (r.step i started).rxByteCnt = BitVec.ofNat 7 (l ++ [i]).length := by
    simp [Parser.step, hreset, hv, hl, h.count, BitVec.ofNat_add]
  by_cases hlen : l.length ≤ 40
  · have hnat := h.toNat_count (by omega)
    simp only [Parser.step, hreset, hv, hl, destMacMatchNext_eq, ethertypeMatchNext_eq,
      hwProtoMatchNext_eq, opcodeIsReqNext_eq, hnat, cntIn_eq hnat, Bool.true_and,
      decide_eq_true_eq, if_true, Bool.false_eq_true, if_false] at hcount ⊢
    refine ⟨hcount, fun hlo hhi => ?_, fun hlo hhi => ?_, fun hlo hhi => ?_, fun hlo hhi => ?_,
      fun _ => ?_, fun _ => ?_, fun _ => ?_⟩
    · exact flagNext_iff (by omega) (fun h' => h.dest h' (by omega)) (by simp at hlo; omega)
    · exact flagNext_iff (by omega) (fun h' => h.ethertype h' (by omega)) (by simp at hlo; omega)
    · exact flagNext_iff (by omega) (fun h' => h.hwProto h' (by omega)) (by simp at hlo; omega)
    · exact flagNext_iff (by omega) (fun h' => h.opcode h' (by omega)) (by simp at hlo; omega)
    · rw [rxBytes_concat]
      exact exists_foldl_segment (h.sha (by omega))
    · rw [rxBytes_concat]
      exact exists_foldl_segment (h.spa (by omega))
    · rw [rxBytes_concat]
      exact exists_foldl_segment (h.tpa (by omega))
  · have hlong : ¬ (l ++ [i]).length ≤ 41 := by
      simp
      omega
    exact ⟨hcount, fun _ h' => absurd h' hlong, fun _ h' => absurd h' hlong,
      fun _ h' => absurd h' hlong, fun _ h' => absurd h' hlong, fun h' => absurd h' hlong,
      fun h' => absurd h' hlong, fun h' => absurd h' hlong⟩

/-- The last byte of a frame, or a reset. -/
theorem parses_step_nil (h : i.reset = true ∨ (i.rxAxisTvalid = true ∧ i.rxAxisTlast = true)) :
    Parses (r.step i started) [] := by
  apply parses_nil
  rcases h with h | ⟨hv, hl⟩
  · simp [Parser.step, h]
  · cases hreset : i.reset <;> simp [Parser.step, hreset, hv, hl]

/-- The cycles of the frame in progress after one more cycle. -/
def frameStep (l : List Inputs) (i : Inputs) : List Inputs :=
  if i.reset then [] else if i.rxAxisTvalid then (if i.rxAxisTlast then [] else l ++ [i]) else l

/-- **One cycle** of the parser. -/
theorem Parses.step (h : Parses r l) : Parses (r.step i started) (frameStep l i) := by
  unfold frameStep
  cases hreset : i.reset with
  | true => exact parses_step_nil (.inl hreset)
  | false =>
    cases hv : i.rxAxisTvalid with
    | false => exact h.step_quiet hreset hv
    | true =>
      cases hl : i.rxAxisTlast with
      | true => exact parses_step_nil (.inr ⟨hv, hl⟩)
      | false => exact h.step_byte hreset hv hl

theorem bytes32_shiftIn (c : BitVec 32) (b : Byte) :
    bytes32 (UdpDeframer.shiftIn c b) = (bytes32 c).tail ++ [b] := by
  have hshift (k : ℕ) (hk : k + 8 ≤ 24) :
      (UdpDeframer.shiftIn c b).extractLsb' (k + 8) 8 = c.extractLsb' k 8 := by
    ext n hn
    simp only [← BitVec.getLsbD_eq_getElem, BitVec.getLsbD_extractLsb']
    rw [UdpDeframer.getLsbD_shiftIn _ _ (by omega), if_neg (by omega)]
    simp [show k + 8 + n - 8 = k + n by omega, hn]
  have hlow : (UdpDeframer.shiftIn c b).extractLsb' 0 8 = b := by
    ext n hn
    simp only [← BitVec.getLsbD_eq_getElem, BitVec.getLsbD_extractLsb']
    rw [UdpDeframer.getLsbD_shiftIn _ _ (by omega)]
    simp [hn]
  simp only [bytes32, hlow]
  rw [hshift 16 (by omega), hshift 8 (by omega), hshift 0 (by omega)]
  rfl

theorem bytes32_foldl_shiftIn (c : BitVec 32) {m : List Byte} (hm : m.length = 4) :
    bytes32 (m.foldl UdpDeframer.shiftIn c) = m := by
  match m, hm with
  | [a, b, d, e], _ =>
    simp only [List.foldl_cons, List.foldl_nil, bytes32_shiftIn]
    rfl

theorem foldl_shiftIn_eq_iff (c a : BitVec 32) {m : List Byte} (hm : m.length = 4) :
    m.foldl UdpDeframer.shiftIn c = a ↔ m = bytes32 a := by
  constructor
  · rintro rfl
    exact (bytes32_foldl_shiftIn c hm).symm
  · rintro rfl
    exact UdpDeframer.foldl_shiftIn c a

theorem length_segment {α : Type*} {a b : ℕ} {l : List α} (hb : b ≤ l.length) :
    (segment a b l).length = b - a := by
  simp [segment, hb]

/-- **The decision** at the byte with number 41. -/
theorem Parses.requestMatches_iff (h : Parses r l) (hlen : l.length = 41)
    (hv : i.rxAxisTvalid = true) :
    requestMatches r i = true ↔ AgreeOn 0 6 (l ++ [i]) ∧ AgreeOn 12 22 (l ++ [i]) ∧
      segment 38 42 (rxBytes (l ++ [i])) = bytes32 i.ipAddressIn := by
  have hcount : r.rxByteCnt = 41#7 := by rw [h.count, hlen]
  have hflags : ∀ {a b : ℕ}, b ≤ 41 → (AgreeOn a b (l ++ [i]) ↔ AgreeOn a b l) := by
    intro a b hb
    rw [agreeOn_concat]
    exact and_iff_left fun _ h' => by omega
  have htpa : r.rxTpaShift.extractLsb' 0 24 ++ i.rxAxisTdata = i.ipAddressIn ↔
      segment 38 42 (rxBytes (l ++ [i])) = bytes32 i.ipAddressIn := by
    obtain ⟨c, hc⟩ := h.tpa (by omega)
    rw [← foldl_shiftIn_eq_iff c _ (length_segment (by simp [hlen])), rxBytes_concat,
      segment_concat, if_pos (by simp [hlen]), List.foldl_append, ← hc]
    rfl
  have hsplit : AgreeOn 12 22 l ↔ AgreeOn 12 14 l ∧ AgreeOn 14 20 l ∧ AgreeOn 20 22 l := by
    rw [← agreeOn_split (by omega) (by omega), ← agreeOn_split (by omega) (by omega)]
  have hdest := h.dest (by omega) (by omega)
  have hethertype := h.ethertype (by omega) (by omega)
  have hhwProto := h.hwProto (by omega) (by omega)
  have hopcode := h.opcode (by omega) (by omega)
  have hnow : (r.rxByteCnt == 41) = true := by
    rw [hcount]
    rfl
  rw [hflags (by omega), hflags (by omega), hsplit]
  simp only [requestMatches, hv, hnow, Bool.true_and, Bool.and_eq_true, beq_iff_eq, hdest,
    hethertype, hhwProto, hopcode, htpa, and_assoc]

/-- No other byte decides, as long as the counter has not wrapped up to 41. -/
theorem Parses.requestMatches_eq_false (h : Parses r l) (hne : l.length ≠ 41)
    (hlen : l.length < 169) : requestMatches r i = false := by
  by_contra hm
  have hcount := requestMatches_rxByteCnt (by simpa using hm)
  have := congrArg BitVec.toNat (h.count.symm.trans hcount)
  simp at this
  omega

end Parses

/-! ## Bytes behind the ARP header -/

section Alike

variable {x y : State} {i j : Inputs} {l m : List Inputs} {s : State} {ps : List (Inputs × Inputs)}

/-- The number of the next byte of the frame in progress. -/
def offsetStep (n : ℕ) (i : Inputs) : ℕ :=
  if i.reset then 0 else if i.rxAxisTvalid then (if i.rxAxisTlast then 0 else n + 1) else n

/-- The same inputs with another received byte. -/
def Inputs.withByte (i : Inputs) (b : Byte) : Inputs := { i with rxAxisTdata := b }

theorem withByte_self (i : Inputs) : i.withByte i.rxAxisTdata = i := rfl

/-- The inputs of two runs in the same cycle: they differ in the received byte only, and in this one
only when its number is 42 or greater. -/
def AlikeAt (n : ℕ) (p : Inputs × Inputs) : Prop :=
  p.2 = p.1.withByte p.2.rxAxisTdata ∧
    (p.1.rxAxisTvalid = true → n < 42 → p.2.rxAxisTdata = p.1.rxAxisTdata)

instance (n : ℕ) (p : Inputs × Inputs) : Decidable (AlikeAt n p) :=
  inferInstanceAs (Decidable (_ ∧ _))

/-- The byte received is one of the first 169 of its frame. -/
def ShortAt (n : ℕ) (p : Inputs × Inputs) : Prop := p.1.rxAxisTvalid = true → n < 169

instance (n : ℕ) (p : Inputs × Inputs) : Decidable (ShortAt n p) :=
  inferInstanceAs (Decidable (_ → _))

theorem AlikeAt.exists_byte {n : ℕ} (h : AlikeAt n (i, j)) : ∃ b, j = i.withByte b ∧
    (i.rxAxisTvalid = true → n < 42 → b = i.rxAxisTdata) := ⟨_, h⟩

/-- **Two runs** that differ in the parser only, and there not in what the parser has found. -/
structure Same (x y : State) (l m : List Inputs) : Prop where
  left : Parses x.rx l
  right : Parses y.rx m
  length : m.length = l.length
  header : m.take 42 = l.take 42
  rest : y = { x with rx := y.rx }
  replyPending : y.rx.replyPending = x.rx.replyPending
  reqSha : y.rx.reqSha = x.rx.reqSha
  reqSpa : y.rx.reqSpa = x.rx.reqSpa

theorem length_frameStep (l : List Inputs) (i : Inputs) :
    (frameStep l i).length = offsetStep l.length i := by
  unfold frameStep offsetStep
  repeat' split
  all_goals simp

/-- The decision of the parser is the same in both runs, and so are the addresses then. -/
theorem Same.requestMatches_eq (h : Same x y l m) (hij : AlikeAt l.length (i, j))
    (hshort : ShortAt l.length (i, j)) :
    requestMatches y.rx j = requestMatches x.rx i ∧
      (requestMatches x.rx i = true →
        y.rx.rxShaShift = x.rx.rxShaShift ∧ y.rx.rxSpaShift = x.rx.rxSpaShift) := by
  obtain ⟨b, rfl, hbyte⟩ := hij.exists_byte
  cases hv : i.rxAxisTvalid with
  | false => simp [requestMatches, Inputs.withByte, hv]
  | true =>
    by_cases hlen : l.length = 41
    · have hm : m = l := by
        have hlength := h.length
        have hheader := h.header
        rwa [List.take_of_length_le (by omega), List.take_of_length_le (by omega)] at hheader
      have hji : i.withByte b = i := by rw [hbyte hv (by omega), withByte_self]
      have hleft := h.left.requestMatches_iff hlen hv
      have hright := h.right
      rw [hm] at hright
      refine ⟨?_, fun _ => ⟨?_, ?_⟩⟩
      · rw [hji, Bool.eq_iff_iff, hleft, hright.requestMatches_iff hlen hv]
      · obtain ⟨c, hc⟩ := h.left.sha hlen.le
        obtain ⟨d, hd⟩ := hright.sha hlen.le
        apply macBytes_injective
        rw [hc, hd, EthernetDeframer.macBytes_foldl_shiftIn _ _ (length_segment (by simp [hlen])),
          EthernetDeframer.macBytes_foldl_shiftIn _ _ (length_segment (by simp [hlen]))]
      · obtain ⟨c, hc⟩ := h.left.spa hlen.le
        obtain ⟨d, hd⟩ := hright.spa hlen.le
        have hfour : (segment 28 32 (rxBytes l)).length = 4 := length_segment (by simp [hlen])
        rw [hd, foldl_shiftIn_eq_iff d _ hfour, hc, bytes32_foldl_shiftIn c hfour]
    · have hlt := hshort hv
      have hleft := h.left.requestMatches_eq_false (i := i) hlen hlt
      rw [hleft, h.right.requestMatches_eq_false (by rwa [h.length]) (by rwa [h.length])]
      simp

/-- The state machine reads nothing else of the parser. -/
theorem step_rx_congr {r : Parser} {b : Byte} (hp : r.replyPending = x.rx.replyPending)
    (hsha : r.reqSha = x.rx.reqSha) (hspa : r.reqSpa = x.rx.reqSpa) :
    step { x with rx := r } (i.withByte b) =
      { step x i with rx := r.step (i.withByte b) x.replyStarted } := by
  simp [step, Inputs.withByte, startsReply, startsGarp, clearsGarp, betweenPackets, outputTready,
    nextState, framedNext, framedTdata, padCounterNext, hp, hsha, hspa]

theorem take_frameStep (hlen : m.length = l.length) (hheader : m.take 42 = l.take 42)
    (hij : AlikeAt l.length (i, j)) : (frameStep m j).take 42 = (frameStep l i).take 42 := by
  obtain ⟨b, rfl, hbyte⟩ := hij.exists_byte
  change (if i.reset = true then [] else if i.rxAxisTvalid = true then
    (if i.rxAxisTlast = true then [] else m ++ [i.withByte b]) else m).take 42 = _
  unfold frameStep
  cases i.reset with
  | true => rfl
  | false =>
    cases hv : i.rxAxisTvalid with
    | false => exact hheader
    | true =>
      cases i.rxAxisTlast with
      | true => rfl
      | false =>
        by_cases hlt : l.length < 42
        · have hji : i.withByte b = i := by rw [hbyte hv hlt, withByte_self]
          rw [List.take_of_length_le (by omega), List.take_of_length_le (by omega)] at hheader
          simp [hheader, hji]
        · simpa [List.take_append_of_le_length, show 42 ≤ l.length by omega,
            show 42 ≤ m.length by omega] using hheader

/-- What the parser has found after one cycle. -/
theorem found_step (r : Parser) (i : Inputs) (started : Bool) :
    (r.step i started).replyPending =
        (!i.reset && (!started && (requestMatches r i || r.replyPending))) ∧
      (r.step i started).reqSha =
        (if i.reset then 0 else if requestMatches r i then r.rxShaShift else r.reqSha) ∧
      (r.step i started).reqSpa =
        (if i.reset then 0 else if requestMatches r i then r.rxSpaShift else r.reqSpa) := by
  cases hreset : i.reset <;> simp [Parser.step, hreset]

/-- **One cycle** of two runs that are alike. -/
theorem Same.step (h : Same x y l m) (hij : AlikeAt l.length (i, j))
    (hshort : ShortAt l.length (i, j)) :
    Same (step x i) (step y j) (frameStep l i) (frameStep m j) := by
  obtain ⟨hmatch, haddresses⟩ := h.requestMatches_eq hij hshort
  have htake := take_frameStep h.length h.header hij
  obtain ⟨b, rfl, -⟩ := hij.exists_byte
  have hlength : (frameStep m (i.withByte b)).length = (frameStep l i).length := by
    rw [length_frameStep, length_frameStep, h.length]
    rfl
  have hstep : Arp.step y (i.withByte b) =
      { Arp.step x i with rx := y.rx.step (i.withByte b) x.replyStarted } := by
    rw [h.rest]
    exact step_rx_congr h.replyPending h.reqSha h.reqSpa
  refine ⟨h.left.step, h.right.step, hlength, htake, ?_, ?_, ?_, ?_⟩
  · rw [hstep]
  · rw [hstep, (found_step _ _ _).1, hmatch, h.replyPending]
    exact (found_step x.rx i x.replyStarted).1.symm
  · rw [hstep, (found_step _ _ _).2.1, hmatch]
    refine Eq.trans ?_ (found_step _ _ _).2.1.symm
    cases hm : requestMatches x.rx i with
    | false => simp [h.reqSha, Inputs.withByte]
    | true => simp [(haddresses hm).1, Inputs.withByte]
  · rw [hstep, (found_step _ _ _).2.2, hmatch]
    refine Eq.trans ?_ (found_step _ _ _).2.2.symm
    cases hm : requestMatches x.rx i with
    | false => simp [h.reqSpa, Inputs.withByte]
    | true => simp [(haddresses hm).2, Inputs.withByte]

theorem Same.run (h : Same x y l m)
    (halike : Always (fun n p => offsetStep n p.1) AlikeAt l.length ps)
    (hshort : Always (fun n p => offsetStep n p.1) ShortAt l.length ps) :
    ∃ l m, Same (run Arp.step x (ps.map Prod.fst)) (Sync.run Arp.step y (ps.map Prod.snd)) l m := by
  induction ps generalizing x y l m with
  | nil => exact ⟨l, m, h⟩
  | cons p ps ih =>
    have hstep := h.step halike.1 hshort.1
    have hlen := length_frameStep l p.1
    exact ih hstep (hlen ▸ halike.2) (hlen ▸ hshort.2)

/-- **Only the header counts in frames of at most 169 bytes**: two runs that start in the same state
after reset and differ only in bytes with numbers from 42 on, of frames of at most 169 bytes, have
the same `reply_pending`, `req_sha` and `req_spa` in the end. -/
theorem replyPending_of_alike {s : State} {ps : List (Inputs × Inputs)} (h : AfterReset s)
    (halike : Always (fun n p => offsetStep n p.1) AlikeAt 0 ps)
    (hshort : Always (fun n p => offsetStep n p.1) ShortAt 0 ps) :
    let x := (run step s (ps.map Prod.fst)).rx
    let y := (run step s (ps.map Prod.snd)).rx
    y.replyPending = x.replyPending ∧ y.reqSha = x.reqSha ∧ y.reqSpa = x.reqSpa := by
  have hcount : s.rx.rxByteCnt = 0#7 := by
    obtain ⟨s₀, i, hi, rfl⟩ := h
    simp [Arp.step, Parser.step, hi]
  have hstart : Same s s [] [] :=
    ⟨parses_nil hcount, parses_nil hcount, rfl, rfl, rfl, rfl, rfl, rfl⟩
  obtain ⟨l, m, hsame⟩ := hstart.run halike hshort
  exact ⟨hsame.replyPending, hsame.reqSha, hsame.reqSpa⟩

/-- Two frames of 60 bytes that differ in the padding behind the request. -/
theorem replyPending_of_alike_sixty :
    let i : Inputs := { macAddressIn := 0x001122334455, ipAddressIn := 0x0A000001 }
    let padded (b : Byte) : List Inputs := receive i (requestFrom 7 ++ List.replicate 18 b)
    (run step cleared (padded 0xFF)).rx.replyPending =
      (run step cleared (padded 0x00)).rx.replyPending := by
  intro i padded
  have halike : Always (fun n p => offsetStep n p.1) AlikeAt 0 ((padded 0x00).zip (padded 0xFF)) :=
    by decide +kernel
  have hshort : Always (fun n p => offsetStep n p.1) ShortAt 0 ((padded 0x00).zip (padded 0xFF)) :=
    by decide +kernel
  exact (replyPending_of_alike cleared_afterReset halike hshort).1

/-- A frame of 170 bytes with a request in its last 42 bytes, and a frame of zeros. -/
theorem not_replyPending_of_alike :
    ¬ ∀ (s : State) (ps : List (Inputs × Inputs)), AfterReset s →
      Always (fun n p => offsetStep n p.1) AlikeAt 0 ps →
      (run step s (ps.map Prod.snd)).rx.replyPending =
        (run step s (ps.map Prod.fst)).rx.replyPending := by
  intro h
  let i : Inputs := { macAddressIn := 0x001122334455, ipAddressIn := 0x0A000001 }
  have := h cleared ((receive i (List.replicate 170 0)).zip
    (receive i (List.replicate 128 0 ++ requestFrom 7))) cleared_afterReset (by decide +kernel)
  revert this
  decide +kernel

end Alike

/-! ## Requests for the own address -/

section Recognition

variable {mac : BitVec 48} {ip : BitVec 32} {f : List Byte} {b : Byte} {s : State} {i : Inputs}
  {is l : List Inputs}

/-- No reset, and the own addresses on the ports. -/
def Addressed (mac : BitVec 48) (ip : BitVec 32) (_ : State) (i : Inputs) : Prop :=
  i.reset = false ∧ i.macAddressIn = mac ∧ i.ipAddressIn = ip

instance (mac : BitVec 48) (ip : BitVec 32) (s : State) (i : Inputs) :
    Decidable (Addressed mac ip s i) := inferInstanceAs (Decidable (_ ∧ _))

/-- The beat received in a cycle. -/
def received (_ : State) (i : Inputs) : List (Byte × Bool) :=
  if i.rxAxisTvalid then [(i.rxAxisTdata, i.rxAxisTlast)] else []

/-- The frame holds a request for the protocol address `ip` where an ARP packet has it. -/
def AsksFor (ip : BitVec 32) (f : List Byte) : Prop :=
  42 ≤ f.length ∧ segment 12 22 f = requestBytes ∧ segment 38 42 f = bytes32 ip

/-- **A request for the own address**, sent to the own hardware address or to all. -/
def IsRequest (mac : BitVec 48) (ip : BitVec 32) (f : List Byte) : Prop :=
  EthernetDeframer.IsFor mac (f.take 6) ∧ AsksFor ip f

/-- Every byte of the destination is that of the own address or of the broadcast address. -/
def BytewiseFor (mac : BitVec 48) (f : List Byte) : Prop :=
  ∀ k < 6, f[k]? = some (macByte mac k) ∨ f[k]? = some 0xFF

/-- The destination of a request is a mixture of the two addresses. -/
def Mixed (mac : BitVec 48) (ip : BitVec 32) (f : List Byte) : Prop :=
  BytewiseFor mac f ∧ ¬ EthernetDeframer.IsFor mac (f.take 6) ∧ AsksFor ip f

instance (ip : BitVec 32) (f : List Byte) : Decidable (AsksFor ip f) :=
  inferInstanceAs (Decidable (_ ∧ _))

instance (mac : BitVec 48) (ip : BitVec 32) (f : List Byte) : Decidable (IsRequest mac ip f) :=
  inferInstanceAs (Decidable (_ ∧ _))

instance (mac : BitVec 48) (f : List Byte) : Decidable (BytewiseFor mac f) :=
  inferInstanceAs (Decidable (∀ k < 6, _))

instance (mac : BitVec 48) (ip : BitVec 32) (f : List Byte) : Decidable (Mixed mac ip f) :=
  inferInstanceAs (Decidable (_ ∧ _ ∧ _))

/-- What the parser makes of a request: the bytes up to the decision, and the addresses of the
sender. -/
def summary (f : List Byte) : List Byte × List Byte × List Byte :=
  (f.take 42, segment 22 28 f, segment 28 32 f)

/-- The block with the bytes of the frame in progress. -/
def traced (x : State × List Byte) (i : Inputs) : State × List Byte :=
  (step x.1 i, run cutStep x.2 (received x.1 i))

/-- The event of a cycle that sets `reply_pending` and loads `req_sha` and `req_spa`: the bytes of
the frame so far, and the addresses that are loaded. -/
def matched (x : State × List Byte) (i : Inputs) : List (List Byte × List Byte × List Byte) :=
  if requestMatches x.1.rx i && (step x.1 i).rx.replyPending then
    [(x.2 ++ [i.rxAxisTdata], macBytes (step x.1 i).rx.reqSha, bytes32 (step x.1 i).rx.reqSpa)]
  else []

/-- What the parser recognises in a cycle, with a mark when `reply_pending` is set behind it. -/
def recognised (x : State × List Byte) (i : Inputs) :
    List ((List Byte × List Byte × List Byte) × Bool) :=
  if requestMatches x.1.rx i then
    [((x.2 ++ [i.rxAxisTdata], macBytes (step x.1 i).rx.reqSha, bytes32 (step x.1 i).rx.reqSpa),
      (step x.1 i).rx.replyPending)]
  else []

/-- Nothing disturbs the decision about a frame in the cycle of its 42nd byte: the flag
`reply_started` is clear when the frame is a request for the own address, and set when it is one
with a mixed destination. -/
def Undisturbed (mac : BitVec 48) (ip : BitVec 32) (x : State × List Byte) (i : Inputs) : Prop :=
  i.rxAxisTvalid = true → x.2.length = 41 →
    (IsRequest mac ip (x.2 ++ [i.rxAxisTdata]) → x.1.replyStarted = false) ∧
    (Mixed mac ip (x.2 ++ [i.rxAxisTdata]) → x.1.replyStarted = true)

instance (mac : BitVec 48) (ip : BitVec 32) (x : State × List Byte) (i : Inputs) :
    Decidable (Undisturbed mac ip x i) := inferInstanceAs (Decidable (_ → _))

/-- The byte completes the first 42 bytes of a frame that the parser takes for a request. -/
def matchedBy (mac : BitVec 48) (ip : BitVec 32) (f : List Byte) (b : Byte × Bool) :
    List (List Byte × List Byte × List Byte) :=
  if f.length = 41 ∧ BytewiseFor mac (f ++ [b.1]) ∧ AsksFor ip (f ++ [b.1]) then
    [summary (f ++ [b.1])]
  else []

theorem getElem?_rxBytes {n : ℕ} (hn : n < l.length) :
    ∃ j ∈ l, l[n]? = some j ∧ (rxBytes l)[n]? = some j.rxAxisTdata :=
  ⟨l[n], List.getElem_mem hn, List.getElem?_eq_getElem hn, by simp [rxBytes, hn]⟩

theorem agreeOn_dest_iff (hmac : ∀ j ∈ l, j.macAddressIn = mac) (hlen : 6 ≤ l.length) :
    AgreeOn 0 6 l ↔ BytewiseFor mac (rxBytes l) := by
  constructor
  · intro h k hk
    obtain ⟨j, hj, hget, hbyte⟩ := getElem?_rxBytes (l := l) (n := k) (by omega)
    have := h k j (Nat.zero_le k) hk hget
    rw [hbyte]
    simpa [agrees, hk, macByteMatches, hmac j hj] using this
  · intro h k j _ hk hget
    obtain ⟨j', hj', hget', hbyte⟩ := getElem?_rxBytes (l := l) (n := k) (by omega)
    obtain rfl : j' = j := by simpa [hget] using hget'.symm
    have := h k hk
    rw [hbyte] at this
    simpa [agrees, hk, macByteMatches, hmac j' hj'] using this

theorem getElem?_segment {α : Type*} {a b k : ℕ} (m : List α) (hk : a + k < b) :
    (segment a b m)[k]? = m[a + k]? := by
  rw [segment, List.getElem?_drop, List.getElem?_take_of_lt hk]

theorem agreeOn_fixed_iff (hlen : 22 ≤ l.length) :
    AgreeOn 12 22 l ↔ segment 12 22 (rxBytes l) = requestBytes := by
  have hten : requestBytes.length = 10 := rfl
  constructor
  · intro h
    refine List.ext_getElem? fun k => ?_
    by_cases hk : k < 10
    · obtain ⟨j, hj, hget, hbyte⟩ := getElem?_rxBytes (l := l) (n := 12 + k) (by omega)
      have hagrees := h (12 + k) j (by omega) (by omega) hget
      have hrange : 12 ≤ 12 + k ∧ 12 + k < 22 := by omega
      rw [agrees, if_neg (by omega), if_pos hrange, Nat.add_sub_cancel_left, beq_iff_eq,
        List.getD_eq_getElem?_getD, List.getElem?_eq_getElem (by omega),
        Option.getD_some] at hagrees
      rw [getElem?_segment _ (by omega), hbyte, hagrees, List.getElem?_eq_getElem (by omega)]
    · rw [List.getElem?_eq_none (by rw [length_segment (by simpa using hlen)]; omega),
        List.getElem?_eq_none (by omega)]
  · intro h n j ha hb hget
    obtain ⟨j', -, hget', hbyte⟩ := getElem?_rxBytes (l := l) (n := n) (by omega)
    obtain rfl : j' = j := by simpa [hget] using hget'.symm
    have hsegment := getElem?_segment (a := 12) (b := 22) (k := n - 12) (rxBytes l) (by omega)
    rw [h, Nat.add_sub_cancel' ha, hbyte] at hsegment
    rw [agrees, if_neg (by omega), if_pos ⟨ha, hb⟩, List.getD_eq_getElem?_getD, hsegment]
    simp

/-- The addresses of the sender when the decision is made. -/
theorem Parses.addresses {r : Parser} (h : Parses r l) (h41 : l.length = 41) :
    macBytes r.rxShaShift = segment 22 28 (rxBytes l) ∧
      bytes32 r.rxSpaShift = segment 28 32 (rxBytes l) := by
  obtain ⟨c, hc⟩ := h.sha h41.le
  obtain ⟨d, hd⟩ := h.spa h41.le
  rw [hc, hd]
  exact ⟨EthernetDeframer.macBytes_foldl_shiftIn _ _ (length_segment (by simp [h41])),
    bytes32_foldl_shiftIn _ (length_segment (by simp [h41]))⟩

/-- The decision, in terms of the bytes of the frame. -/
theorem Parses.requestMatches_iff_bytes {r : Parser} (h : Parses r l)
    (hmac : ∀ j ∈ l, j.macAddressIn = mac) (hmaci : i.macAddressIn = mac)
    (hipi : i.ipAddressIn = ip) (h41 : l.length = 41) (hv : i.rxAxisTvalid = true) :
    requestMatches r i = true ↔ BytewiseFor mac (rxBytes l ++ [i.rxAxisTdata]) ∧
      AsksFor ip (rxBytes l ++ [i.rxAxisTdata]) := by
  have hmac' : ∀ j ∈ l ++ [i], j.macAddressIn = mac := by
    intro j hj
    rcases List.mem_append.mp hj with hj | hj
    · exact hmac j hj
    · rw [List.mem_singleton.mp hj, hmaci]
  rw [h.requestMatches_iff h41 hv, agreeOn_dest_iff hmac' (by simp [h41]),
    agreeOn_fixed_iff (by simp [h41]), hipi, rxBytes_concat, AsksFor]
  simp [h41]

/-- **One cycle** of the parser, in terms of the bytes of the frame. -/
theorem recognised_eq (h : Parses s.rx l) (hmac : ∀ j ∈ l, j.macAddressIn = mac)
    (hi : Addressed mac ip s i) (hlen : i.rxAxisTvalid = true → l.length < 128) :
    (recognised (s, rxBytes l) i).map Prod.fst =
      (received s i).flatMap (matchedBy mac ip (rxBytes l)) := by
  obtain ⟨hreset, hmaci, hipi⟩ := hi
  unfold recognised received
  cases hv : i.rxAxisTvalid with
  | false => simp [requestMatches, hv]
  | true =>
    by_cases h41 : l.length = 41
    · have hcond : (rxBytes l).length = 41 ∧ BytewiseFor mac (rxBytes l ++ [i.rxAxisTdata]) ∧
          AsksFor ip (rxBytes l ++ [i.rxAxisTdata]) ↔ requestMatches s.rx i = true := by
        rw [h.requestMatches_iff_bytes hmac hmaci hipi h41 hv]
        simp [h41]
      rw [if_pos rfl, List.flatMap_singleton, matchedBy, if_congr hcond rfl rfl]
      split
      · next hm =>
        rw [List.map_singleton]
        obtain ⟨hshift, hshift'⟩ := h.addresses h41
        have hsha : macBytes (step s i).rx.reqSha = segment 22 28 (rxBytes l) := by
          change macBytes (s.rx.step i s.replyStarted).reqSha = _
          rw [(found_step _ _ _).2.1, hreset, if_neg (by simp), if_pos hm, hshift]
        have hspa : bytes32 (step s i).rx.reqSpa = segment 28 32 (rxBytes l) := by
          change bytes32 (s.rx.step i s.replyStarted).reqSpa = _
          rw [(found_step _ _ _).2.2, hreset, if_neg (by simp), if_pos hm, hshift']
        rw [hsha, hspa, summary, segment_concat, segment_concat, if_neg (by simp [h41]),
          if_neg (by simp [h41]), List.append_nil, List.append_nil,
          List.take_of_length_le (by simp [h41])]
      · rfl
    · have hlen := hlen hv
      have hnone := h.requestMatches_eq_false (i := i) h41 (by omega)
      simp [hnone, matchedBy, h41]

theorem mem_frameStep {j : Inputs} (h : j ∈ frameStep l i) : j ∈ l ∨ j = i := by
  unfold frameStep at h
  split at h
  · cases h
  · split at h
    · split at h
      · cases h
      · simpa using h
    · exact .inl h

theorem rxBytes_frameStep (hreset : i.reset = false) :
    rxBytes (frameStep l i) = run cutStep (rxBytes l) (received s i) := by
  cases hv : i.rxAxisTvalid <;> cases hl : i.rxAxisTlast <;>
    simp [frameStep, received, hreset, hv, hl, cutStep, rxBytes]

theorem collect_received (g : List Byte) {B : Type*} (emit : List Byte → Byte × Bool → List B) :
    collect cutStep emit g (received s i) = (received s i).flatMap (emit g) := by
  cases hv : i.rxAxisTvalid <;> simp [received, hv]

theorem collect_matched (x : State × List Byte) (is : List Inputs) :
    collect traced matched x is =
      ((collect traced recognised x is).filter Prod.snd).map Prod.fst := by
  induction is generalizing x with
  | nil => rfl
  | cons i is ih =>
    rw [collect_cons, collect_cons, List.filter_append, List.map_append, ih]
    congr 1
    unfold matched recognised
    cases requestMatches x.1.rx i <;> cases (step x.1 i).rx.replyPending <;> rfl

/-- The parser and the bytes of the frame in progress, in every state of a run. -/
theorem traced_run (h : AfterReset s) (hsteady : Always step (Addressed mac ip) s is) :
    ∃ l, Parses (run step s is).rx l ∧ (∀ j ∈ l, j.macAddressIn = mac) ∧
      rxBytes l = openPacket (collect step received s is) ∧
      run traced (s, []) is = (run step s is, rxBytes l) := by
  have hπ : ∀ x i, (traced x i).1 = step x.1 i := fun _ _ => rfl
  induction is using List.reverseRecOn with
  | nil =>
    obtain ⟨s₀, i, hi, rfl⟩ := h
    exact ⟨[], parses_nil (by simp [Arp.step, Parser.step, hi]), by simp, rfl, rfl⟩
  | append_singleton is i ih =>
    obtain ⟨hbefore, hi, -⟩ := (always_append _ _ _).mp hsteady
    obtain ⟨l, hparses, hmac, hbytes, htraced⟩ := ih hbefore
    refine ⟨frameStep l i, ?_, ?_, ?_, Prod.ext (run_proj hπ (s, []) _) ?_⟩
    · rw [run_append]
      exact hparses.step
    · intro j hj
      rcases mem_frameStep hj with hj | rfl
      · exact hmac j hj
      · exact hi.2.1
    · rw [collect_append, openPacket_append, ← hbytes, collect_cons, collect_nil, List.append_nil]
      exact rxBytes_frameStep hi.1
    · rw [run_append, htraced]
      exact (rxBytes_frameStep hi.1).symm

/-- **Every run**: what is recognised is what the bytes received are taken for. -/
theorem collect_recognised (h : AfterReset s) (hsteady : Always step (Addressed mac ip) s is)
    (hlen : ∀ js i ks, is = js ++ i :: ks → i.rxAxisTvalid = true →
      (openPacket (collect step received s js)).length < 128) :
    (collect traced recognised (s, []) is).map Prod.fst =
      collect cutStep (matchedBy mac ip) [] (collect step received s is) := by
  induction is using List.reverseRecOn with
  | nil => rfl
  | append_singleton is i ih =>
    obtain ⟨hbefore, hi, -⟩ := (always_append _ _ _).mp hsteady
    have hevents := ih hbefore fun js j ks hsplit => hlen js j (ks ++ [i]) (by simp [hsplit])
    obtain ⟨l, hparses, hmac, hbytes, htraced⟩ := traced_run h hbefore
    have hshort := hlen is i [] rfl
    rw [← hbytes, length_rxBytes] at hshort
    have hcycle := recognised_eq hparses hmac hi hshort
    have hopen : run cutStep [] (collect step received s is) = rxBytes l := hbytes.symm
    rw [collect_concat, List.map_append, hevents, htraced, hcycle, collect_concat, collect_append,
      hopen, collect_received]

theorem bytewiseFor_concat (hf : 6 ≤ f.length) :
    BytewiseFor mac (f ++ [b]) ↔ BytewiseFor mac f := by
  apply forall₂_congr
  intro k hk
  rw [List.getElem?_append_left (by omega)]

theorem segment_concat_of_le {a c : ℕ} (hc : c ≤ f.length) :
    segment a c (f ++ [b]) = segment a c f := by
  rw [segment_concat, if_neg (by omega), List.append_nil]

/-- What the parser takes for a request. -/
def accepts (mac : BitVec 48) (ip : BitVec 32) (f : List Byte) : Bool :=
  BytewiseFor mac f ∧ AsksFor ip f

/-- The frame so far, and one more byte. -/
theorem accepts_concat (x : Byte × Bool) :
    ([f ++ [x.1]].filter (accepts mac ip)).map summary =
      ([f].filter (accepts mac ip)).map summary ++ matchedBy mac ip f x := by
  by_cases hlong : 42 ≤ f.length
  · have hsame : accepts mac ip (f ++ [x.1]) = accepts mac ip f := by
      simp [accepts, AsksFor, bytewiseFor_concat (show 6 ≤ f.length by omega),
        segment_concat_of_le (show 22 ≤ f.length by omega), segment_concat_of_le hlong, hlong,
        show 42 ≤ f.length + 1 by omega]
    have hsummary : summary (f ++ [x.1]) = summary f := by
      rw [summary, summary, segment_concat_of_le (by omega), segment_concat_of_le (by omega),
        List.take_append_of_le_length hlong]
    rw [matchedBy, if_neg (by omega), List.append_nil]
    cases ha : accepts mac ip f <;> simp [hsame, ha, hsummary]
  · have hnot : accepts mac ip f = false := by simp [accepts, AsksFor, hlong]
    have hiff : BytewiseFor mac (f ++ [x.1]) ∧ AsksFor ip (f ++ [x.1]) ↔
        accepts mac ip (f ++ [x.1]) = true := by simp [accepts]
    simp only [matchedBy, hiff]
    by_cases h41 : f.length = 41
    · cases ha : accepts mac ip (f ++ [x.1]) <;> simp [hnot, h41, ha]
    · have hnot' : accepts mac ip (f ++ [x.1]) = false := by
        simp [accepts, AsksFor, show ¬ 42 ≤ f.length + 1 by omega]
      simp [hnot, hnot', h41]

/-- What comes of a stream of bytes: the frames in it that the parser takes for requests. -/
theorem collect_matchedBy (bs : List (Byte × Bool)) :
    collect cutStep (matchedBy mac ip) [] bs =
      ((packets bs ++ [openPacket bs]).filter (accepts mac ip)).map summary := by
  have hnil : accepts mac ip [] = false := by simp [accepts, AsksFor]
  induction bs using List.reverseRecOn with
  | nil => simp [hnil]
  | append_singleton bs x ih =>
    obtain ⟨x, last⟩ := x
    rw [collect_append, ih, collect_cons, collect_nil, List.append_nil, List.filter_append,
      List.map_append, List.append_assoc]
    change _ ++ (_ ++ matchedBy mac ip (openPacket bs) (x, last)) = _
    rw [← accepts_concat, ← List.map_append, ← List.filter_append, packets_concat,
      openPacket_concat]
    cases last
    · simp
    · simp [List.filter_append, List.filter_cons, hnil]

/-- What is accepted is a request for the own address, or one with a mixed destination. -/
theorem accepts_iff : accepts mac ip f = true ↔ IsRequest mac ip f ∨ Mixed mac ip f := by
  have hbytes (a : BitVec 48) {k : ℕ} (hk : k < 6) : (macBytes a)[k]? = some (macByte a k) := by
    interval_cases k <;> rfl
  have hall {k : ℕ} (hk : k < 6) : macByte (BitVec.allOnes 48) k = 0xFF := by
    interval_cases k <;> decide
  have hfor : EthernetDeframer.IsFor mac (f.take 6) → BytewiseFor mac f := by
    rintro (h | h) k hk
    · left
      rw [← List.getElem?_take_of_lt hk, h, hbytes mac hk]
    · right
      rw [← List.getElem?_take_of_lt hk, h, hbytes _ hk, hall hk]
  rw [accepts, decide_eq_true_iff]
  constructor
  · rintro ⟨hbytewise, hasks⟩
    by_cases hdest : EthernetDeframer.IsFor mac (f.take 6)
    · exact .inl ⟨hdest, hasks⟩
    · exact .inr ⟨hbytewise, hdest, hasks⟩
  · rintro (⟨hdest, hasks⟩ | ⟨hbytewise, -, hasks⟩)
    · exact ⟨hfor hdest, hasks⟩
    · exact ⟨hbytewise, hasks⟩

/-- A byte received belongs to one of the frames of every longer run. -/
theorem exists_received_prefix (s : State) (js ks : List Inputs) (hv : i.rxAxisTvalid = true) :
    let bs := collect step received s (js ++ i :: ks)
    ∃ f ∈ packets bs ++ [openPacket bs],
      openPacket (collect step received s js) ++ [i.rxAxisTdata] <+: f := by
  have hone : received (run step s js) i = [(i.rxAxisTdata, i.rxAxisTlast)] := if_pos hv
  rw [collect_append, collect_cons, hone, ← List.append_assoc]
  cases hl : i.rxAxisTlast with
  | false =>
    obtain ⟨f, hf, hpre⟩ := exists_openPacket_prefix
      (collect step received s js ++ [(i.rxAxisTdata, false)])
      (collect step received (step (run step s js) i) ks)
    rw [openPacket_concat, if_neg (by simp)] at hpre
    exact ⟨f, hf, hpre⟩
  | true =>
    refine ⟨_, List.mem_append_left _ ?_, List.prefix_refl _⟩
    rw [packets_append, packets_concat]
    simp

/-- The mark of what is recognised is right if and only if the decision is not disturbed. -/
theorem undisturbed_iff (h : Parses s.rx l) (hmac : ∀ j ∈ l, j.macAddressIn = mac)
    (hi : Addressed mac ip s i) (hlen : i.rxAxisTvalid = true → l.length < 128) :
    Undisturbed mac ip (s, rxBytes l) i ↔ ∀ d ∈ recognised (s, rxBytes l) i,
      d.2 = decide (EthernetDeframer.IsFor mac (d.1.1.take 6)) := by
  obtain ⟨hreset, hmaci, hipi⟩ := hi
  have hpending : requestMatches s.rx i = true →
      (step s i).rx.replyPending = !s.replyStarted := by
    intro hm
    rw [replyPending_step hreset, hm]
    simp
  unfold Undisturbed recognised
  cases hv : i.rxAxisTvalid with
  | false => simp [requestMatches, hv]
  | true =>
    by_cases h41 : l.length = 41
    · have hiff := h.requestMatches_iff_bytes hmac hmaci hipi h41 hv
      generalize rxBytes l ++ [i.rxAxisTdata] = f at hiff ⊢
      have hrequest : IsRequest mac ip f ∨ Mixed mac ip f ↔ requestMatches s.rx i = true := by
        rw [hiff, ← accepts_iff, accepts, decide_eq_true_iff]
      cases hm : requestMatches s.rx i with
      | false =>
        rw [hm] at hrequest
        have hnone := hrequest.not.mpr (by simp)
        simp only [not_or] at hnone
        simp [hnone]
      | true =>
        obtain ⟨hbytewise, hasks⟩ := hiff.mp hm
        have hfor : IsRequest mac ip f ↔ EthernetDeframer.IsFor mac (f.take 6) :=
          and_iff_left hasks
        have hmixed : Mixed mac ip f ↔ ¬ EthernetDeframer.IsFor mac (f.take 6) := by
          simp [Mixed, hbytewise, hasks]
        rw [hfor, hmixed]
        cases hs : s.replyStarted <;> by_cases hd : EthernetDeframer.IsFor mac (f.take 6) <;>
          simp [h41, hpending hm, hs, hd]
    · have hnone := h.requestMatches_eq_false (i := i) h41 (by have := hlen hv; omega)
      simp [hnone, h41]

/-- Two ways of choosing from a list give the same if and only if they choose the same. -/
theorem map_filter_eq_iff {α β : Type*} (f : α → β) (p : α → Bool) (q : β → Bool) (l : List α) :
    (l.filter p).map f = (l.map f).filter q ↔ ∀ a ∈ l, p a = q (f a) := by
  rw [List.filter_map]
  constructor
  · intro heq
    have hsub : ∀ a ∈ l, p a = true → q (f a) = true := by
      intro a ha hp
      have hmem : f a ∈ (l.filter (q ∘ f)).map f :=
        heq ▸ List.mem_map_of_mem (List.mem_filter.mpr ⟨ha, hp⟩)
      obtain ⟨b, hb, hfb⟩ := List.mem_map.mp hmem
      rw [← hfb]
      exact (List.mem_filter.mp hb).2
    have hpq : l.filter p = (l.filter (q ∘ f)).filter p := by
      rw [List.filter_filter]
      refine List.filter_congr fun a ha => ?_
      cases hp : p a with
      | false => rfl
      | true => simp [hsub a ha hp]
    have hall : (l.filter (q ∘ f)).filter p = l.filter (q ∘ f) := by
      refine List.filter_sublist.eq_of_length ?_
      have hlength := congrArg List.length heq
      rwa [List.length_map, List.length_map, hpq] at hlength
    intro a ha
    cases hq : q (f a) with
    | false =>
      cases hp : p a with
      | false => rfl
      | true => simp [hsub a ha hp] at hq
    | true =>
      have hmem : a ∈ (l.filter (q ∘ f)).filter p := by
        rw [hall]
        exact List.mem_filter.mpr ⟨ha, hq⟩
      exact (List.mem_filter.mp hmem).2
  · intro h
    rw [List.filter_congr h]
    rfl

/-- **When the parser recognises the requests for the own address**: for frames of at most 128
bytes, the events of a run are those of the frames that are such requests, each with the bytes up to
the decision and the addresses of its sender, if and only if no decision is disturbed: no reply has
just been started when such a request is complete, and one has when a frame with a mixed destination
is. -/
theorem matched_iff (mac : BitVec 48) (ip : BitVec 32) {s : State} {is : List Inputs}
    (h : AfterReset s) (hsteady : Always step (Addressed mac ip) s is)
    (hlen : ∀ f ∈ packets (collect step received s is) ++ [openPacket (collect step received s is)],
      f.length ≤ 128) :
    let frames := packets (collect step received s is) ++ [openPacket (collect step received s is)]
    collect traced matched (s, []) is = (frames.filter (IsRequest mac ip)).map summary ↔
      Always traced (Undisturbed mac ip) (s, []) is := by
  intro frames
  have hshort : ∀ js i ks, is = js ++ i :: ks → i.rxAxisTvalid = true →
      (openPacket (collect step received s js)).length < 128 := by
    rintro js i ks rfl hv
    obtain ⟨f, hf, hpre⟩ := exists_received_prefix s js ks hv
    have := hpre.length_le.trans (hlen f hf)
    simp at this
    omega
  have hwanted : (frames.filter (IsRequest mac ip)).map summary =
      ((collect traced recognised (s, []) is).map Prod.fst).filter
        (fun t => EthernetDeframer.IsFor mac (t.1.take 6)) := by
    rw [collect_recognised h hsteady hshort, collect_matchedBy, List.filter_map, List.filter_filter]
    congr 1
    refine List.filter_congr fun f _ => ?_
    rw [Bool.eq_iff_iff]
    simp only [Function.comp_apply, summary, Bool.and_eq_true, decide_eq_true_eq, accepts_iff,
      List.take_take]
    simp only [Mixed, IsRequest]
    tauto
  rw [hwanted, collect_matched, map_filter_eq_iff, forall_mem_collect_iff]
  refine always_congr_of_split fun js i ks hsplit => ?_
  subst hsplit
  obtain ⟨hjs, hi, -⟩ := (always_append _ _ _).mp hsteady
  obtain ⟨l, hparses, hmac, hbytes, htraced⟩ := traced_run h hjs
  have hl := hshort js i ks rfl
  rw [← hbytes, length_rxBytes] at hl
  rw [htraced]
  exact (undisturbed_iff hparses hmac hi hl).symm

/-- A request to the own address, one to the broadcast address and one for another host. -/
theorem matched_iff_three :
    let i : Inputs := { macAddressIn := 0x001122334455, ipAddressIn := 0x0A000001 }
    let own := macBytes 0x001122334455 ++ (requestFrom 7).drop 6
    let is := receive i own ++ [i] ++ receive i (requestFrom 8 ++ [0]) ++
      receive i ((requestFrom 9).take 41 ++ [2])
    collect traced matched (cleared, []) is =
      [(own, [0, 0, 0, 0, 0, 7], [10, 0, 0, 7]),
        (requestFrom 8, [0, 0, 0, 0, 0, 8], [10, 0, 0, 8])] := by
  intro i own is
  exact ((matched_iff 0x001122334455 0x0A000001 cleared_afterReset (by decide +kernel)
    (by decide +kernel)).mpr (by decide +kernel)).trans (by decide +kernel)

/-- A request to `FF:11:FF:33:FF:55` is taken for one to `00:11:22:33:44:55`. A request that is
complete in the cycle after a reply has been started is not noticed. -/
theorem not_matched :
    let i : Inputs := { macAddressIn := 0x001122334455, ipAddressIn := 0x0A000001 }
    let mixed := macBytes 0xFF11FF33FF55 ++ (requestFrom 7).drop 6
    let waits := { i with sAxisTvalid := true } :: receive i (requestFrom 7) ++
      receive i ((requestFrom 8).take 41)
    let is := waits.dropLast ++
      [{ i with rxAxisTvalid := true, sAxisTvalid := true, sAxisTlast := true },
       { i with rxAxisTdata := 1, rxAxisTvalid := true, rxAxisTlast := true }]
    collect traced matched (cleared, []) (receive i mixed) =
        [(mixed, [0, 0, 0, 0, 0, 7], [10, 0, 0, 7])] ∧
      packets (collect step received cleared is) = [requestFrom 7, requestFrom 8] ∧
      collect traced matched (cleared, []) is =
        [(requestFrom 7, [0, 0, 0, 0, 0, 7], [10, 0, 0, 7])] ∧
      ¬ ∀ (s : State) (is : List Inputs), AfterReset s →
        Always step (Addressed 0x001122334455 0x0A000001) s is →
        (∀ f ∈ packets (collect step received s is) ++ [openPacket (collect step received s is)],
          f.length ≤ 128) →
        collect traced matched (s, []) is =
          ((packets (collect step received s is) ++
            [openPacket (collect step received s is)]).filter
              (IsRequest 0x001122334455 0x0A000001)).map summary := by
  intro i mixed waits is
  refine ⟨by decide +kernel, by decide +kernel, by decide +kernel, fun h => ?_⟩
  have := h cleared is cleared_afterReset (by decide +kernel) (by decide +kernel)
  revert this
  decide +kernel

end Recognition

/-! ## The requester -/

section Requester

variable {ip : BitVec 32} {bs cs : List (Byte × Bool)} {a : BitVec 48 × BitVec 32} {s : State}
  {i : Inputs}

/-- The sender of a request that has been received. The request is the beginning of a frame; since
the parser counts modulo 128, it may also stand behind a multiple of 128 bytes. -/
def Requested (ip : BitVec 32) (bs : List (Byte × Bool)) (a : BitVec 48 × BitVec 32) : Prop :=
  ∃ before f b last, before ++ f.map (·, false) ++ [(b, last)] <+: bs ∧
    128 ∣ (openPacket before).length ∧ f.length = 41 ∧ AsksFor ip (f ++ [b]) ∧
    segment 22 28 (f ++ [b]) = macBytes a.1 ∧ segment 28 32 (f ++ [b]) = bytes32 a.2

theorem Requested.mono (h : Requested ip bs a) (hbs : bs <+: cs) : Requested ip cs a := by
  obtain ⟨before, f, b, last, hpre, hrest⟩ := h
  exact ⟨before, f, b, last, hpre.trans hbs, hrest⟩

/-- The parser after the bytes `bs`: it is inside a frame, and what waits for a reply is a request
that has been received. -/
structure Heard (ip : BitVec 32) (s : State) (bs : List (Byte × Bool)) : Prop where
  parses : ∃ before l, Parses s.rx l ∧ l.length < 128 ∧
    bs = before ++ (rxBytes l).map (·, false) ∧ 128 ∣ (openPacket before).length
  pending : s.rx.replyPending = true → Requested ip bs (s.rx.reqSha, s.rx.reqSpa)

theorem heard_afterReset (h : AfterReset s) : Heard ip s [] := by
  obtain ⟨s₀, i, hi, rfl⟩ := h
  have hnil : Parses (step s₀ i).rx [] := parses_nil (by simp [step, Parser.step, hi])
  exact ⟨⟨[], [], hnil, by simp, rfl, by simp⟩, by simp [step, Parser.step, hi]⟩

/-- The parser after one more byte; behind 128 bytes it begins anew. -/
theorem Heard.parses_step (h : Heard ip s bs) (hreset : i.reset = false) :
    ∃ before l, Parses (step s i).rx l ∧ l.length < 128 ∧
      bs ++ received s i = before ++ (rxBytes l).map (·, false) ∧
      128 ∣ (openPacket before).length := by
  obtain ⟨before, l, hparses, hlen, hbs, hdvd⟩ := h.parses
  cases hv : i.rxAxisTvalid with
  | false =>
    refine ⟨before, l, hparses.step_quiet hreset hv, hlen, ?_, hdvd⟩
    simp [received, hv, hbs]
  | true =>
    have hone : received s i = [(i.rxAxisTdata, i.rxAxisTlast)] := if_pos hv
    rw [hone]
    cases hl : i.rxAxisTlast with
    | true =>
      refine ⟨bs ++ [(i.rxAxisTdata, true)], [], parses_step_nil (.inr ⟨hv, hl⟩), by simp, ?_, ?_⟩
      · simp [rxBytes]
      · simp [openPacket_concat]
    | false =>
      have hnext : Parses (step s i).rx (l ++ [i]) := hparses.step_byte hreset hv hl
      by_cases hfull : l.length = 127
      · -- the counter is back at 0
        have hcount : (step s i).rx.rxByteCnt = 0#7 := by
          rw [hnext.count, List.length_append, hfull, List.length_singleton]
          rfl
        refine ⟨bs ++ [(i.rxAxisTdata, false)], [], parses_nil hcount, by simp, by simp [rxBytes],
          ?_⟩
        have hopen : openPacket bs = openPacket before ++ rxBytes l := by
          rw [hbs, openPacket_append_map_false]
        rw [openPacket_concat, if_neg (by simp), hopen, List.length_append, List.length_append,
          length_rxBytes, hfull, List.length_singleton]
        omega
      · refine ⟨before, l ++ [i], hnext, by simp; omega, ?_, hdvd⟩
        rw [rxBytes_concat, hbs]
        simp

/-- What is recognised is a request that has been received. -/
theorem Heard.requested (h : Heard ip s bs) (hip : i.ipAddressIn = ip)
    (hm : requestMatches s.rx i = true) :
    Requested ip (bs ++ received s i) (s.rx.rxShaShift, s.rx.rxSpaShift) := by
  obtain ⟨before, l, hparses, hlen, hbs, hdvd⟩ := h.parses
  have hv : i.rxAxisTvalid = true := by
    simp only [requestMatches, Bool.and_eq_true] at hm
    exact hm.1.1.1.1.1.1
  have h41 : l.length = 41 := by
    by_contra hne
    rw [hparses.requestMatches_eq_false hne (by omega)] at hm
    cases hm
  obtain ⟨-, hfixed, hasked⟩ := (hparses.requestMatches_iff h41 hv).mp hm
  obtain ⟨hsha, hspa⟩ := hparses.addresses h41
  rw [agreeOn_fixed_iff (by simp [h41]), rxBytes_concat] at hfixed
  rw [rxBytes_concat, hip] at hasked
  refine ⟨before, rxBytes l, i.rxAxisTdata, i.rxAxisTlast, ?_, hdvd, by simp [h41],
    ⟨by simp [h41], hfixed, hasked⟩, ?_, ?_⟩
  · rw [hbs, received, if_pos hv]
  · rw [segment_concat_of_le (by simp [h41]), hsha]
  · rw [segment_concat_of_le (by simp [h41]), hspa]

theorem Heard.step (h : Heard ip s bs) (hreset : i.reset = false) (hip : i.ipAddressIn = ip) :
    Heard ip (step s i) (bs ++ received s i) := by
  refine ⟨h.parses_step hreset, fun hpending => ?_⟩
  obtain ⟨hwaits, hsha, hspa⟩ := found_step s.rx i s.replyStarted
  have hrx : (Arp.step s i).rx = s.rx.step i s.replyStarted := rfl
  rw [hrx, hwaits] at hpending
  rw [hrx, hsha, hspa, hreset]
  cases hm : requestMatches s.rx i with
  | true => exact h.requested hip hm
  | false =>
    have hbefore : s.rx.replyPending = true := by
      simp only [hm, Bool.and_eq_true, Bool.false_or] at hpending
      exact hpending.2.2
    exact (h.pending hbefore).mono (List.prefix_append _ _)

end Requester

end RmiiEthernet.Arp
