import RmiiEthernet.Driver.RmiiMacComp
import RmiiEthernet.Mac.Circuit

/-!
# From the driver to the wire

`rmii_mac_comp` writes the six bytes of an address into two registers, and the framer sends what the
registers make of them. The driver's first byte is the least significant one of the lower register,
and the framer sends the most significant byte of the upper register first: on the wire the address
stands the other way round (`macBytes_wired`), and is the one that the driver has been given only
if it reads the same both ways (`set_mac_iff`).
-/

namespace RmiiEthernet.RmiiMacComp

open Sync Utils Apb EthernetFrame EthernetFcs RegisterMap ComponentRegisterBlock
open Driver (RegComp compNumToOffset extractLsb'_offset)
open Driver.RmiiMacComp (lowerWord upperWord setMac setSourceMac setDestinationMac)

/-! ## The bytes -/

/-- The address that the registers make of what the driver writes. -/
def wired (mac : Vector (BitVec 8) 6) : BitVec 48 :=
  macOf (upperWord mac) (lowerWord mac)

/-- The framer sends the bytes of the two registers from the last one on. -/
theorem macBytes_macOf (upper lower : BitVec 32) :
    macBytes (macOf upper lower) = (bytesOf lower ++ (bytesOf upper).take 2).reverse := by
  have hupper (k : ℕ) (hk : k + 8 ≤ 16) :
      (macOf upper lower).extractLsb' (32 + k) 8 = upper.extractLsb' k 8 := by
    rw [macOf, BitVec.extractLsb'_append_eq_of_le (by omega), Nat.add_sub_cancel_left,
      BitVec.extractLsb'_extractLsb'_of_le hk]
  have hlower (k : ℕ) (hk : k + 8 ≤ 32) :
      (macOf upper lower).extractLsb' k 8 = lower.extractLsb' k 8 :=
    BitVec.extractLsb'_append_eq_of_add_le hk
  rw [macBytes, hupper 8 (by omega), hupper 0 (by omega), hlower 24 (by omega),
    hlower 16 (by omega), hlower 8 (by omega), hlower 0 (by omega)]
  rfl

/-- **The bytes on the wire** are those of the driver, the last one first. -/
theorem macBytes_wired (mac : Vector (BitVec 8) 6) :
    macBytes (wired mac) = mac.toList.reverse := by
  rw [wired, macBytes_macOf, lowerWord, upperWord, bytesOf_word, bytesOf_word]
  rcases mac with ⟨⟨bs⟩, hbs⟩
  match bs, hbs with
  | [_, _, _, _, _, _], _ => rfl

/-- They are in the order of the driver if the address reads the same both ways. -/
theorem macBytes_wired_eq_iff (mac : Vector (BitVec 8) 6) :
    macBytes (wired mac) = mac.toList ↔ mac.toList.reverse = mac.toList := by
  rw [macBytes_wired]

/-! ## The registers -/

section Registers

variable {n : ℕ} {s : State (Mdio.counterBits n)} {is js cs ks : List Inputs}

/-- The bus in a run. -/
def bus (is : List Inputs) : List Cmd := is.map (·.apbCmdIn)

theorem bus_append (is js : List Inputs) : bus (is ++ js) = bus is ++ bus js := List.map_append

/-- The inputs of the register block in one cycle. -/
def blockInputs {w : ℕ} (s : State w) (i : Inputs) : BlockInputs numRegisters :=
  (i.apbCmdIn, regRdata s i)

theorem map_fst_blockInputs (s : State (Mdio.counterBits n)) (is : List Inputs) :
    (inputs step blockInputs s is).map Prod.fst = bus is := by
  induction is generalizing s with
  | nil => rfl
  | cons i is ih => rw [inputs_cons, List.map_cons, ih]; rfl

/-- A register holds what has been written to it last. -/
theorem regWdataOut_run (h : SetUp (bus is)) (k : Register) :
    (run step s is).block.regWdataOut k =
      stored k (s.block.regWdataOut k) (accesses (bus is)) := by
  have hblock : run blockStep s.block (inputs step blockInputs s is) = (run step s is).block :=
    run_component (π := State.block) (fun _ _ => rfl) s is
  rw [← map_fst_blockInputs s is] at h ⊢
  rw [← hblock, ComponentRegisterBlock.regWdataOut_run s.block h]

/-- An address reaches the register with its number. -/
theorem reaches_ofNat (k j : Register) : reaches k (BitVec.ofNat 8 j.val) = (k == j) := by
  revert k j
  decide +kernel

/-- The writes of a call on the bus of the component: the bridge hands on the low eight bits of an
address. -/
def onBus (ws : List (BitVec 32 × BitVec 32)) : List (BitVec 8 × BitVec 32) :=
  ws.map fun w => (w.1.extractLsb' 0 8, w.2)

/-- **The cycles of a call**: its writes come over the bus and no other ones, and at last there is a
cycle without a write. -/
structure Carries (ws : List (BitVec 32 × BitVec 32)) (cs : List Inputs) : Prop where
  carried : accesses (bus cs) = onBus ws
  rest : ∀ i ∈ cs.getLast?, writes i.apbCmdIn = false

/-- No write to the two registers. -/
def Leaves (upper lower : Register) (ks : List Inputs) : Prop :=
  ∀ w ∈ accesses (bus ks), reaches upper w.1 = false ∧ reaches lower w.1 = false

instance (upper lower : Register) (ks : List Inputs) : Decidable (Leaves upper lower ks) :=
  List.decidableBAll _ _

/-- What a call of the driver writes over the bus. -/
theorem onBus_setMac (compNum : BitVec 32) (mac : Vector (BitVec 8) 6) (upper lower : Register) :
    onBus (setMac (.listing compNum) mac (BitVec.ofNat 32 upper.val) (BitVec.ofNat 32 lower.val)
        []) =
      [(BitVec.ofNat 8 lower.val, lowerWord mac), (BitVec.ofNat 8 upper.val, upperWord mac)] := by
  have hlow (k : Register) : (compNumToOffset compNum + BitVec.ofNat 32 k.val).extractLsb' 0 8 =
      BitVec.ofNat 8 k.val := by
    rw [extractLsb'_offset]
    revert k
    decide
  simp only [setMac, RegComp.regWrite, RegComp.listing, Driver.RegInterface.listing, onBus,
    List.nil_append, List.singleton_append, List.map_cons, List.map_nil, hlow]

/-- The two functions write to the registers with their numbers. -/
theorem setSourceMac_eq (compNum : BitVec 32) (mac : Vector (BitVec 8) 6) :
    setSourceMac (.listing compNum) mac [] = setMac (.listing compNum) mac
      (BitVec.ofNat 32 regNumSrcMacUpper.val) (BitVec.ofNat 32 regNumSrcMacLower.val) [] := rfl

theorem setDestinationMac_eq (compNum : BitVec 32) (mac : Vector (BitVec 8) 6) :
    setDestinationMac (.listing compNum) mac [] = setMac (.listing compNum) mac
      (BitVec.ofNat 32 regNumDstMacUpper.val) (BitVec.ofNat 32 regNumDstMacLower.val) [] := rfl

/-- The two registers behind a call. -/
theorem macOf_stored {upper lower : Register} (hne : upper ≠ lower) {d e : BitVec 32}
    {vs ws : List (BitVec 8 × BitVec 32)} (compNum : BitVec 32) (mac : Vector (BitVec 8) 6)
    (hws : ∀ w ∈ ws, reaches upper w.1 = false ∧ reaches lower w.1 = false) :
    macOf
      (stored upper d (vs ++ onBus (setMac (.listing compNum) mac (BitVec.ofNat 32 upper.val)
        (BitVec.ofNat 32 lower.val) []) ++ ws))
      (stored lower e (vs ++ onBus (setMac (.listing compNum) mac (BitVec.ofNat 32 upper.val)
        (BitVec.ofNat 32 lower.val) []) ++ ws)) = wired mac := by
  rw [stored_append, stored_append, stored_of_not_reaches fun w hw => (hws w hw).1,
    stored_append, stored_append, stored_of_not_reaches fun w hw => (hws w hw).2, onBus_setMac]
  simp [stored, reaches_ofNat, hne, hne.symm, wired]

/-- The cycle without a write is one more behind the call. -/
theorem Carries.split {ws : List (BitVec 32 × BitVec 32)} (h : Carries ws cs) (hne : ws ≠ []) :
    ∃ ds j, cs = ds ++ [j] ∧ accesses (bus ds) = onBus ws ∧
      ∀ {upper lower ks}, Leaves upper lower ks → Leaves upper lower (j :: ks) := by
  rcases List.eq_nil_or_concat cs with rfl | ⟨ds, j, rfl⟩
  · have hnil := h.carried
    rw [onBus, eq_comm, bus, List.map_nil] at hnil
    exact absurd (List.map_eq_nil_iff.mp hnil) hne
  · rw [List.concat_eq_append] at h
    have hj : accesses (bus [j]) = [] := by
      simp [accesses, bus, h.rest j (by simp)]
    refine ⟨ds, j, List.concat_eq_append, ?_, fun hks w hw => hks w ?_⟩
    · rw [← h.carried, bus_append, accesses_append, hj, List.append_nil]
    · rwa [← List.singleton_append, bus_append, accesses_append, hj, List.nil_append] at hw

/-- The address that two registers make from the end of a call on. -/
theorem macOf_later (upper lower : Register) (hne : upper ≠ lower) (compNum : BitVec 32)
    (mac : Vector (BitVec 8) 6) (hbus : SetUp (bus (js ++ cs ++ ks)))
    (hcs : accesses (bus cs) = onBus (setMac (.listing compNum) mac (BitVec.ofNat 32 upper.val)
      (BitVec.ofNat 32 lower.val) [])) (hks : Leaves upper lower ks) {as bs : List Inputs}
    (hsplit : ks = as ++ bs) :
    macOf ((run step (run step s (js ++ cs)) as).block.regWdataOut upper)
      ((run step (run step s (js ++ cs)) as).block.regWdataOut lower) = wired mac := by
  subst hsplit
  have hset : SetUp (bus (js ++ cs ++ as)) := by
    rw [← List.append_assoc, bus_append] at hbus
    exact hbus.prefix
  have hwrites : accesses (bus (js ++ cs ++ as)) = accesses (bus js) ++ onBus (setMac
      (.listing compNum) mac (BitVec.ofNat 32 upper.val) (BitVec.ofNat 32 lower.val) []) ++
        accesses (bus as) := by
    rw [← hcs, bus_append, bus_append, accesses_append, accesses_append]
  rw [← run_append, regWdataOut_run hset, regWdataOut_run hset, hwrites]
  refine macOf_stored hne compNum mac fun w hw => hks w ?_
  rw [bus_append, accesses_append]
  exact List.mem_append_left _ hw

end Registers

/-! ## The frames -/

section Frames

variable {n : ℕ} {s : State (Mdio.counterBits n)} {is js cs ks : List Inputs}

/-- The frames that `ethernet_framer` sends in a run, with their beginnings. -/
def frames (s : State (Mdio.counterBits n)) (is : List Inputs) :
    List (EthernetFramer.Begun × List Byte) :=
  ArpFramer.frames s.arpFramer (inputs step arpFramerInputs s is)

/-- The data packets of a run. -/
def dataPackets (s : State (Mdio.counterBits n)) (is : List Inputs) : List (List Byte) :=
  ArpFramer.dataPackets s.arpFramer (inputs step arpFramerInputs s is)

/-- The sender of the frames behind a call. -/
theorem source_wired (hs : ArpFramer.AtRest s.arpFramer) (compNum : BitVec 32)
    (mac : Vector (BitVec 8) 6) (hbus : SetUp (bus (js ++ cs ++ ks)))
    (hcs : Carries (setSourceMac (.listing compNum) mac []) cs)
    (hks : Leaves regNumSrcMacUpper regNumSrcMacLower ks) :
    ∀ f ∈ frames s (js ++ cs ++ ks), (js ++ cs).length ≤ f.1.cycle →
      (f.2.drop 6).take 6 = macBytes (wired mac) := by
  rw [setSourceMac_eq] at hcs
  obtain ⟨ds, j, rfl, hds, hleaves⟩ := hcs.split (List.cons_ne_nil _ _)
  have hsplit : js ++ (ds ++ [j]) ++ ks = js ++ ds ++ j :: ks := by simp
  rw [hsplit] at hbus ⊢
  intro f hf hT
  rw [frames, inputs_append] at hf
  refine ArpFramer.source_later hs (fun i hi => ?_) f hf ?_
  · obtain ⟨as, k, bs, hjk, rfl⟩ := exists_of_mem_inputs hi
    calc (arpFramerInputs (run step (run step s (js ++ ds)) as) k).arp.macAddressIn
      _ = sourceMac (run step (run step s (js ++ ds)) as) := rfl
      _ = wired mac := macOf_later regNumSrcMacUpper regNumSrcMacLower (by decide) compNum mac hbus
        hds (hleaves hks) hjk
  · rw [length_inputs]
    simp only [List.length_append, List.length_singleton] at hT ⊢
    omega

/-- The receiver of the data frames behind a call. -/
theorem destination_wired (hs : ArpFramer.AtRest s.arpFramer) (compNum : BitVec 32)
    (mac : Vector (BitVec 8) 6) (hbus : SetUp (bus (js ++ cs ++ ks)))
    (hcs : Carries (setDestinationMac (.listing compNum) mac []) cs)
    (hks : Leaves regNumDstMacUpper regNumDstMacLower ks)
    (hlen : ∀ p ∈ dataPackets s (js ++ cs ++ ks), 3 ≤ p.length) :
    ∀ f ∈ frames s (js ++ cs ++ ks), (js ++ cs).length ≤ f.1.cycle →
      (f.2.drop 12).take 2 = [0x08, 0x00] → f.2.take 6 = macBytes (wired mac) := by
  rw [setDestinationMac_eq] at hcs
  obtain ⟨ds, j, rfl, hds, hleaves⟩ := hcs.split (List.cons_ne_nil _ _)
  have hsplit : js ++ (ds ++ [j]) ++ ks = js ++ ds ++ j :: ks := by simp
  rw [hsplit] at hbus hlen ⊢
  intro f hf hT
  rw [dataPackets, inputs_append, inputs_cons] at hlen
  rw [frames, inputs_append, inputs_cons] at hf
  refine ArpFramer.destination_later hs hlen (fun i hi => ?_) f hf ?_
  · rw [← inputs_cons] at hi
    obtain ⟨as, k, bs, hjk, rfl⟩ := exists_of_mem_inputs hi
    calc (arpFramerInputs (run step (run step s (js ++ ds)) as) k).arp.destinationMacIn
      _ = destinationMac (run step (run step s (js ++ ds)) as) := rfl
      _ = wired mac := macOf_later regNumDstMacUpper regNumDstMacLower (by decide) compNum mac hbus
        hds (hleaves hks) hjk
  · rw [length_inputs]
    simp only [List.length_append, List.length_singleton] at hT ⊢
    omega

/-- **The address on the wire** is the one that the driver has been given if and only if it reads
the same both ways: for the sender of every frame that is begun after `set_source_mac`, and for the
receiver of every data frame that is begun after `set_destination_mac`. Before the call anything may
have happened; behind it, until the two registers are written again. -/
theorem set_mac_iff (compNum : BitVec 32) (mac : Vector (BitVec 8) 6)
    (hs : ArpFramer.AtRest s.arpFramer) (hbus : SetUp (bus (js ++ cs ++ ks))) :
    (Carries (setSourceMac (.listing compNum) mac []) cs →
      Leaves regNumSrcMacUpper regNumSrcMacLower ks →
        ∀ f ∈ frames s (js ++ cs ++ ks), (js ++ cs).length ≤ f.1.cycle →
          ((f.2.drop 6).take 6 = mac.toList ↔ mac.toList.reverse = mac.toList)) ∧
    (Carries (setDestinationMac (.listing compNum) mac []) cs →
      Leaves regNumDstMacUpper regNumDstMacLower ks →
        (∀ p ∈ dataPackets s (js ++ cs ++ ks), 3 ≤ p.length) →
          ∀ f ∈ frames s (js ++ cs ++ ks), (js ++ cs).length ≤ f.1.cycle →
            (f.2.drop 12).take 2 = [0x08, 0x00] →
              (f.2.take 6 = mac.toList ↔ mac.toList.reverse = mac.toList)) := by
  refine ⟨fun hcs hks f hf hT => ?_, fun hcs hks hlen f hf hT htype => ?_⟩
  · rw [source_wired hs compNum mac hbus hcs hks f hf hT, macBytes_wired_eq_iff]
  · rw [destination_wired hs compNum mac hbus hcs hks hlen f hf hT htype, macBytes_wired_eq_iff]

end Frames

/-! ## An address that does not read the same both ways -/

/-- The MAC with the framer enabled and everything else at rest. -/
def bench : State (Mdio.counterBits 8) where
  block := ⟨true, true, 0, fun _ => false, fun _ => false,
    fun k => if k = regNumEthControl then 1 else 0, fun _ => false⟩
  sendArp := false
  sendMsg := false
  responseReceived := false
  mdioReadData := 0
  mdioOpDoneR := false
  mdioSendCounter := 0
  mdioReceiveCounter := 0
  mdio := Mdio.initial _
  arpFramer := ArpFramer.cleared

theorem atRest_bench : ArpFramer.AtRest bench.arpFramer where
  arp := by constructor <;> rfl
  framer := by constructor <;> rfl

/-- The bus at rest. -/
def idleCmd : Cmd := ⟨0, false, false, false, 0⟩

/-- The cycles of a call: two for each write, and one more. -/
def callCycles (ws : List (BitVec 32 × BitVec 32)) : List Inputs :=
  (onBus ws).flatMap (fun w =>
    [{ apbCmdIn := ⟨w.1, true, false, true, w.2⟩ }, { apbCmdIn := ⟨w.1, true, true, true, w.2⟩ }])
    ++ [{ apbCmdIn := idleCmd }]

/-- A data packet of three bytes, and the cycles until its frame has been sent. -/
def packetCycles : List Inputs :=
  let byte (b : Byte) (last : Bool) : Inputs :=
    { apbCmdIn := idleCmd, mTxAxisTdata := b, mTxAxisTvalid := true, mTxAxisTlast := last }
  [byte 1 false, byte 2 false] ++ List.replicate 16 (byte 3 true) ++
    List.replicate 10 { apbCmdIn := idleCmd }

/-- `FPGA_MAC`. -/
def fpgaMac : Vector (BitVec 8) 6 := #v[0xe9, 0xd6, 0x85, 0x0c, 0x47, 0x5a]

/-- The driver sets it, and a frame has another sender, or another receiver. -/
theorem set_mac_iff_fpga :
    (∃ f ∈ frames bench (callCycles (setSourceMac (.listing 3) fpgaMac []) ++ packetCycles),
      (f.2.drop 6).take 6 ≠ fpgaMac.toList) ∧
    ∃ f ∈ frames bench (callCycles (setDestinationMac (.listing 3) fpgaMac []) ++ packetCycles),
      f.2.take 6 ≠ fpgaMac.toList := by
  have hne : fpgaMac.toList.reverse ≠ fpgaMac.toList := by decide
  constructor
  · have hbus : SetUp (bus ([] ++ callCycles (setSourceMac (.listing 3) fpgaMac []) ++
        packetCycles)) := by decide
    obtain ⟨f, hf, hT⟩ : ∃ f ∈ frames bench
        (callCycles (setSourceMac (.listing 3) fpgaMac []) ++ packetCycles), 5 ≤ f.1.cycle := by
      decide +kernel
    have hiff := (set_mac_iff 3 fpgaMac atRest_bench hbus).1 ⟨by decide, by decide⟩ (by decide) f
      hf hT
    exact ⟨f, hf, fun hsrc => hne (hiff.mp hsrc)⟩
  · have hbus : SetUp (bus ([] ++ callCycles (setDestinationMac (.listing 3) fpgaMac []) ++
        packetCycles)) := by decide
    obtain ⟨f, hf, hT, htype⟩ : ∃ f ∈ frames bench
        (callCycles (setDestinationMac (.listing 3) fpgaMac []) ++ packetCycles),
        5 ≤ f.1.cycle ∧ (f.2.drop 12).take 2 = [0x08, 0x00] := by
      decide +kernel
    have hiff := (set_mac_iff 3 fpgaMac atRest_bench hbus).2 ⟨by decide, by decide⟩ (by decide)
      (by decide +kernel) f hf hT htype
    exact ⟨f, hf, fun hdst => hne (hiff.mp hdst)⟩

/-- What the driver is given is not what is sent. -/
theorem not_set_mac : ¬ ∀ (n : ℕ) (compNum : BitVec 32) (mac : Vector (BitVec 8) 6)
    (s : State (Mdio.counterBits n)) (js cs ks : List Inputs), ArpFramer.AtRest s.arpFramer →
    SetUp (bus (js ++ cs ++ ks)) →
    (Carries (setSourceMac (.listing compNum) mac []) cs →
      Leaves regNumSrcMacUpper regNumSrcMacLower ks →
        ∀ f ∈ frames s (js ++ cs ++ ks), (js ++ cs).length ≤ f.1.cycle →
          (f.2.drop 6).take 6 = mac.toList) ∧
    (Carries (setDestinationMac (.listing compNum) mac []) cs →
      Leaves regNumDstMacUpper regNumDstMacLower ks →
        (∀ p ∈ dataPackets s (js ++ cs ++ ks), 3 ≤ p.length) →
          ∀ f ∈ frames s (js ++ cs ++ ks), (js ++ cs).length ≤ f.1.cycle →
            (f.2.drop 12).take 2 = [0x08, 0x00] → f.2.take 6 = mac.toList) := by
  intro h
  obtain ⟨f, hf, hT, hne⟩ : ∃ f ∈ frames bench
      (callCycles (setSourceMac (.listing 3) fpgaMac []) ++ packetCycles),
      5 ≤ f.1.cycle ∧ (f.2.drop 6).take 6 ≠ fpgaMac.toList := by
    decide +kernel
  have hsrc := (h 8 3 fpgaMac bench [] (callCycles (setSourceMac (.listing 3) fpgaMac []))
    packetCycles atRest_bench (by decide)).1
  exact hne (hsrc ⟨by decide, by decide⟩ (by decide) f hf hT)

end RmiiEthernet.RmiiMacComp
