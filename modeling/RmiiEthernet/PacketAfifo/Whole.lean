import RmiiEthernet.PacketAfifo.Packets
import RmiiEthernet.Sync.Packet

/-!
# The packet FIFO hands over complete packets only

The reader behind `packet_afifo` must not run dry inside a packet. `sent_prefix_packets` says why it
does not: nothing of a packet is shown before its last beat has been accepted, at however late an
edge of the other clock that may be. When it stands empty, everything has been handed over
(`sent_eq_accepted`).
-/

namespace RmiiEthernet.PacketAfifo

open Sync EthernetFcs

variable {D : ℕ} {s : State D} {es : List Edge} {p : List (Byte × Bool)}

/-- The beat shown at the output. -/
def offered (s : State D) : List (Byte × Bool) :=
  if s.mAxisTvalid then [(s.mAxisTdata, s.mAxisTlast)] else []

theorem sent_eq_offered (s : State D) (tready : Bool) :
    sent s (.rd tready) = if tready then offered s else [] := by
  cases tready <;> simp [sent, offered]

/-- What is shown is the first of what is owed, and a complete packet begins with it. -/
theorem Owes.offered (h : Owes s () p) (hc : Counts s) (hv : s.mAxisTvalid = true) :
    ∃ p', p = (s.mAxisTdata, s.mAxisTlast) :: p' ∧ ∃ b ∈ p, b.2 = true := by
  obtain ⟨l, pa, -, hl, -, rfl⟩ := h
  simp only [State.mAxisTvalid, Fifo.State.empty, Bool.not_not, Bool.and_eq_true] at hv
  obtain ⟨hread, hout⟩ := hv
  have hfront : Fifo.front s.fifo = [s.fifoDout] := by simp [Fifo.front, State.fifoDout, hout]
  have hpos := hc.readPacket hread
  rw [packetsStored, hl.content, List.countP_pos_iff] at hpos
  obtain ⟨w, hw, hlast⟩ := hpos
  refine ⟨(l ++ s.skidBuffer.caught ++ pa).map beatOf, ?_, beatOf w, ?_, hlast⟩
  · rw [hfront]
    simp [State.mAxisTdata, State.mAxisTlast]
  · refine List.mem_map_of_mem ?_
    rw [List.append_assoc]
    exact List.mem_append_left _ hw

/-- **Complete packets only.** For every interleaving of the two clocks without a reset, the beats
that have been handed over and the one that is shown are beats of packets whose last beat has been
accepted. -/
theorem sent_prefix_packets (hD : 1 ≤ D) (h : PowerUp s) (hr : Always step NoReset s es) :
    collect step sent s es ++ offered (run step s es) <+:
      (packets (collect step accepted s es)).flatMap beats := by
  have hshown (fs : List Edge) (hfs : Always step NoReset s fs)
      (hsent : collect step sent s fs <+: (packets (collect step accepted s fs)).flatMap beats) :
      collect step sent s fs ++ offered (run step s fs) <+:
        (packets (collect step accepted s fs)).flatMap beats := by
    obtain ⟨p, hp, e⟩ := exists_pending (owes_step hD) (owes_powerUp h) hfs
    rw [collect_singleton, List.nil_append] at e
    unfold offered
    split
    · next hv =>
      obtain ⟨p', rfl, hlast⟩ := hp.offered (counts_run h hfs) hv
      rw [e]
      exact concat_prefix_packets hlast
    · rwa [List.append_nil]
  refine hshown es hr ?_
  induction es using List.reverseRecOn with
  | nil => exact List.prefix_refl _
  | append_singleton es e ih =>
    obtain ⟨hes, he⟩ := (always_append _ _ _).mp hr
    have hmono : (packets (collect step accepted s es)).flatMap beats <+:
        (packets (collect step accepted s (es ++ [e]))).flatMap beats :=
      (Sync.packets_prefix (Sync.collect_prefix s (List.prefix_append _ _))).flatMap _
    refine List.IsPrefix.trans ?_ hmono
    rw [collect_concat]
    refine List.IsPrefix.trans ?_ (hshown es hes (ih hes))
    rw [List.prefix_append_right_inj]
    cases e with
    | wr => exact List.nil_prefix
    | rd tready =>
      rw [sent_eq_offered]
      split
      · exact List.prefix_refl _
      · exact List.nil_prefix

/-- Nothing is on its way through the FIFO. -/
structure Drained (s : State D) : Prop where
  addresses : s.afifo.writeLogic.writeAddrR = s.afifo.readLogic.readAddrR
  stages : Afifo.stages s.afifo = []
  expansionValidR : s.skidBuffer.expansionValidR = false
  content : Fifo.content s.fifo = []

instance (s : State D) : Decidable (Drained s) :=
  decidable_of_iff (s.afifo.writeLogic.writeAddrR = s.afifo.readLogic.readAddrR ∧
      Afifo.stages s.afifo = [] ∧ s.skidBuffer.expansionValidR = false ∧ Fifo.content s.fifo = [])
    ⟨fun h => ⟨h.1, h.2.1, h.2.2.1, h.2.2.2⟩,
      fun h => ⟨h.addresses, h.stages, h.expansionValidR, h.content⟩⟩

theorem Drained.eq_nil (h : Drained s) (hp : Owes s () p) : p = [] := by
  obtain ⟨l, pa, -, hl, ⟨W, w, w₁, w₂, r, r₁, r₂, -, ht, rfl⟩, rfl⟩ := hp
  have hcontent := h.content
  rw [hl.content] at hcontent
  have hW : W = [] := by
    have hord := ht.order
    have hlen := ht.length
    have hpow : 2 ^ (D + 1) = 2 ^ D * 2 := Nat.pow_succ 2 D
    have hpos := Nat.two_pow_pos D
    have haddr := h.addresses
    rw [ht.writeLogic_addr, ht.readLogic_addr, ← hlen, BitVec.ofNat_add,
      BitVec.add_right_eq_self] at haddr
    have hzero := congrArg BitVec.toNat haddr
    rw [BitVec.toNat_ofNat, Nat.mod_eq_of_lt (by omega)] at hzero
    exact List.eq_nil_of_length_eq_zero hzero
  simp [hcontent, hW, h.stages, SkidBufferSingle.caught, h.expansionValidR]

/-- What has been accepted has been handed over when nothing is left. -/
theorem sent_eq_accepted (hD : 1 ≤ D) (h : PowerUp s) (hr : Always step NoReset s es)
    (hd : Drained (run step s es)) : collect step sent s es = collect step accepted s es := by
  obtain ⟨p, hp, e⟩ := exists_pending (owes_step hD) (owes_powerUp h) hr
  rw [collect_singleton, List.nil_append, hd.eq_nil hp, List.append_nil] at e
  exact e.symm

end RmiiEthernet.PacketAfifo
