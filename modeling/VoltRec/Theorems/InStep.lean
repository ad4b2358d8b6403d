import VoltRec.Theorems.Worker
import VoltRec.Theorems.Sender

/-! Orders and packet numbers of the local blocks. The orders of the six blocks are distinct and below
    `nextOrder`, and block `k` has the packet number that the thread computed for it: reduced to the
    counter's 38 bits, except in the first scan. -/

namespace VoltRec

variable {cfg : Config} {slots : Nat → Nat} {u : Uninit} {w : Worker} {bufs : List UdpBuffer}

/-! ### Packet numbers of a batch -/

theorem getPcktNo_lt (x : Nat) : getPcktNo x < 2 ^ 38 := by
  rw [getPcktNo_eq]
  exact Nat.mod_lt _ (by decide)

theorem foldl_min_le {α : Type} (f : α → Nat) (l : List α) (a : Nat) :
    l.foldl (fun m x => min m (f x)) a ≤ a ∧ ∀ x ∈ l, l.foldl (fun m x => min m (f x)) a ≤ f x := by
  induction l generalizing a with
  | nil => simp
  | cons y l ih =>
    obtain ⟨h1, h2⟩ := ih (min a (f y))
    refine ⟨h1.trans (Nat.min_le_left ..), fun x hx => ?_⟩
    rcases List.mem_cons.mp hx with rfl | hx
    · exact h1.trans (Nat.min_le_right ..)
    · exact h2 x hx

/-- The start of a batch is a block boundary of the counter, not above any of its packets. -/
theorem pktStart_spec {packets : List Packet} (h : packets ≠ []) :
    pktStart packets % timeIntPerBuffer = 0 ∧ pktStart packets < 2 ^ 38 ∧
      ∀ p ∈ packets, pktStart packets ≤ getPcktNo p.header := by
  obtain ⟨p₀, hp₀⟩ := List.exists_mem_of_ne_nil _ h
  obtain ⟨-, hle⟩ := foldl_min_le (fun p : Packet => getPcktNo p.header) packets longMax
  have hlt := getPcktNo_lt p₀.header
  have h₀ := hle p₀ hp₀
  simp only [pktStart]
  rw [getPacketFilter_eq (by omega)]
  simp only [timeIntPerBuffer]
  refine ⟨by omega, by omega, fun p hp => ?_⟩
  have := hle p hp
  omega

/-! ### Orders -/

/-- The local orders are distinct and lie below the next one. -/
structure Ordered (w : Worker) : Prop where
  pos : ∀ iK, 1 ≤ (w.localStruct iK).order
  lt : ∀ iK, (w.localStruct iK).order < w.nextOrder
  inj : Function.Injective fun iK => (w.localStruct iK).order
  next : 7 ≤ w.nextOrder

theorem Ordered.same {w' : Worker} (h : Ordered w) (hs : w.SameBlocks w') : Ordered w' where
  pos iK := hs.order iK ▸ h.pos iK
  lt iK := by
    rw [hs.order, hs.nextOrder]
    exact h.lt iK
  inj := by
    have : (fun iK => (w'.localStruct iK).order) = fun iK => (w.localStruct iK).order := funext hs.order
    rw [this]
    exact h.inj
  next := hs.nextOrder ▸ h.next

theorem Ordered.handOver (h : Ordered w) (iK : Fin 6) (e : Handed → Event) :
    Ordered (w.handOver cfg slots iK e) where
  pos jK := by
    have := h.pos jK
    have := h.next
    by_cases hj : jK = iK
    · subst hj
      simp only [Worker.handOver_localStruct, Function.update_self, Worker.fresh]
      omega
    · simpa [Function.update_of_ne hj] using h.pos jK
  lt jK := by
    by_cases hj : jK = iK
    · subst hj
      simp [Worker.fresh]
    · simpa [Function.update_of_ne hj] using Nat.lt_succ_of_lt (h.lt jK)
  inj := by
    intro jK kK hjk
    -- The new block has the order `nextOrder`, which no other block has.
    by_cases hj : jK = iK <;> by_cases hk : kK = iK
    · rw [hj, hk]
    · have := h.lt kK
      simp only [Worker.handOver_localStruct, hj, Function.update_self, Function.update_of_ne hk, Worker.fresh] at hjk
      omega
    · have := h.lt jK
      simp only [Worker.handOver_localStruct, hk, Function.update_self, Function.update_of_ne hj, Worker.fresh] at hjk
      omega
    · simp only [Worker.handOver_localStruct, Function.update_of_ne hj, Function.update_of_ne hk] at hjk
      exact h.inj hjk
  next := Nat.le_succ_of_le h.next

variable (cfg) in
/-- What the first scan makes of the six blocks. -/
theorem firstScan_blocks (packets : List Packet) (hd : w.firstLoopDone = false) :
    (w.firstScan cfg packets).packetStart = pktStart packets ∧
      (w.firstScan cfg packets).nextOrder = w.nextOrder ∧
      (w.firstScan cfg packets).nextStructPacketNo =
        (pktStart packets + nFileBuffersAtATime * timeIntPerBuffer) % 2 ^ 38 ∧
      ∀ iK, (w.firstScan cfg packets).localStruct iK =
        { w.localStruct iK with packetNo := pktStart packets + iK * timeIntPerBuffer } := by
  simp [Worker.firstScan, hd, and_pcktNoMask]

theorem Ordered.firstScan (h : Ordered w) (hd : w.firstLoopDone = false) (packets : List Packet) :
    Ordered (w.firstScan cfg packets) := by
  obtain ⟨-, h2, -, h4⟩ := firstScan_blocks cfg packets hd
  refine ⟨fun iK => ?_, fun iK => ?_, ?_, h2 ▸ h.next⟩
  · simpa only [h4] using h.pos iK
  · simpa only [h4, h2] using h.lt iK
  · simpa only [h4] using h.inj

theorem Reached.ordered (hw : Reached cfg slots u bufs w) : Ordered w := by
  refine hw.blocks ?_ (fun w packets _ _ hd h => h.firstScan hd packets) (fun _ _ hs h => h.same hs)
    (fun _ iK e _ _ h => h.handOver iK e)
  refine ⟨fun iK => ?_, fun iK => ?_, fun iK jK h => ?_, ?_⟩
  · simp [Worker.start]
  · have := iK.isLt
    simp only [Worker.start, nFileBuffersAtATime] at this ⊢
    omega
  · simpa [Worker.start, Fin.ext_iff] using h
  · simp [Worker.start, nFileBuffersAtATime]

/-! ### Packet numbers -/

/-- The packet number that the thread gives block `k`: the first six are not reduced to 38 bits. -/
def blockNo (packetStart k : Nat) : Nat :=
  if k ≤ nFileBuffersAtATime then packetStart + (k - 1) * timeIntPerBuffer
  else (packetStart + (k - 1) * timeIntPerBuffer) % 2 ^ 38

theorem blockNo_of_le {packetStart k : Nat} (h : k ≤ 6) : blockNo packetStart k = packetStart + (k - 1) * 128 :=
  if_pos h

theorem blockNo_of_lt {packetStart k : Nat} (h : 6 < k) :
    blockNo packetStart k = (packetStart + (k - 1) * 128) % 2 ^ 38 :=
  if_neg (Nat.not_le_of_lt h)

/-- After the first scan every block has its number. -/
structure Numbered (w : Worker) : Prop where
  start_mod : w.packetStart % timeIntPerBuffer = 0
  start_lt : w.packetStart < 2 ^ 38
  packetNo : ∀ iK, (w.localStruct iK).packetNo = blockNo w.packetStart (w.localStruct iK).order
  next : w.nextStructPacketNo = (w.packetStart + (w.nextOrder - 1) * timeIntPerBuffer) % 2 ^ 38

theorem Numbered.same {w' : Worker} (h : Numbered w) (hs : w.SameBlocks w') : Numbered w' where
  start_mod := hs.packetStart ▸ h.start_mod
  start_lt := hs.packetStart ▸ h.start_lt
  packetNo iK := by
    rw [hs.packetNo, hs.packetStart, hs.order]
    exact h.packetNo iK
  next := by
    rw [hs.nextStructPacketNo, hs.packetStart, hs.nextOrder]
    exact h.next

theorem Numbered.handOver (h : Numbered w) (ho : Ordered w) (iK : Fin 6) (e : Handed → Event) :
    Numbered (w.handOver cfg slots iK e) where
  start_mod := h.start_mod
  start_lt := h.start_lt
  packetNo jK := by
    have hn := ho.next
    by_cases hj : jK = iK
    · subst hj
      simp only [Worker.handOver_localStruct, Function.update_self, Worker.fresh, Worker.handOver_packetStart]
      rw [blockNo_of_lt (by omega), h.next]
      rfl
    · simpa [Function.update_of_ne hj] using h.packetNo jK
  next := by
    have hn := ho.next
    have := h.next
    simp only [Worker.handOver_nextStructPacketNo, Worker.handOver_packetStart, Worker.handOver_nextOrder,
      timeIntPerBuffer] at this ⊢
    omega

theorem Reached.unscanned (hw : Reached cfg slots u bufs w) :
    w.firstLoopDone = false → w.nextOrder = 7 ∧ ∀ iK, (w.localStruct iK).order = iK + 1 := by
  refine hw.blocks (I := fun w => w.firstLoopDone = false → w.nextOrder = 7 ∧ ∀ iK, (w.localStruct iK).order = iK + 1)
    (fun _ => ⟨rfl, fun _ => rfl⟩) ?_ ?_ ?_
  · intro w packets _ _ hd _ h
    simp [Worker.firstScan, hd] at h
  · intro w w' hs h hd
    obtain ⟨h1, h2⟩ := h (hs.firstLoopDone ▸ hd)
    exact ⟨hs.nextOrder.trans h1, fun iK => (hs.order iK).trans (h2 iK)⟩
  · intro w iK e _ hd _ h
    simp [hd] at h

theorem Reached.numbered (hw : Reached cfg slots u bufs w) (hd : w.firstLoopDone = true) : Numbered w := by
  -- A new block takes the next number, so the orders come along.
  suffices h : Ordered w ∧ (w.firstLoopDone = true → Numbered w) from h.2 hd
  refine hw.blocks (I := fun w => Ordered w ∧ (w.firstLoopDone = true → Numbered w))
    ⟨(Reached.start : Reached cfg slots u bufs _).ordered, fun h => by simp [Worker.start] at h⟩ ?_ ?_ ?_
  · rintro w packets hr hne hd ⟨ho, -⟩
    obtain ⟨h1, h2, h3, h4⟩ := firstScan_blocks cfg packets hd
    obtain ⟨hmod, hlt, -⟩ := pktStart_spec hne
    obtain ⟨h7, hord⟩ := hr.unscanned hd
    refine ⟨ho.firstScan hd packets, fun _ => ⟨h1 ▸ hmod, h1 ▸ hlt, fun iK => ?_, ?_⟩⟩
    · rw [h4, h1, hord iK, blockNo_of_le (by omega), Nat.add_sub_cancel]
      rfl
    · rw [h3, h1, h2, h7]
      rfl
  · rintro w w' hs ⟨ho, hn⟩
    exact ⟨ho.same hs, fun hd => (hn (hs.firstLoopDone ▸ hd)).same hs⟩
  · rintro w iK e - hd ⟨ho, hn⟩
    exact ⟨ho.handOver iK e, fun _ => (hn hd).handOver ho iK e⟩

theorem blockNo_inj {packetStart k k' : Nat} (hk : 1 ≤ k) (hk' : 1 ≤ k') (hlt : k < 2 ^ 31)
    (hlt' : k' < 2 ^ 31) (h : blockNo packetStart k = blockNo packetStart k') : k = k' := by
  rcases Nat.lt_or_ge 6 k with h6 | h6 <;> rcases Nat.lt_or_ge 6 k' with h6' | h6' <;>
    simp only [blockNo_of_lt, blockNo_of_le, h6, h6'] at h <;> omega

/-- Fewer than 2^31 blocks have distinct numbers. -/
theorem Numbered.inj (h : Numbered w) (ho : Ordered w) (h31 : w.nextOrder ≤ 2 ^ 31) :
    Function.Injective fun iK => (w.localStruct iK).packetNo := by
  intro iK jK hij
  simp only [h.packetNo] at hij
  exact ho.inj (blockNo_inj (ho.pos iK) (ho.pos jK) (Nat.lt_of_lt_of_le (ho.lt iK) h31)
    (Nat.lt_of_lt_of_le (ho.lt jK) h31) hij)

/-! ### Orders and packet numbers in step -/

/-- Every local block and the next one have the packet number of their order, within 38 bits. -/
structure InStep (w : Worker) : Prop where
  packetNo : ∀ iK, (w.localStruct iK).packetNo =
    (w.packetStart + ((w.localStruct iK).order - 1) * timeIntPerBuffer) % 2 ^ 38
  next : w.nextStructPacketNo = (w.packetStart + (w.nextOrder - 1) * timeIntPerBuffer) % 2 ^ 38
  inj : w.nextOrder - 1 < 2 ^ 31 → Function.Injective fun iK => (w.localStruct iK).packetNo

variable (cfg slots u) in
/-- Right after the first scan the sixth block has the number it was given there. -/
theorem sixth_block {packets : List Packet} (hb : firstBatch bufs = some packets) :
    [.scan packets] <+: program bufs ∧ (workerAfter cfg slots u [.scan packets]).firstLoopDone = true ∧
      ((workerAfter cfg slots u [.scan packets]).localStruct 5).packetNo =
        pktStart packets + (nFileBuffersAtATime - 1) * timeIntPerBuffer := by
  rcases program_cases bufs with ⟨hnone, -⟩ | ⟨packets', js, hb', -, hprog⟩
  · simp [hnone] at hb
  · obtain rfl : packets' = packets := Option.some.inj (hb'.symm.trans hb)
    exact ⟨hprog ▸ List.prefix_append [_] js, rfl, rfl⟩

/-- The states after the first scan are all in step exactly when the first six blocks lie within the
    counter's range. -/
theorem inStep_iff (cfg : Config) (slots : Nat → Nat) (u : Uninit) (bufs : List UdpBuffer) :
    (∀ is, is <+: program bufs → (workerAfter cfg slots u is).firstLoopDone = true →
      InStep (workerAfter cfg slots u is)) ↔
    ∀ packets, firstBatch bufs = some packets →
      pktStart packets + (nFileBuffersAtATime - 1) * timeIntPerBuffer < 2 ^ 38 := by
  constructor
  · intro h packets hb
    obtain ⟨hp, hd, hval⟩ := sixth_block cfg slots u hb
    have h5 := (h _ hp hd).packetNo 5
    rw [hval] at h5
    exact h5 ▸ Nat.mod_lt _ (by decide)
  · intro h is hp hd
    have hr : Reached cfg slots u bufs (workerAfter cfg slots u is) := ⟨is, hp, rfl⟩
    have hn := hr.numbered hd
    have ho := hr.ordered
    refine ⟨fun iK => ?_, hn.next, fun hlt => hn.inj ho (by omega)⟩
    have hne : is ≠ [] := by
      rintro rfl
      simp [workerAfter, Worker.start] at hd
    rcases program_cases bufs with ⟨-, hnil⟩ | ⟨packets, js, hb, -, -⟩
    · rw [hnil] at hp
      exact absurd (List.prefix_nil.mp hp) hne
    · have hstart := (workerAfter_first cfg slots u hb hp hne).2.1
      have hb := h packets hb
      rw [hn.packetNo iK, hstart]
      rcases Nat.lt_or_ge 6 ((workerAfter cfg slots u is).localStruct iK).order with h6 | h6
      · exact blockNo_of_lt h6
      · rw [blockNo_of_le h6]
        simp only [nFileBuffersAtATime, timeIntPerBuffer] at hb ⊢
        rw [Nat.mod_eq_of_lt (by omega)]

/-- The last packet number of the counter as the only packet of the first buffer. -/
def lastPacket : UdpBuffer := .ofPackets [.numbered (2 ^ 38 - 1)] (by decide)

theorem firstBatch_lastPacket : firstBatch [lastPacket] = some [.numbered (2 ^ 38 - 1)] := by
  have : lastPacket.packets = [.numbered (2 ^ 38 - 1)] := UdpBuffer.packets_ofPackets _ (by simp; decide)
  simp [firstBatch, this]

/-- The sixth block then gets a number of 39 bits, which no packet has. -/
theorem lastPacket_not_inStep :
    ¬∀ is, is <+: program [lastPacket] → (workerAfter singleChannel id zeroed is).firstLoopDone = true →
      InStep (workerAfter singleChannel id zeroed is) := by
  intro h
  obtain ⟨hp, hd, hval⟩ := sixth_block singleChannel id zeroed firstBatch_lastPacket
  have h5 := (h _ hp hd).packetNo 5
  rw [hval] at h5
  have hlt := h5 ▸ Nat.mod_lt _ (by decide : 0 < 2 ^ 38)
  revert hlt
  decide

end VoltRec
