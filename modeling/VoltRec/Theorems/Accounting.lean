import VoltRec.Theorems.BlockAssembly
import Mathlib.Data.Fintype.BigOperators
import Mathlib.Data.Fintype.Prod
import Mathlib.Data.Set.Card

/-! The completeness count of a block. A stored packet takes one off `nToFull`; when no two accepted packets
    have the same key, different packets of a block fill different cells, so the count is that of the cells
    still empty, and `noMissing` is what the blocks lacked that were handed over early. -/

namespace VoltRec

variable {cfg : Config} {slots : Nat → Nat} {u : Uninit} {w : Worker} {bufs : List UdpBuffer}

/-! ### Cells and keys -/

abbrev Config.Cell (cfg : Config) : Type := Fin timeIntPerBuffer × Fin cfg.nAnts × Fin cfg.nchans

/-- The cells of the block that packets belong to. -/
def filled (cfg : Config) (antNumbers : List Nat) (packetNo : Nat) (packets : List Packet) : Finset cfg.Cell :=
  {x | ∃ p ∈ packets, p.BelongsTo cfg antNumbers packetNo x.1 x.2.1 x.2.2}

/-- The packet passes the test of the packet loop and has the number of the block. -/
def Packet.inBlock (cfg : Config) (antNumbers : List Nat) (packetNo : Nat) (p : Packet) : Bool :=
  (cfg.accepts antNumbers p.header).isSome && getPacketFilter (getPcktNo p.header) == packetNo

/-- Antenna, channel index and packet number of an accepted packet. -/
def Packet.key (cfg : Config) (antNumbers : List Nat) (p : Packet) : Option (Nat × Nat × Nat) :=
  (cfg.accepts antNumbers p.header).map fun ac => (ac.1, ac.2, getPcktNo p.header)

/-- The antenna table after the first batch. -/
def antennaTable (cfg : Config) (bufs : List UdpBuffer) : List Nat :=
  registerAntennas cfg (List.replicate maxNoAnts noAntenna) ((firstBatch bufs).getD [])

/-- No two accepted packets of the stream have the same key. -/
def DistinctKeys (cfg : Config) (bufs : List UdpBuffer) : Prop :=
  ((bufs.flatMap UdpBuffer.packets).filterMap (Packet.key cfg (antennaTable cfg bufs))).Nodup

section

variable {antNumbers : List Nat} {packetNo : Nat} {packets : List Packet} {p : Packet}

theorem packetsPerBlock_eq (cfg : Config) : cfg.packetsPerBlock = timeIntPerBuffer * cfg.nAnts * cfg.nchans := by
  have hle := cfg.cells_le
  have heq : cfg.nAnts * cfg.nchans * timeIntPerBuffer = timeIntPerBuffer * cfg.nAnts * cfg.nchans := by ring
  rw [Config.packetsPerBlock, heq, Nat.mod_eq_of_lt (by omega)]

theorem card_cell (cfg : Config) : Fintype.card cfg.Cell = cfg.packetsPerBlock := by
  rw [packetsPerBlock_eq, Fintype.card_prod, Fintype.card_prod, Fintype.card_fin, Fintype.card_fin, Fintype.card_fin,
    Nat.mul_assoc]

theorem mem_filled {x : cfg.Cell} :
    x ∈ filled cfg antNumbers packetNo packets ↔
      ∃ p ∈ packets, p.BelongsTo cfg antNumbers packetNo x.1 x.2.1 x.2.2 := by
  simp [filled]

/-- The key of the packets that fill a cell. -/
def Config.Cell.key (packetNo : Nat) (x : cfg.Cell) : Nat × Nat × Nat := (x.2.1, x.2.2, packetNo + x.1)

theorem belongsTo_iff_key (ht : Table antNumbers) (hp : packetNo % timeIntPerBuffer = 0) (x : cfg.Cell) :
    p.BelongsTo cfg antNumbers packetNo x.1 x.2.1 x.2.2 ↔ p.key cfg antNumbers = some (x.key packetNo) := by
  obtain ⟨r, a, c⟩ := x
  rw [belongsTo_iff ht hp r.isLt a.isLt c.isLt, Packet.key, Option.map_eq_some_iff]
  have hlt := getPcktNo_lt p.header
  have hr := r.isLt
  simp only [getPacketFilter_eq (show getPcktNo p.header < 2 ^ 64 by omega), getPacketRest_eq, Config.Cell.key,
    Prod.mk.injEq, timeIntPerBuffer] at hp hr ⊢
  constructor
  · rintro ⟨hacc, hf, hrest⟩
    exact ⟨_, hacc, rfl, rfl, by omega⟩
  · rintro ⟨⟨a', c'⟩, hacc, rfl, rfl, hno⟩
    exact ⟨hacc, by omega, by omega⟩

theorem inBlock_iff_key (ht : Table antNumbers) (hp : packetNo % timeIntPerBuffer = 0) :
    p.inBlock cfg antNumbers packetNo = true ↔ ∃ x : cfg.Cell, p.key cfg antNumbers = some (x.key packetNo) := by
  have hlt := getPcktNo_lt p.header
  rw [Packet.inBlock, Bool.and_eq_true, beq_iff_eq, getPacketFilter_eq (by omega)]
  simp only [Packet.key, Option.map_eq_some_iff, Config.Cell.key]
  constructor
  · rintro ⟨hacc, hf⟩
    obtain ⟨⟨a, c⟩, hacc⟩ := Option.isSome_iff_exists.mp hacc
    obtain ⟨-, ha, -, -, -, hc⟩ := (accepts_iff cfg ht p.header a c).mp hacc
    have hr : getPcktNo p.header % timeIntPerBuffer < timeIntPerBuffer := Nat.mod_lt _ (by decide)
    refine ⟨(⟨_, hr⟩, ⟨a, ha⟩, ⟨c, hc⟩), _, hacc, ?_⟩
    simp only [timeIntPerBuffer, Prod.mk.injEq, true_and] at hf ⊢
    omega
  · rintro ⟨⟨r, a, c⟩, ac, hacc, hno⟩
    refine ⟨by rw [hacc]; rfl, ?_⟩
    have hr := r.isLt
    simp only [Prod.mk.injEq, timeIntPerBuffer] at hno hp hr ⊢
    omega

/-- Without two packets of one key a block has as many packets as filled cells. -/
theorem countP_inBlock (ht : Table antNumbers) (hp : packetNo % timeIntPerBuffer = 0)
    (hkeys : (packets.filterMap (Packet.key cfg antNumbers)).Nodup) :
    packets.countP (Packet.inBlock cfg antNumbers packetNo) = (filled cfg antNumbers packetNo packets).card := by
  induction packets with
  | nil => simp [filled]
  | cons p packets ih =>
    have hmem : ∀ y : cfg.Cell, y ∈ filled cfg antNumbers packetNo (p :: packets) ↔
        p.key cfg antNumbers = some (y.key packetNo) ∨ y ∈ filled cfg antNumbers packetNo packets := by
      intro y
      simp only [mem_filled, List.exists_mem_cons_iff, belongsTo_iff_key ht hp]
    have ih := ih (hkeys.sublist ((List.sublist_cons_self p packets).filterMap _))
    by_cases hb : p.inBlock cfg antNumbers packetNo = true
    · obtain ⟨x, hx⟩ := (inBlock_iff_key ht hp).mp hb
      have hinsert : filled cfg antNumbers packetNo (p :: packets) =
          insert x (filled cfg antNumbers packetNo packets) := by
        ext y
        rw [hmem, Finset.mem_insert, hx, Option.some.injEq]
        refine or_congr ⟨fun h => ?_, fun h => h ▸ rfl⟩ .rfl
        obtain ⟨r, a, c⟩ := x
        obtain ⟨r', a', c'⟩ := y
        simp only [Config.Cell.key, Prod.mk.injEq, Fin.ext_iff] at h ⊢
        omega
      have hnot : x ∉ filled cfg antNumbers packetNo packets := by
        intro hw
        obtain ⟨q, hq, hbelongs⟩ := mem_filled.mp hw
        rw [List.filterMap_cons_some hx, List.nodup_cons] at hkeys
        exact hkeys.1 (List.mem_filterMap.mpr ⟨q, hq, (belongsTo_iff_key ht hp x).mp hbelongs⟩)
      rw [List.countP_cons_of_pos hb, ih, hinsert, Finset.card_insert_of_notMem hnot]
    · have hsame : filled cfg antNumbers packetNo (p :: packets) = filled cfg antNumbers packetNo packets := by
        ext y
        rw [hmem]
        exact or_iff_right fun hy => hb ((inBlock_iff_key ht hp).mpr ⟨y, hy⟩)
      rw [List.countP_cons_of_neg hb, ih, hsame]

theorem card_filled_le (cfg : Config) (antNumbers : List Nat) (packetNo : Nat) (packets : List Packet) :
    (filled cfg antNumbers packetNo packets).card ≤ cfg.packetsPerBlock :=
  (Finset.card_le_univ _).trans_eq (card_cell cfg)

theorem card_filled_eq_iff :
    (filled cfg antNumbers packetNo packets).card = cfg.packetsPerBlock ↔
      ∀ x : cfg.Cell, ∃ p ∈ packets, p.BelongsTo cfg antNumbers packetNo x.1 x.2.1 x.2.2 := by
  rw [← card_cell, Finset.card_eq_iff_eq_univ, Finset.eq_univ_iff_forall]
  exact forall_congr' fun x => mem_filled

end

/-! ### The packets of the stream -/

def storedPackets (cfg : Config) (antNumbers : List Nat) (log : List Event) : Nat :=
  ((handedOver log).map fun x => x.2.countP (Packet.inBlock cfg antNumbers x.1.packetNo)).sum

theorem program_packets (bufs : List UdpBuffer) :
    (program bufs).filterMap Instr.packet? = bufs.flatMap UdpBuffer.packets := by
  induction bufs with
  | nil => rfl
  | cons b bufs ih =>
    rw [program, List.flatMap_cons, List.filterMap_append, packets_iteration, List.flatMap_cons, ← ih, program]

theorem Reached.antennas (hw : Reached cfg slots u bufs w) (hd : w.firstLoopDone = true) :
    w.antNumbers = antennaTable cfg bufs := by
  obtain ⟨is, hp, rfl⟩ := hw
  have hne : is ≠ [] := by
    rintro rfl
    simp [workerAfter, Worker.start] at hd
  rcases program_cases bufs with ⟨-, hnil⟩ | ⟨packets, js, hb, -, -⟩
  · rw [hnil] at hp
    exact absurd (List.prefix_nil.mp hp) hne
  · rw [(workerAfter_first cfg slots u hb hp hne).2.2, antennaTable, hb, Option.getD_some]

theorem Reached.keys (hw : Reached cfg slots u bufs w) (hd : w.firstLoopDone = true) (h : DistinctKeys cfg bufs)
    (iK : Fin 6) :
    ((packetsSince (w.localStruct iK).order w.log).filterMap (Packet.key cfg w.antNumbers)).Nodup := by
  rw [hw.antennas hd]
  obtain ⟨is, hp, rfl⟩ := hw
  have hsub := (packetsDuring_sublist cfg slots u ((workerAfter cfg slots u is).localStruct iK).order is).trans
    (hp.filterMap Instr.packet?).sublist
  rw [program_packets, (traced cfg slots u hp).here iK] at hsub
  exact h.sublist (hsub.filterMap _)

/-! ### The balance -/

/-- The counts of the local blocks, and of what was handed over. -/
structure Balanced (cfg : Config) (w : Worker) : Prop where
  nToFull : ∀ iK, (w.localStruct iK).nToFull = cfg.packetsPerBlock -
    (packetsSince (w.localStruct iK).order w.log).countP
      (Packet.inBlock cfg w.antNumbers (w.localStruct iK).packetNo)
  noMissing : w.noMissing + storedPackets cfg w.antNumbers w.log = cfg.packetsPerBlock * (handedOver w.log).length

theorem Balanced.packetStep (h : Balanced cfg w) (hinj : Function.Injective fun iK => (w.localStruct iK).packetNo)
    (p : Packet) : Balanced cfg (w.packetStep cfg p) := by
  obtain ⟨-, -, -, -, hant, -, hlog⟩ := w.packetStep_frame cfg p
  refine ⟨fun iK => ?_, ?_⟩
  · rw [hant, hlog, Worker.packetStep_order, Worker.packetStep_packetNo, packetsSince_packet, List.countP_append,
      List.countP_singleton, Nat.cast_add]
    have hcount := h.nToFull iK
    rcases w.packetStep_cases cfg p with ⟨hno, hs⟩ | ⟨a, c, s, hacc, hfind, hs⟩ <;> rw [hs]
    · have hout : p.inBlock cfg w.antNumbers (w.localStruct iK).packetNo = false := by
        rw [Packet.inBlock, Bool.and_eq_false_iff, Option.isSome_eq_false_iff, beq_eq_false_iff_ne]
        cases hacc : cfg.accepts w.antNumbers p.header with
        | none => exact .inl rfl
        | some ac => exact .inr (Ne.symm (findStructIndex_eq_none.mp (hno ac.1 ac.2 hacc) iK))
      simp [hout, hcount]
    · have hs' := findStructIndex_spec hfind
      have hin : p.inBlock cfg w.antNumbers (w.localStruct iK).packetNo = true ↔ iK = s := by
        rw [Packet.inBlock, hacc, Option.isSome_some, Bool.true_and, beq_iff_eq, ← hs']
        exact ⟨fun heq => hinj heq.symm, fun heq => heq ▸ rfl⟩
      by_cases hi : iK = s
      · subst hi
        simp only [Function.update_self, if_pos (hin.mpr rfl), hcount]
        omega
      · simp only [Function.update_of_ne hi, if_neg (fun h => hi (hin.mp h)), hcount]
        omega
  · have hmiss : (w.packetStep cfg p).noMissing = w.noMissing := by
      rcases w.packetStep_cases cfg p with ⟨-, hs⟩ | ⟨a, c, s, -, -, hs⟩ <;> rw [hs]
    have hover : handedOver (w.log ++ [.packet p]) = handedOver w.log := handedOver_of_none rfl
    rw [hmiss, hant, hlog, storedPackets, hover]
    exact h.noMissing

/-- A block goes out with what it lacks added to `n`, and an empty one comes in. -/
theorem Balanced.handOver {n : Nat} (h : Balanced cfg w) (ho : Ordered w) (iK : Fin 6) {e : Handed → Event}
    (he : ∀ b, (e b).handed? = some b) (hn : (n : Int) = w.noMissing + (w.localStruct iK).nToFull) :
    Balanced cfg ({ w with noMissing := n }.handOver cfg slots iK e) := by
  have hlog : ∀ a b : Event, w.log ++ [a, b] = w.log ++ [a] ++ [b] := by simp
  refine ⟨fun jK => ?_, ?_⟩
  · rw [Worker.handOver_log, hlog, packetsSince_alloc, packetsSince_handed _ _ (he _), Worker.handOver_localStruct,
      Worker.handOver_antNumbers]
    by_cases hj : jK = iK
    · subst hj
      simp [Worker.fresh]
    · have hlt := ho.lt jK
      simp only [Function.update_of_ne hj]
      rw [if_neg (by omega)]
      exact h.nToFull jK
  · have hcount := h.nToFull iK
    have hmissing := h.noMissing
    rw [Worker.handOver_log, hlog, storedPackets, handedOver_of_none (e := .alloc _ _) rfl, handedOver_of_some (he _),
      List.map_append, List.sum_append, List.length_append, List.length_singleton, Nat.mul_succ,
      Worker.handOver_antNumbers]
    simp only [List.map_cons, List.map_nil, List.sum_singleton, Worker.handed]
    have hsum : n + (storedPackets cfg w.antNumbers w.log + (packetsSince (w.localStruct iK).order w.log).countP
        (Packet.inBlock cfg w.antNumbers (w.localStruct iK).packetNo)) =
        cfg.packetsPerBlock * (handedOver w.log).length + cfg.packetsPerBlock := by
      omega
    exact hsum

/-- An instruction that leaves the blocks, their counts and the packets alone. -/
theorem Balanced.quiet {w' : Worker} (h : Balanced cfg w) (hlocal : w'.localStruct = w.localStruct)
    (hant : w'.antNumbers = w.antNumbers) (hmiss : w'.noMissing = w.noMissing)
    (hlog : w'.log = w.log ∨ ∃ n, w'.log = w.log ++ [.mostlyStarted n]) : Balanced cfg w' := by
  rcases hlog with hlog | ⟨n, hlog⟩
  · exact ⟨by simpa only [hlog, hlocal, hant] using h.nToFull, by simpa only [hlog, hant, hmiss] using h.noMissing⟩
  · refine ⟨by simpa only [hlog, hlocal, hant, packetsSince_mostlyStarted] using h.nToFull, ?_⟩
    have hover : handedOver (w.log ++ [.mostlyStarted n]) = handedOver w.log := handedOver_of_none rfl
    rw [hlog, hant, hmiss, storedPackets, hover]
    exact h.noMissing

theorem Numbered.block_mod (hn : Numbered w) (iK : Fin 6) : (w.localStruct iK).packetNo % timeIntPerBuffer = 0 := by
  rw [hn.packetNo]
  exact blockNo_mod hn.start_mod _

theorem Balanced.nToFull_eq (h : Balanced cfg w) (ht : Table w.antNumbers) (hn : Numbered w) (iK : Fin 6)
    (hkeys : ((packetsSince (w.localStruct iK).order w.log).filterMap (Packet.key cfg w.antNumbers)).Nodup) :
    (cfg.packetsPerBlock : Int) - (w.localStruct iK).nToFull =
      (filled cfg w.antNumbers (w.localStruct iK).packetNo (packetsSince (w.localStruct iK).order w.log)).card := by
  rw [h.nToFull iK, countP_inBlock ht (hn.block_mod iK) hkeys]
  omega

theorem handedOver_length (log : List Event) : (handedOver log).length = (handedOrders log).length := by
  induction log using List.reverseRecOn with
  | nil => rfl
  | append_singleton log e ih =>
    rw [handedOver_append, List.length_append, handedOrders, List.filterMap_append, List.length_append, ih,
      handedOrders]
    cases e <;> rfl

/-- Six blocks are local, one is next, and all before them are handed over. -/
theorem Reached.handedOver_length (hw : Reached cfg slots u bufs w) : (handedOver w.log).length + 7 = w.nextOrder := by
  rw [VoltRec.handedOver_length]
  refine hw.blocks (I := fun w => (handedOrders w.log).length + 7 = w.nextOrder) rfl ?_ ?_ ?_
  · intro w packets _ _ hd h
    simpa [Worker.firstScan, hd] using h
  · exact fun w w' hs h => by rw [hs.handed, hs.nextOrder]; exact h
  · intro w iK e he _ h
    have hone : handedOrders (w.log ++ [e (w.handed cfg iK), .alloc w.nextOrder (slots w.nextOrder)]) =
        handedOrders w.log ++ [(w.handed cfg iK).order] := by
      have hcons := List.filterMap_cons_some (l := [.alloc w.nextOrder (slots w.nextOrder)]) (he (w.handed cfg iK))
      rw [handedOrders, List.filterMap_append, hcons]
      rfl
    rw [Worker.handOver_log, hone, Worker.handOver_nextOrder, List.length_append, List.length_singleton, ← h]

theorem Reached.balanced (hw : Reached cfg slots u bufs w) (hdistinct : DistinctKeys cfg bufs) :
    w.nextOrder ≤ 2 ^ 31 → Balanced cfg w := by
  refine hw.induction (I := fun w => w.nextOrder ≤ 2 ^ 31 → Balanced cfg w) ?_ ?_ ?_ ?_ ?_ ?_ ?_
  · intro _
    have hnil : ∀ k, packetsSince k (Worker.start cfg slots u).log = [] := fun k => packetsSince_allocs _ _ k _
    refine ⟨fun iK => by rw [hnil]; simp [Worker.start], ?_⟩
    simp [Worker.start, storedPackets, handedOver, List.finRange_succ, Event.handed?, List.range_succ]
  · intro w packets hr _ hd h hlt
    obtain ⟨-, hnext, -, hlocal⟩ := firstScan_blocks cfg packets hd
    obtain ⟨hnone, hnot⟩ := hr.assembling.unscanned hd
    have hlen := hr.handedOver_length
    have hover : handedOver w.log = [] := List.length_eq_zero_iff.mp (by rw [(hr.unscanned hd).1] at hlen; omega)
    have hlog : (w.firstScan cfg packets).log = w.log := by simp [Worker.firstScan, hd]
    have hmiss : (w.firstScan cfg packets).noMissing = w.noMissing := by simp [Worker.firstScan, hd]
    have hbal := h (hnext ▸ hlt)
    refine ⟨fun iK => ?_, ?_⟩
    · have hcount := hbal.nToFull iK
      rw [hlocal iK, hlog]
      rw [hnone] at hcount ⊢
      exact hcount
    · rw [hmiss, hlog, storedPackets, hover]
      have hmissing := hbal.noMissing
      rw [storedPackets, hover] at hmissing
      exact hmissing
  · intro w p hr hd h hlt
    rw [(w.packetStep_frame cfg p).1] at hlt
    exact (h hlt).packetStep ((hr.numbered hd).inj hr.ordered hlt) p
  · exact fun w _ _ h hlt => (h hlt).quiet rfl rfl rfl (.inl rfl)
  · intro w iK hr _ h hlt
    have ho := hr.ordered
    rcases w.fullStep_cases cfg slots iK with ⟨h0, hs⟩ | ⟨-, hs⟩ <;> rw [hs] at hlt ⊢
    · rw [Worker.handOver_nextOrder] at hlt
      have hq : Balanced cfg { w with lastSentPacketNo := (w.localStruct iK).packetNo } :=
        (h (Nat.le_of_succ_le hlt)).quiet rfl rfl rfl (.inl rfl)
      exact hq.handOver (e := .full) ⟨ho.pos, ho.lt, ho.inj, ho.next⟩ iK (fun _ => rfl) (by simp only [h0]; omega)
    · exact (h hlt).quiet rfl rfl rfl (.inl rfl)
  · intro w _ _ h hlt
    rcases w.checkStarted_cases with ⟨-, hs⟩ | ⟨-, hs⟩ <;> rw [hs] at hlt ⊢
    · exact (h hlt).quiet rfl rfl rfl (.inr ⟨_, rfl⟩)
    · exact h hlt
  · intro w iK hr hd h hlt
    unfold Worker.earlierStep at hlt ⊢
    split at hlt
    · rename_i hearly
      rw [if_pos hearly]
      have hlt : w.nextOrder + 1 ≤ 2 ^ 31 := hlt
      have hbal := h (Nat.le_of_succ_le hlt)
      have hcount := hbal.nToFull_eq hr.assembling.table (hr.numbered hd) iK (hr.keys hd hdistinct iK)
      have hcard := card_filled_le cfg w.antNumbers (w.localStruct iK).packetNo
        (packetsSince (w.localStruct iK).order w.log)
      have hlen := hr.handedOver_length
      have hppb : cfg.packetsPerBlock ≤ 16384 := by
        rw [packetsPerBlock_eq]
        exact cfg.cells_le
      -- The sum stays far below 2^64.
      have hsmall : cfg.packetsPerBlock * (handedOver w.log).length ≤ 16384 * 2 ^ 31 :=
        Nat.mul_le_mul hppb (by omega)
      have hmissing := hbal.noMissing
      refine hbal.handOver (e := .early) hr.ordered iK (fun _ => rfl) ?_
      omega
    · rename_i hearly
      rw [if_neg hearly]
      exact h hlt

theorem fullStep_log_iff (w : Worker) (iK : Fin 6) :
    (∃ e, (w.fullStep cfg slots iK).log = w.log ++ [.full (w.handed cfg iK), e]) ↔ (w.localStruct iK).nToFull = 0 := by
  rcases w.fullStep_cases cfg slots iK with ⟨h0, hs⟩ | ⟨h0, hs⟩ <;> rw [hs]
  · exact iff_of_true ⟨_, rfl⟩ h0
  · exact iff_of_false (by simp) h0

/-! ### What the copies write -/

/-- The pass of the packet loop for `p` overwrites cell `x` of the local block `iK`. -/
def Worker.Writes (cfg : Config) (w : Worker) (p : Packet) (iK : Fin 6) (x : cfg.Cell) : Prop :=
  ∀ j : Fin rxDataLen, Memory.Overwrites (fun data => ({ w with data := data }.packetStep cfg p).data)
    (w.localStruct iK).index (cfg.cell x.1 x.2.1 x.2.2 * rxDataLen + j)

/-- The cells of block `order` that have been overwritten while it was local. -/
def written (cfg : Config) (slots : Nat → Nat) (u : Uninit) (order : Nat) (is : List Instr) : Set cfg.Cell :=
  {x | ∃ y ∈ processed cfg slots (.start cfg slots u) is, ∃ iK,
    (y.1.localStruct iK).order = order ∧ y.1.Writes cfg y.2 iK x}

open Classical in
/-- The number of packets whose pass has overwritten a cell of block `order`. -/
noncomputable def stored (cfg : Config) (slots : Nat → Nat) (u : Uninit) (order : Nat) (is : List Instr) : Nat :=
  (processed cfg slots (.start cfg slots u) is).countP fun y => ∃ iK x,
    (y.1.localStruct iK).order = order ∧ y.1.Writes cfg y.2 iK x

/-- A pass leaves all buffers as they are, or copies the payload to its cell of one of them. -/
theorem Worker.packetStep_data (cfg : Config) (w : Worker) (p : Packet) :
    ((∀ a c, cfg.accepts w.antNumbers p.header = some (a, c) →
        findStructIndex w.localStruct (getPacketFilter (getPcktNo p.header)) = none) ∧
      (fun data => ({ w with data := data }.packetStep cfg p).data) = fun data => data) ∨
    ∃ a c s, cfg.accepts w.antNumbers p.header = some (a, c) ∧
      findStructIndex w.localStruct (getPacketFilter (getPcktNo p.header)) = some s ∧
      (fun data => ({ w with data := data }.packetStep cfg p).data) = fun data =>
        Function.update data (w.localStruct s).index (Memory.copy (data (w.localStruct s).index)
          (cfg.offset (getPacketRest (getPcktNo p.header)) a c) p.payload) := by
  cases hacc : cfg.accepts w.antNumbers p.header with
  | none => exact Or.inl ⟨fun _ _ h => (by cases h), by simp [packetStep, hacc]⟩
  | some ac =>
    obtain ⟨a, c⟩ := ac
    cases hs : findStructIndex w.localStruct (getPacketFilter (getPcktNo p.header)) with
    | none => exact Or.inl ⟨fun _ _ _ => rfl, by simp [packetStep, hacc, hs]⟩
    | some s => exact Or.inr ⟨a, c, s, rfl, rfl, by simp [packetStep, hacc, hs]⟩

/-- A pass overwrites the cell that its packet belongs to, of the one block with that packet number. -/
theorem Placed.writes_iff (hp : Placed w) (ht : Table w.antNumbers) (hn : Numbered w) (ho : Ordered w)
    (hlt : w.nextOrder ≤ 2 ^ 31) (p : Packet) (iK : Fin 6) (x : cfg.Cell) :
    w.Writes cfg p iK x ↔ p.BelongsTo cfg w.antNumbers (w.localStruct iK).packetNo x.1 x.2.1 x.2.2 := by
  obtain ⟨r, a, c⟩ := x
  have hlen : 0 < rxDataLen := by decide
  have : Nontrivial UInt8 := ⟨0, 1, by decide⟩
  rw [belongsTo_iff ht (hn.block_mod iK) r.isLt a.isLt c.isLt, Worker.Writes]
  rcases w.packetStep_data cfg p with ⟨hno, hdata⟩ | ⟨a', c', s, hacc, hfind, hdata⟩ <;> rw [hdata]
  · refine iff_of_false (fun h => Memory.not_overwrites_id (h ⟨0, hlen⟩)) ?_
    rintro ⟨hacc, hf, -⟩
    exact findStructIndex_eq_none.mp (hno a c hacc) iK hf.symm
  · obtain ⟨-, ha, -, -, -, hc⟩ := (accepts_iff cfg ht p.header a' c').mp hacc
    have hblock := findStructIndex_spec hfind
    rw [cfg.offset_eq (getPacketRest_lt (getPcktNo p.header)) ha hc]
    simp only [Memory.overwrites_copy]
    constructor
    · intro h
      obtain ⟨hi, -⟩ := h ⟨0, hlen⟩
      obtain rfl := hp.inj hi
      have hcell : cfg.cell r a c = cfg.cell (getPacketRest (getPcktNo p.header)) a' c' := by
        by_contra hne
        have hout := Radix.disjoint (Fin.isLt ⟨0, hlen⟩) hne
        obtain ⟨-, h1, h2⟩ := h ⟨0, hlen⟩
        omega
      obtain ⟨hr, rfl, rfl⟩ := cfg.cell_inj a.isLt c.isLt ha hc hcell
      exact ⟨hacc, hblock.symm, hr.symm⟩
    · rintro ⟨hacc', hf, hr⟩ j
      cases hacc'.symm.trans hacc
      rw [hr]
      have hi : iK = s := hn.inj ho hlt (hf.symm.trans hblock.symm)
      have hj := j.isLt
      exact ⟨by rw [hi], Nat.le_add_right _ _, Nat.add_lt_add_left hj _⟩

theorem inBlock_iff {antNumbers : List Nat} (ht : Table antNumbers) {packetNo : Nat}
    (hp : packetNo % timeIntPerBuffer = 0) (p : Packet) :
    p.inBlock cfg antNumbers packetNo = true ↔
      ∃ x : cfg.Cell, p.BelongsTo cfg antNumbers packetNo x.1 x.2.1 x.2.2 := by
  rw [inBlock_iff_key ht hp]
  exact exists_congr fun x => (belongsTo_iff_key ht hp x).symm

section Run
variable {is pre : List Instr} (hp : is <+: program bufs)
include hp

/-- The scan of the first buffer counts for the whole run. -/
theorem workerAfter_same (hpre : pre <+: is) (hd : (workerAfter cfg slots u pre).firstLoopDone = true) :
    (workerAfter cfg slots u is).packetStart = (workerAfter cfg slots u pre).packetStart ∧
      (workerAfter cfg slots u is).antNumbers = (workerAfter cfg slots u pre).antNumbers ∧
      (workerAfter cfg slots u pre).log <+: (workerAfter cfg slots u is).log ∧
      (workerAfter cfg slots u pre).nextOrder ≤ (workerAfter cfg slots u is).nextOrder := by
  have hr : Reached cfg slots u bufs (workerAfter cfg slots u is) := ⟨is, hp, rfl⟩
  have hr' : Reached cfg slots u bufs (workerAfter cfg slots u pre) := ⟨pre, hpre.trans hp, rfl⟩
  obtain ⟨rest, rfl⟩ := hpre
  have hlog := Worker.log_foldl cfg slots (workerAfter cfg slots u pre) rest
  have hcount := hlog.sublist.countP_le (p := Event.isAlloc)
  rw [← workerAfter_append] at hlog hcount
  have h := Worker.foldl_firstLoopDone cfg slots hd rest
  rw [← workerAfter_append] at h
  have hnext := hr.assembling.allocated
  have hnext' := hr'.assembling.allocated
  exact ⟨h.2.1, h.2.2, hlog, by omega⟩

variable (hf : Fresh (workerAfter cfg slots u is).log) (hlt : (workerAfter cfg slots u is).nextOrder ≤ 2 ^ 31)
include hf hlt

theorem processed_writes {y : Worker × Packet} (hy : y ∈ processed cfg slots (.start cfg slots u) is) (iK : Fin 6)
    (x : cfg.Cell) :
    y.1.Writes cfg y.2 iK x ↔ y.2.BelongsTo cfg (workerAfter cfg slots u is).antNumbers
      (blockNo (workerAfter cfg slots u is).packetStart (y.1.localStruct iK).order) x.1 x.2.1 x.2.2 := by
  obtain ⟨pre, hpre, hw⟩ := mem_processed hy
  have hd := @workerAfter_done cfg slots u _ _ _ (hpre.trans hp) (by simp)
  have hpre := (List.prefix_append pre _).trans hpre
  have hr : Reached cfg slots u bufs (workerAfter cfg slots u pre) := ⟨pre, hpre.trans hp, rfl⟩
  obtain ⟨hstart, hant, ⟨es, hes⟩, hnext⟩ := @workerAfter_same cfg slots u _ _ _ hp hpre hd
  have hn := hr.numbered hd
  have hplaced := hr.placed (Fresh.of_append (hes ▸ hf))
  rw [hw, hstart, hant, ← hn.packetNo iK]
  exact hplaced.writes_iff hr.assembling.table hn hr.ordered (hnext.trans hlt) y.2 iK x

theorem mem_written {order : Nat} {x : cfg.Cell} :
    x ∈ written cfg slots u order is ↔ ∃ p ∈ packetsDuring cfg slots u order is,
      p.BelongsTo cfg (workerAfter cfg slots u is).antNumbers
        (blockNo (workerAfter cfg slots u is).packetStart order) x.1 x.2.1 x.2.2 := by
  constructor
  · rintro ⟨y, hy, iK, rfl, hw⟩
    refine ⟨y.2, List.mem_map.mpr ⟨y, ?_, rfl⟩, (processed_writes hp hf hlt hy iK x).mp hw⟩
    simpa [hy] using ⟨iK, rfl⟩
  · rintro ⟨p, hmem, hb⟩
    obtain ⟨y, hy, rfl⟩ := List.mem_map.mp hmem
    obtain ⟨hin, hlocal⟩ := List.mem_filter.mp hy
    obtain ⟨iK, rfl⟩ := of_decide_eq_true hlocal
    exact ⟨y, hin, iK, rfl, (processed_writes hp hf hlt hin iK x).mpr hb⟩

theorem stored_eq (hd : (workerAfter cfg slots u is).firstLoopDone = true) (order : Nat) :
    stored cfg slots u order is = (packetsDuring cfg slots u order is).countP
      (Packet.inBlock cfg (workerAfter cfg slots u is).antNumbers
        (blockNo (workerAfter cfg slots u is).packetStart order)) := by
  have hr : Reached cfg slots u bufs (workerAfter cfg slots u is) := ⟨is, hp, rfl⟩
  have hmod := blockNo_mod (hr.numbered hd).start_mod order
  rw [stored, packetsDuring, List.countP_map, List.countP_filter]
  refine List.countP_congr fun y hy => ?_
  simp only [decide_eq_true_eq, Function.comp_apply, Bool.and_eq_true, inBlock_iff hr.assembling.table hmod]
  constructor
  · rintro ⟨iK, x, rfl, hw⟩
    exact ⟨⟨x, (processed_writes hp hf hlt hy iK x).mp hw⟩, iK, rfl⟩
  · rintro ⟨⟨x, hb⟩, iK, rfl⟩
    exact ⟨iK, x, rfl, (processed_writes hp hf hlt hy iK x).mpr hb⟩

/-- What the log says was stored is what the copies have stored. -/
theorem storedPackets_eq (hd : (workerAfter cfg slots u is).firstLoopDone = true) :
    storedPackets cfg (workerAfter cfg slots u is).antNumbers (workerAfter cfg slots u is).log =
      (((workerAfter cfg slots u is).log.filterMap Event.handed?).map fun b => stored cfg slots u b.order is).sum := by
  rw [← handedOver_fst, List.map_map, storedPackets]
  refine congrArg List.sum (List.map_congr_left fun x hx => ?_)
  obtain ⟨pre, iK, hpre, hd', hfrom⟩ := handed_from hp hx
  have hr : Reached cfg slots u bufs (workerAfter cfg slots u pre) := ⟨pre, hpre.trans hp, rfl⟩
  have hno : x.1.packetNo = blockNo (workerAfter cfg slots u is).packetStart x.1.order := by
    rw [hfrom, (workerAfter_same hp hpre hd').1]
    exact (hr.numbered hd').packetNo iK
  rw [Function.comp_apply, stored_eq hp hf hlt hd, hno, (traced cfg slots u hp).handed x hx]

end Run

/-- From the first scan on, the count of a local block is that of the cells of it that no packet has overwritten, a
    block is handed over as full exactly when there is none, and what the others lacked adds up to `noMissing`. -/
theorem completeness (cfg : Config) (slots : Nat → Nat) (u : Uninit) (bufs : List UdpBuffer) {is : List Instr}
    (hp : is <+: program bufs) (hne : is ≠ []) (hans : Answered (workerAfter cfg slots u is).log)
    (hfew : (workerAfter cfg slots u is).nextOrder - 1 < 2 ^ 31) (hdistinct : DistinctKeys cfg bufs) :
    let w := workerAfter cfg slots u is
    let published := w.log.filterMap Event.handed?
    (∀ iK,
      (cfg.packetsPerBlock : Int) - (w.localStruct iK).nToFull =
        (written cfg slots u (w.localStruct iK).order is).ncard ∧
      0 ≤ (w.localStruct iK).nToFull ∧ (w.localStruct iK).nToFull ≤ cfg.packetsPerBlock ∧
      ((∃ e, (w.fullStep cfg slots iK).log = w.log ++ [.full (w.handed cfg iK), e]) ↔
        ∀ x, x ∈ written cfg slots u (w.localStruct iK).order is)) ∧
    w.noMissing + (published.map fun b => stored cfg slots u b.order is).sum =
      cfg.packetsPerBlock * published.length := by
  intro w published
  have hr : Reached cfg slots u bufs w := ⟨is, hp, rfl⟩
  have hd : w.firstLoopDone = true := by
    rcases program_cases bufs with ⟨-, hnil⟩ | ⟨_, _, hb, -, -⟩
    · rw [hnil] at hp
      exact absurd (List.prefix_nil.mp hp) hne
    · exact (workerAfter_first cfg slots u hb hp hne).1
  have hlt : w.nextOrder ≤ 2 ^ 31 := Nat.le_of_pred_lt hfew
  have hbal := hr.balanced hdistinct hlt
  have hn := hr.numbered hd
  refine ⟨fun iK => ?_, ?_⟩
  · have hwritten : written cfg slots u (w.localStruct iK).order is =
        (filled cfg w.antNumbers (w.localStruct iK).packetNo (packetsSince (w.localStruct iK).order w.log) :
          Set cfg.Cell) := by
      ext x
      rw [mem_written hp hans.fresh hlt, Finset.mem_coe, mem_filled, hn.packetNo iK, (traced cfg slots u hp).here iK]
    have hcount := hbal.nToFull_eq hr.assembling.table hn iK (hr.keys hd hdistinct iK)
    have hcard := card_filled_le cfg w.antNumbers (w.localStruct iK).packetNo
      (packetsSince (w.localStruct iK).order w.log)
    have hall : (∀ x, x ∈ written cfg slots u (w.localStruct iK).order is) ↔ (w.localStruct iK).nToFull = 0 := by
      simp only [hwritten, Finset.mem_coe, mem_filled, ← card_filled_eq_iff]
      omega
    rw [hall, hwritten, Set.ncard_coe_finset, fullStep_log_iff]
    exact ⟨hcount, by omega, by omega, .rfl⟩
  · have hmissing := hbal.noMissing
    rw [storedPackets_eq hp hans.fresh hlt hd, ← List.length_map (f := Prod.fst), handedOver_fst] at hmissing
    exact hmissing

/-- One packet, whose block the stale reference sends off at once. -/
theorem completeness_firstPacket :
    let w := workerAfter singleChannel (· - 1) staleReference firstFlush
    let published := w.log.filterMap Event.handed?
    published.length = 1 ∧
      w.noMissing + (published.map fun b => stored singleChannel (· - 1) staleReference b.order firstFlush).sum =
        singleChannel.packetsPerBlock * published.length := by
  have hdistinct : DistinctKeys singleChannel [firstPacket] := by
    rw [DistinctKeys, List.flatMap_singleton, packets_firstPacket]
    cases h : (Packet.numbered 0).key singleChannel (antennaTable singleChannel [firstPacket]) <;> simp [h]
  obtain ⟨tr, s, hr, hcalls⟩ := run_firstFlush
  exact ⟨by decide +kernel, (completeness singleChannel (· - 1) staleReference [firstPacket]
    firstFlush_prefix (by simp [firstFlush, takeIn]) ⟨Unit, inferInstance, (), _, _, tr, s, hr, hcalls⟩
    (by decide +kernel) hdistinct).2⟩

end VoltRec
