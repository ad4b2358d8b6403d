import VoltRec.Theorems.WorkingBlocks
import Mathlib.Tactic.Linarith

/-! The header values of the blocks that the outer voltage thread hands downstream. `pktidx_per_block` and
    `pkts_per_block` of a working block are set by a packet that is copied into it, and a working block
    keeps its ring slot until it is handed over, so whether they are set is whether a packet went there. -/

namespace VoltRec.VoltOuter

/-! ### What the headers should say -/

/-- The packets copied into the block since it was initialised: by the advance that brought its number in,
    or by the last reset. -/
def packetsCopied (num : Int) : List Op → Nat
  | [] | .reinit :: _ => 0
  | .copy _ n _ :: log => packetsCopied num log + if n = num then 1 else 0
  | .waitFree _ :: log | .setFilled _ _ _ :: log => packetsCopied num log

/-- A packet was copied into the ring slot. -/
def Copied (slot : Int) (log : List Op) : Prop := ∃ num p, .copy slot num p ∈ log

def HeaderRight (cfg : Config) (num : Int) (hd : Header) (earlier : List Op) : Prop :=
  hd.pktidx = num * cfg.pktidxPerBlock ∧ hd.npkt = packetsCopied num earlier ∧
    hd.ndrop = max 0 (cfg.pktsPerBlock - hd.npkt)

/-- Every block handed downstream has the header values that belong to it. -/
def HeadersRight (cfg : Config) (log : List Op) : Prop :=
  Log.Each (fun op earlier => ∀ slot num hd, op = .setFilled slot num hd → HeaderRight cfg num hd earlier) log

/-- A packet went into the slot of the first working block, and fewer than 2^31 into the block itself. -/
def Refreshed (t : Thread) : Prop :=
  Copied t.wblk0.blockIdxOut t.log ∧ packetsCopied t.wblk0.blockNum t.log < 2 ^ 31

section

variable {cfg : Config} {log : List Op} {slot num n p s : Int} {h : Header}

@[simp] theorem packetsCopied_copy :
    packetsCopied num (.copy s n p :: log) = packetsCopied num log + if n = num then 1 else 0 := rfl

@[simp] theorem packetsCopied_waitFree : packetsCopied num (.waitFree s :: log) = packetsCopied num log := rfl

@[simp] theorem packetsCopied_setFilled : packetsCopied num (.setFilled s n h :: log) = packetsCopied num log := rfl

@[simp] theorem packetsCopied_reinit : packetsCopied num (.reinit :: log) = 0 := rfl

@[simp] theorem copied_copy : Copied slot (.copy s n p :: log) ↔ slot = s ∨ Copied slot log := by
  simp only [Copied, List.mem_cons, Op.copy.injEq]
  exact ⟨fun ⟨a, b, h⟩ => h.imp And.left fun h => ⟨a, b, h⟩,
    fun h => h.elim (fun h => ⟨n, p, .inl ⟨h, rfl, rfl⟩⟩) fun ⟨a, b, h⟩ => ⟨a, b, .inr h⟩⟩

@[simp] theorem copied_waitFree : Copied slot (.waitFree s :: log) ↔ Copied slot log := by simp [Copied]

@[simp] theorem copied_setFilled : Copied slot (.setFilled s n h :: log) ↔ Copied slot log := by simp [Copied]

@[simp] theorem copied_reinit : Copied slot (.reinit :: log) ↔ Copied slot log := by simp [Copied]

end

/-! ### The factors of a working block -/

/-- A working block counts its packets, and its factors are set when a packet went into its slot. Before
    that they are what the structures `wblk0` and `wblk1` held at the start; a reset may set
    `pkts_per_block`, but only once the block numbers have left 0. -/
structure Stats (cfg : Config) (wblk0 wblk1 : BlockInfo) (log : List Op) (first : Int) (bi : BlockInfo) : Prop where
  npacket : bi.npacket = packetsCopied bi.blockNum log % 2 ^ 32
  ndrop : bi.ndrop = 0
  set : Copied bi.blockIdxOut log → bi.pktidxPerBlock = cfg.pktidxPerBlock ∧ bi.pktsPerBlock = cfg.pktsPerBlock
  unset : ¬Copied bi.blockIdxOut log → bi.npacket = 0 ∧
    (bi.pktidxPerBlock = wblk0.pktidxPerBlock ∨ bi.pktidxPerBlock = wblk1.pktidxPerBlock) ∧
    (first = 0 → bi.pktsPerBlock = wblk0.pktsPerBlock ∨ bi.pktsPerBlock = wblk1.pktsPerBlock)

structure Counted (cfg : Config) (wblk0 wblk1 : BlockInfo) (t : Thread) : Prop where
  nonneg : 0 ≤ t.wblk0.blockNum
  stats0 : Stats cfg wblk0 wblk1 t.log t.wblk0.blockNum t.wblk0
  stats1 : Stats cfg wblk0 wblk1 t.log t.wblk0.blockNum t.wblk1
  above : ∀ n, t.wblk1.blockNum < n → packetsCopied n t.log = 0

section

variable {cfg : Config} {wblk0 wblk1 : BlockInfo} {log : List Op} {first : Int} {bi : BlockInfo} {t t' : Thread}
  {p : Int}

theorem Counted.start : Counted cfg wblk0 wblk1 (start wblk0 wblk1) where
  nonneg := le_refl 0
  stats0 := ⟨rfl, rfl, fun h => by simp [VoltOuter.start, Copied] at h, fun _ => ⟨rfl, .inl rfl, fun _ => .inl rfl⟩⟩
  stats1 := ⟨rfl, rfl, fun h => by simp [VoltOuter.start, Copied] at h, fun _ => ⟨rfl, .inr rfl, fun _ => .inr rfl⟩⟩
  above _ _ := rfl

/-- The block that takes the packet. -/
theorem Stats.count (h : Stats cfg wblk0 wblk1 log first bi) (p : Int) :
    Stats cfg wblk0 wblk1 (copyOp bi p :: log) first (countPacket cfg bi) where
  npacket := by
    simp only [countPacket, copyOp, packetsCopied_copy, if_true, h.npacket]
    omega
  ndrop := h.ndrop
  set _ := ⟨rfl, rfl⟩
  unset hn := absurd (copied_copy.mpr (.inl rfl)) hn

/-- The block that does not. -/
theorem Stats.skip {other : BlockInfo} (h : Stats cfg wblk0 wblk1 log first bi) (hnum : other.blockNum ≠ bi.blockNum)
    (hslot : bi.blockIdxOut ≠ other.blockIdxOut) (p : Int) :
    Stats cfg wblk0 wblk1 (copyOp other p :: log) first bi where
  npacket := by simpa [copyOp, hnum] using h.npacket
  ndrop := h.ndrop
  set hc := h.set (by simpa [copyOp, hslot] using hc)
  unset hn := h.unset fun hc => hn (copied_copy.mpr (.inr hc))

theorem Stats.handOver (h : Stats cfg wblk0 wblk1 log first bi) {first' : Int} (hfirst : first' ≠ 0)
    (free slot num : Int) (hd : Header) :
    Stats cfg wblk0 wblk1 (.waitFree free :: .setFilled slot num hd :: log) first' bi where
  npacket := h.npacket
  ndrop := h.ndrop
  set hc := h.set (by simpa using hc)
  unset hn := by
    obtain ⟨hnp, hidx, -⟩ := h.unset (by simpa using hn)
    exact ⟨hnp, hidx, fun h0 => absurd h0 hfirst⟩

theorem Stats.reinit (h : Stats cfg wblk0 wblk1 log first bi) (num : Int) {first' : Int} (hfirst : first' ≠ 0) :
    Stats cfg wblk0 wblk1 (.reinit :: log) first' (initBlockInfo bi (-1) num cfg.pktsPerBlock) := by
  have hslot := initBlockInfo_keeps_slot bi num cfg.pktsPerBlock
  have hidx : (initBlockInfo bi (-1) num cfg.pktsPerBlock).pktidxPerBlock = bi.pktidxPerBlock := by
    simp only [initBlockInfo, resetBlockInfoStats]
    split <;> split <;> rfl
  refine ⟨rfl, rfl, fun hc => ?_, fun hn => ?_⟩
  · rw [hslot, copied_reinit] at hc
    refine ⟨hidx.trans (h.set hc).1, ?_⟩
    by_cases hpos : cfg.pktsPerBlock > 0
    · simp only [initBlockInfo, resetBlockInfoStats, if_pos hpos]
    · simp only [initBlockInfo, resetBlockInfoStats, if_neg hpos]
      exact (h.set hc).2
  · rw [hslot, copied_reinit] at hn
    exact ⟨rfl, hidx ▸ (h.unset hn).2.1, fun h0 => absurd h0 hfirst⟩

/-- The working block that moves to the front while a packet opens the next one. -/
theorem Counted.advance (hman : Managed cfg t) (h : Counted cfg wblk0 wblk1 t) (hp : p = t.wblk0.blockNum + 2) :
    Counted cfg wblk0 wblk1
      { t with
        wblk0 := t.wblk1
        wblk1 := countPacket cfg (nextBlock cfg t.wblk1 p)
        ndropTotal := t.ndropTotal + finalNdrop t.wblk0
        log := copyOp (nextBlock cfg t.wblk1 p) p :: .waitFree (nextBlock cfg t.wblk1 p).blockIdxOut ::
          .setFilled t.wblk0.blockIdxOut t.wblk0.blockNum (header t.wblk0) :: t.log } := by
  have hnext := hman.next
  have hnonneg := h.nonneg
  have hnew : packetsCopied p t.log = 0 := h.above p (by omega)
  have hslot : t.wblk1.blockIdxOut ≠ (nextBlock cfg t.wblk1 p).blockIdxOut := by
    rw [nextBlock_slot hman.slot1, hman.slot1]
    exact_mod_cast (succ_mod_ne cfg.two_le_nBlock _).symm
  have hnum : (nextBlock cfg t.wblk1 p).blockNum = p := rfl
  have hother : (nextBlock cfg t.wblk1 p).blockNum ≠ t.wblk1.blockNum := by omega
  have hfirst : t.wblk1.blockNum ≠ 0 := by omega
  refine ⟨by simp only; omega, ?_, ⟨?_, rfl, fun _ => ⟨rfl, rfl⟩, fun hn => ?_⟩, fun n hn => ?_⟩
  · exact (h.stats1.handOver hfirst _ _ _ _).skip hother hslot p
  · simp [countPacket, nextBlock, resetBlockInfoStats, copyOp, hnew]
  · exact absurd (copied_copy.mpr (.inl rfl)) hn
  · simp only [countPacket, hnum] at hn
    have hne : p ≠ n := by omega
    simpa [copyOp, hnum, hne] using h.above n (by omega)

theorem Counted.moves (hman : Managed cfg t) (h : Counted cfg wblk0 wblk1 t) (hm : Moves cfg t p t') (hp0 : 0 ≤ p) :
    Counted cfg wblk0 wblk1 t' := by
  have hnext := hman.next
  cases hm with
  | advance hp => exact h.advance hman hp
  | reset _ =>
    have hfirst : p + 0 + 1 ≠ 0 := by omega
    refine ⟨?_, ?_, ?_, fun _ _ => rfl⟩
    · simp only [reset, initBlockInfo_blockNum]; omega
    · simp only [reset, initBlockInfo_blockNum]; exact h.stats0.reinit _ hfirst
    · simp only [reset, initBlockInfo_blockNum]; exact h.stats1.reinit _ hfirst
  | late _ => exact ⟨h.nonneg, h.stats0, h.stats1, h.above⟩
  | first hp =>
    refine ⟨h.nonneg, h.stats0.count p, h.stats1.skip (by omega) hman.slots_ne p, fun n hn => ?_⟩
    have hne : t.wblk0.blockNum ≠ n := by simp only at hn; omega
    simpa [copyOp, hne] using h.above n hn
  | second hp =>
    refine ⟨h.nonneg, h.stats0.skip (by omega) hman.slots_ne.symm p, h.stats1.count p, fun n hn => ?_⟩
    have hne : t.wblk1.blockNum ≠ n := by simp only [countPacket] at hn; omega
    simpa [copyOp, hne] using h.above n hn

end

/-! ### The values in a header -/

section

variable {cfg : Config} {wblk0 wblk1 : BlockInfo} {log : List Op} {first : Int} {bi : BlockInfo}

theorem bmod_64 {x : Int} (h0 : 0 ≤ x) (h1 : x < 2 ^ 62) : x.bmod (2 ^ 64) = x :=
  Int.bmod_eq_of_le (by omega) (by omega)

theorem bmod_32 {x : Int} (h0 : 0 ≤ x) (h1 : x < 2 ^ 31) : x.bmod (2 ^ 32) = x :=
  Int.bmod_eq_of_le (by omega) (by omega)

theorem bmod_32_lt (x : Int) : x.bmod (2 ^ 32) < 2 ^ 31 := (Int.bmod_lt (by decide)).trans_le (by norm_num)

theorem header_pktidx (bi : BlockInfo) : (header bi).pktidx = (bi.blockNum * bi.pktidxPerBlock).bmod (2 ^ 64) := by
  simp only [header]

theorem header_npkt (bi : BlockInfo) : (header bi).npkt = (bi.npacket : Int).bmod (2 ^ 32) := by simp only [header]

theorem header_ndrop (bi : BlockInfo) : (header bi).ndrop = (finalNdrop bi : Int).bmod (2 ^ 32) := by simp only [header]

theorem pktsPerBlock_lt (cfg : Config) : cfg.pktsPerBlock < 2 ^ 31 :=
  (Nat.div_le_self _ _).trans_lt cfg.effBlockSize_lt

theorem header_right (h : Stats cfg wblk0 wblk1 log first bi) (hc : Copied bi.blockIdxOut log)
    (hlt : packetsCopied bi.blockNum log < 2 ^ 31) (h0 : 0 ≤ bi.blockNum)
    (hidx : bi.blockNum * cfg.pktidxPerBlock < 2 ^ 62) : HeaderRight cfg bi.blockNum (header bi) log := by
  obtain ⟨hpktidx, hpkts⟩ := h.set hc
  have hppb := pktsPerBlock_lt cfg
  have hnp : bi.npacket = packetsCopied bi.blockNum log := h.npacket.trans (Nat.mod_eq_of_lt (by omega))
  have hnpkt : (header bi).npkt = packetsCopied bi.blockNum log := by
    rw [header_npkt, hnp, bmod_32 (by omega) (by omega)]
  refine ⟨?_, hnpkt, ?_⟩
  · rw [header_pktidx, hpktidx, bmod_64 (Int.mul_nonneg h0 (by omega)) hidx]
  · have hfinal : finalNdrop bi = cfg.pktsPerBlock - packetsCopied bi.blockNum log := by
      rw [finalNdrop, hpkts, hnp, h.ndrop]
      split <;> omega
    rw [hnpkt, header_ndrop, hfinal, bmod_32 (by omega) (by omega)]
    omega

/-- When both structures held other values at the start, only a block whose factors were set since has the
    right header. -/
theorem refreshed_of_header_right (h : Stats cfg wblk0 wblk1 log bi.blockNum bi) (h0 : 0 ≤ bi.blockNum)
    (hidx : bi.blockNum * (cfg.pktidxPerBlock + 1) < 2 ^ 62)
    (hw0 : wblk0.pktidxPerBlock = cfg.pktidxPerBlock + 1 ∧ wblk0.pktsPerBlock = cfg.pktsPerBlock + 1)
    (hw1 : wblk1.pktidxPerBlock = cfg.pktidxPerBlock + 1 ∧ wblk1.pktsPerBlock = cfg.pktsPerBlock + 1)
    (hr : HeaderRight cfg bi.blockNum (header bi) log) :
    Copied bi.blockIdxOut log ∧ packetsCopied bi.blockNum log < 2 ^ 31 := by
  obtain ⟨hpktidx, hnpkt, hndrop⟩ := hr
  have hppb := pktsPerBlock_lt cfg
  refine ⟨by_contra fun hn => ?_, ?_⟩
  · obtain ⟨hnp, hset, hpkts⟩ := h.unset hn
    have hset : bi.pktidxPerBlock = cfg.pktidxPerBlock + 1 := hset.elim (·.trans hw0.1) (·.trans hw1.1)
    rw [header_pktidx, hset, Nat.cast_add, Nat.cast_one] at hpktidx
    rw [bmod_64 (Int.mul_nonneg h0 (by omega)) hidx, Int.mul_add] at hpktidx
    have hzero : bi.blockNum = 0 := by omega
    -- Block 0 has the right `PKTIDX` whatever the factor is; its `NDROP` is wrong.
    have hpkts : bi.pktsPerBlock = cfg.pktsPerBlock + 1 := (hpkts hzero).elim (·.trans hw0.2) (·.trans hw1.2)
    have hfinal : finalNdrop bi = cfg.pktsPerBlock + 1 := by
      rw [finalNdrop, hpkts, hnp, if_pos (by omega)]
      omega
    have hnpkt0 : (header bi).npkt = 0 := by rw [header_npkt, hnp, Nat.cast_zero, Int.zero_bmod]
    rw [hnpkt0, header_ndrop, hfinal] at hndrop
    rcases Nat.lt_or_ge (cfg.pktsPerBlock + 1) (2 ^ 31) with hlt | hge
    · rw [bmod_32 (by omega) (by omega)] at hndrop
      omega
    · rw [Int.bmod_eq_neg (by omega) (by omega)] at hndrop
      omega
  · have hle := bmod_32_lt bi.npacket
    rw [← header_npkt, hnpkt] at hle
    exact_mod_cast hle

end

/-! ### Two starts -/

/-- The entry without the header values, which are all that depends on the start. -/
def Op.shape : Op → Op
  | .setFilled slot num _ => .setFilled slot num { pktidx := 0, npkt := 0, ndrop := 0, dropstat := "" }
  | op => op

/-- The working blocks have the same numbers and slots, and the same was done to the databuf. -/
structure SameShape (t s : Thread) : Prop where
  num0 : t.wblk0.blockNum = s.wblk0.blockNum
  num1 : t.wblk1.blockNum = s.wblk1.blockNum
  slot0 : t.wblk0.blockIdxOut = s.wblk0.blockIdxOut
  slot1 : t.wblk1.blockIdxOut = s.wblk1.blockIdxOut
  log : t.log.map Op.shape = s.log.map Op.shape

section

variable {cfg : Config} {t s t' s' : Thread} {p : Int}

theorem packetsCopied_shape (num : Int) (log : List Op) :
    packetsCopied num (log.map Op.shape) = packetsCopied num log := by
  induction log with
  | nil => rfl
  | cons op log ih => cases op <;> simp [Op.shape, ih]

theorem copied_shape (slot : Int) (log : List Op) : Copied slot (log.map Op.shape) ↔ Copied slot log := by
  induction log with
  | nil => exact .rfl
  | cons op log ih => cases op <;> simp [Op.shape, ih]

theorem SameShape.refreshed (h : SameShape t s) (hs : Refreshed s) : Refreshed t := by
  unfold Refreshed
  rw [← copied_shape, ← packetsCopied_shape, h.log, h.slot0, h.num0, copied_shape, packetsCopied_shape]
  exact hs

theorem SameShape.moves (h : SameShape t s) (ht : Moves cfg t p t') (hs : Moves cfg s p s') : SameShape t' s' := by
  obtain ⟨h0, h1, hs0, hs1, hlog⟩ := h
  cases ht with
  | advance hp =>
    cases hs with
    | advance _ =>
      refine ⟨h1, rfl, hs1, congrArg (fun i : Int => (i + 1).tmod cfg.nBlock) hs1, ?_⟩
      simp [Op.shape, copyOp, nextBlock, resetBlockInfoStats, h0, hs0, hs1, hlog]
    | reset _ | late _ | first _ | second _ => omega
  | reset hp =>
    cases hs with
    | reset _ =>
      refine ⟨?_, ?_, ?_, ?_, by simpa [reset, Op.shape] using hlog⟩
      · simp only [reset, initBlockInfo_blockNum]
      · simp only [reset, initBlockInfo_blockNum]
      · simpa only [reset, initBlockInfo_keeps_slot] using hs0
      · simpa only [reset, initBlockInfo_keeps_slot] using hs1
    | advance _ | late _ | first _ | second _ => omega
  | late hp =>
    cases hs with
    | late _ => exact ⟨h0, h1, hs0, hs1, hlog⟩
    | advance _ | reset _ | first _ | second _ => omega
  | first hp =>
    cases hs with
    | first _ => exact ⟨h0, h1, hs0, hs1, by simp [copyOp, Op.shape, h0, hs0, hlog]⟩
    | advance _ | reset _ | late _ | second _ => omega
  | second hp =>
    cases hs with
    | second _ => exact ⟨h0, h1, hs0, hs1, by simp [copyOp, Op.shape, h1, hs1, hlog]⟩
    | advance _ | reset _ | late _ | first _ => omega

end

/-! ### Runs -/

section

variable {cfg : Config} {wblk0 wblk1 : BlockInfo} {t s t' : Thread} {p : Int}

theorem Moves.log_suffix (h : Moves cfg t p t') : t.log <:+ t'.log := by
  cases h with
  | advance _ => exact ⟨[_, _, _], rfl⟩
  | reset _ | first _ | second _ => exact List.suffix_cons _ _
  | late _ => exact List.suffix_rfl

theorem HeadersRight.moves (h : HeadersRight cfg t.log) (hm : Moves cfg t p t')
    (hadv : p = t.wblk0.blockNum + 2 → HeaderRight cfg t.wblk0.blockNum (header t.wblk0) t.log) :
    HeadersRight cfg t'.log := by
  cases hm with
  | advance hp =>
    refine Log.each_cons.mpr ⟨nofun, Log.each_cons.mpr ⟨nofun, Log.each_cons.mpr ⟨?_, h⟩⟩⟩
    intro slot num hd hop
    cases hop
    exact hadv hp
  | reset _ | first _ | second _ => exact Log.each_cons.mpr ⟨nofun, h⟩
  | late _ => exact h

theorem pktBlkNum_nonneg (cfg : Config) (p : PktSeqNum) : 0 ≤ p.pktBlkNum cfg := Int.ediv_nonneg (by omega) (by omega)

/-- The packet index of a block that starts no later than a packet is far below the 64-bit bound. -/
theorem pktidx_lt (cfg : Config) (p : PktSeqNum) {num : Int} (h : num ≤ p.pktBlkNum cfg) :
    num * (cfg.pktidxPerBlock + 1) < 2 ^ 62 := by
  have hpos : (0 : Int) < cfg.pktidxPerBlock := by exact_mod_cast cfg.pktidxPerBlock_pos
  have hle : p.pktBlkNum cfg * cfg.pktidxPerBlock ≤ p.val := Int.ediv_mul_le _ (by omega)
  have hlt : (p.val : Int) < 2 ^ 48 := by exact_mod_cast p.isLt
  have hnum : num * cfg.pktidxPerBlock ≤ p.pktBlkNum cfg * cfg.pktidxPerBlock := mul_le_mul_of_nonneg_right h hpos.le
  have hself : p.pktBlkNum cfg ≤ p.pktBlkNum cfg * cfg.pktidxPerBlock :=
    le_mul_of_one_le_right (pktBlkNum_nonneg cfg p) (by omega)
  rw [Int.mul_add]
  omega

theorem run_counted (cfg : Config) (wblk0 wblk1 : BlockInfo) (packets : List PktSeqNum) :
    ∃ t, run cfg wblk0 wblk1 (packets.map (·.pktBlkNum cfg)) = some t ∧ Managed cfg t ∧ Counted cfg wblk0 wblk1 t := by
  obtain ⟨t, hrun, hman, hI⟩ := run_induction cfg wblk0 wblk1
    (I := fun ps t => (∀ p ∈ ps, 0 ≤ p) → Counted cfg wblk0 wblk1 t) (fun _ => .start)
    (fun ps p t t' _ hman hI hm hps => (hI fun q hq => hps q (by simp [hq])).moves hman hm (hps p (by simp)))
    (packets.map (·.pktBlkNum cfg))
  refine ⟨t, hrun, hman, hI ?_⟩
  simp only [List.mem_map]
  rintro _ ⟨p, -, rfl⟩
  exact pktBlkNum_nonneg cfg p

theorem run_of_append (ps qs : List Int) (h : run cfg wblk0 wblk1 (ps ++ qs) = some t) :
    ∃ s, run cfg wblk0 wblk1 ps = some s ∧ s.log <:+ t.log := by
  induction qs using List.reverseRecOn generalizing t with
  | nil => exact ⟨t, by simpa using h, List.suffix_rfl⟩
  | append_singleton qs q ih =>
    rw [← List.append_assoc, run_append_singleton] at h
    obtain ⟨u, hu, hman⟩ := run_managed cfg wblk0 wblk1 (ps ++ qs)
    obtain ⟨s, hs, hsuf⟩ := ih hu
    obtain ⟨t', ht', hm⟩ := step_moves hman.next hman.slot_nonneg q
    rw [hu, Option.bind_some, ht', Option.some.injEq] at h
    exact ⟨s, hs, hsuf.trans (h ▸ hm.log_suffix)⟩

/-- What the structures held before the initialisation shows in header values only. -/
theorem run_sameShape {wblk0' wblk1' : BlockInfo} (ps : List Int) (ht : run cfg wblk0 wblk1 ps = some t)
    (hs : run cfg wblk0' wblk1' ps = some s) : SameShape t s := by
  induction ps using List.reverseRecOn generalizing t s with
  | nil =>
    cases ht
    cases hs
    exact ⟨rfl, rfl, rfl, rfl, rfl⟩
  | append_singleton ps p ih =>
    obtain ⟨u, hu, hman⟩ := run_managed cfg wblk0 wblk1 ps
    obtain ⟨u', hu', hman'⟩ := run_managed cfg wblk0' wblk1' ps
    obtain ⟨v, hv, hm⟩ := step_moves hman.next hman.slot_nonneg p
    obtain ⟨v', hv', hm'⟩ := step_moves hman'.next hman'.slot_nonneg p
    rw [run_append_singleton, hu, Option.bind_some, hv, Option.some.injEq] at ht
    rw [run_append_singleton, hu', Option.bind_some, hv', Option.some.injEq] at hs
    exact ht ▸ hs ▸ (ih hu hu').moves hm hm'

theorem headersRight_of_refreshed (packets : List PktSeqNum)
    (h : ∀ pre p post t, packets = pre ++ p :: post → run cfg wblk0 wblk1 (pre.map (·.pktBlkNum cfg)) = some t →
      p.pktBlkNum cfg = t.wblk1.blockNum + 1 → Refreshed t) :
    ∃ t, run cfg wblk0 wblk1 (packets.map (·.pktBlkNum cfg)) = some t ∧ HeadersRight cfg t.log := by
  induction packets using List.reverseRecOn with
  | nil => exact ⟨_, rfl, Log.each_cons.mpr ⟨nofun, Log.each_cons.mpr ⟨nofun, .nil⟩⟩⟩
  | append_singleton ps p ih =>
    obtain ⟨t, hrun, hright⟩ := ih fun pre q post t hsplit => h pre q (post ++ [p]) t (by simp [hsplit])
    obtain ⟨_, ht, hman, hcnt⟩ := run_counted cfg wblk0 wblk1 ps
    cases hrun.symm.trans ht
    obtain ⟨t', hs, hm⟩ := step_moves hman.next hman.slot_nonneg (p.pktBlkNum cfg)
    refine ⟨t', ?_, hright.moves hm fun hadv => ?_⟩
    · rw [List.map_append, List.map_singleton, run_append_singleton, hrun]
      exact hs
    · obtain ⟨hcop, hlt⟩ := h ps p [] t rfl hrun (by rw [hman.next]; omega)
      have hle : t.wblk0.blockNum ≤ p.pktBlkNum cfg := by omega
      have hidx := pktidx_lt cfg p hle
      rw [Int.mul_add] at hidx
      exact header_right hcnt.stats0 hcop hlt hcnt.nonneg (by have := hcnt.nonneg; omega)

/-- Contents of the structures that no observation has. -/
def stale (cfg : Config) : BlockInfo where
  blockIdxOut := 0
  blockNum := 0
  pktidxPerBlock := cfg.pktidxPerBlock + 1
  pktsPerBlock := cfg.pktsPerBlock + 1
  npacket := 0
  ndrop := 0

theorem refreshed_of_headersRight {packets : List PktSeqNum}
    (h : ∃ t, run cfg (stale cfg) (stale cfg) (packets.map (·.pktBlkNum cfg)) = some t ∧ HeadersRight cfg t.log)
    {pre : List PktSeqNum} {p : PktSeqNum} {post : List PktSeqNum} (hsplit : packets = pre ++ p :: post)
    (hrun : run cfg (stale cfg) (stale cfg) (pre.map (·.pktBlkNum cfg)) = some t)
    (hadv : p.pktBlkNum cfg = t.wblk1.blockNum + 1) : Refreshed t := by
  obtain ⟨u, hu, hright⟩ := h
  obtain ⟨_, ht, hman, hcnt⟩ := run_counted cfg (stale cfg) (stale cfg) pre
  cases hrun.symm.trans ht
  obtain ⟨t', hs, hm⟩ := step_moves hman.next hman.slot_nonneg (p.pktBlkNum cfg)
  obtain ⟨_, hpre, hsuf⟩ := run_of_append (pre.map (·.pktBlkNum cfg) ++ [p.pktBlkNum cfg])
    (post.map (·.pktBlkNum cfg)) (by simpa [hsplit] using hu)
  rw [run_append_singleton, hrun, Option.bind_some, hs, Option.some.injEq] at hpre
  subst hpre
  obtain ⟨later, hlater⟩ := hsuf
  have hnext := hman.next
  cases hm with
  | advance hp =>
    refine refreshed_of_header_right hcnt.stats0 hcnt.nonneg (pktidx_lt cfg p (by omega)) ⟨rfl, rfl⟩ ⟨rfl, rfl⟩ ?_
    rw [← hlater] at hright
    exact (Log.each_cons.mp (Log.each_cons.mp (Log.each_cons.mp (Log.each_of_append hright)).2).2).1 _ _ _ rfl
  | reset hp | late hp | first hp | second hp => omega

/-- All blocks of a run have the right headers, whatever the working blocks held before their
    initialisation, if and only if no block is handed downstream before a packet was copied into its slot,
    or after 2^31 packets were copied into it. -/
theorem headersRight_iff (cfg : Config) (packets : List PktSeqNum) :
    (∀ wblk0 wblk1, ∃ t, run cfg wblk0 wblk1 (packets.map (·.pktBlkNum cfg)) = some t ∧ HeadersRight cfg t.log) ↔
      ∀ wblk0 wblk1 pre p post t, packets = pre ++ p :: post →
        run cfg wblk0 wblk1 (pre.map (·.pktBlkNum cfg)) = some t →
        p.pktBlkNum cfg = t.wblk1.blockNum + 1 → Refreshed t := by
  refine ⟨fun h wblk0 wblk1 pre p post t hsplit hrun hadv => ?_, fun h wblk0 wblk1 =>
    headersRight_of_refreshed packets (h wblk0 wblk1)⟩
  obtain ⟨s, hs, -⟩ := run_counted cfg (stale cfg) (stale cfg) pre
  have hshape := run_sameShape _ hrun hs
  exact hshape.refreshed (refreshed_of_headersRight (h _ _) hsplit hs (hadv.trans (congrArg (· + 1) hshape.num1)))

/-- Packets for block 2 come first, and block 0 goes downstream with what the structure held: no packet is
    reported missing, although all of them are. -/
theorem headersRight_fails : ¬∀ (cfg : Config) (wblk0 wblk1 : BlockInfo) (packets : List PktSeqNum),
    ∃ t, run cfg wblk0 wblk1 (packets.map (·.pktBlkNum cfg)) = some t ∧ HeadersRight cfg t.log := by
  intro h
  obtain ⟨t, hrun, hright⟩ := h
    { nBlock := 2, pktidxPerBlock := 16, effBlockSize := 4096, payloadSize := 1024, two_le_nBlock := by decide,
      pktidxPerBlock_pos := by decide, pktidxPerBlock_lt := by decide, effBlockSize_pos := by decide,
      effBlockSize_lt := by decide, payloadSize_pos := by decide }
    ⟨0, 0, 0, 0, 0, 0⟩ ⟨0, 0, 0, 0, 0, 0⟩ [⟨32, by decide⟩]
  cases hrun
  have hwrong := (hright [_, _] _ _ rfl _ _ _ rfl).2.2
  revert hwrong
  decide

end

end VoltRec.VoltOuter
