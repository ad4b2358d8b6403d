import VoltRec.Lib.Log
import VoltRec.VoltOuterThread
import Mathlib.Algebra.Order.Ring.Int
import Mathlib.Data.List.Induction

/-! The working blocks of the outer voltage thread go round the ring of the databuf: what one packet can do
    to them, and what holds of the operations on the databuf after any sequence of packets. -/

namespace VoltRec.VoltOuter

/-! ### Reading the log -/

/-- The last operation on the semaphore of the slot was the wait until it is free. -/
def WaitedFree (slot : Int) : List Op → Prop
  | [] => False
  | .waitFree s :: log => s = slot ∨ WaitedFree slot log
  | .setFilled s _ _ :: log => s ≠ slot ∧ WaitedFree slot log
  | .copy _ _ _ :: log | .reinit :: log => WaitedFree slot log

/-- The slot and the number of a block that goes downstream. -/
def Op.delivered? : Op → Option (Int × Int)
  | .setFilled slot num _ => some (slot, num)
  | _ => none

/-- The blocks handed downstream, in the order of the hand-overs. -/
def finalized (log : List Op) : List (Int × Int) := (log.filterMap Op.delivered?).reverse

/-- The block that was handed downstream last, unless the working blocks were reset since. -/
def lastFinalized : List Op → Option Int
  | [] | .reinit :: _ => none
  | .setFilled _ num _ :: _ => some num
  | .copy _ _ _ :: log | .waitFree _ :: log => lastFinalized log

/-- A packet goes into the block of its own number, in a slot that is free. -/
def InPlace (op : Op) (earlier : List Op) : Prop :=
  ∀ slot num p, op = .copy slot num p → num = p ∧ WaitedFree slot earlier

/-- A block that is handed downstream follows the one before it. -/
def Consecutive (op : Op) (earlier : List Op) : Prop :=
  ∀ slot num h last, op = .setFilled slot num h → lastFinalized earlier = some last → num = last + 1

section

variable {cfg : Config} {log : List Op} {slot num p s : Int} {h : Header}

@[simp] theorem waitedFree_waitFree : WaitedFree slot (.waitFree s :: log) ↔ s = slot ∨ WaitedFree slot log := .rfl

@[simp] theorem waitedFree_setFilled :
    WaitedFree slot (.setFilled s num h :: log) ↔ s ≠ slot ∧ WaitedFree slot log := .rfl

@[simp] theorem waitedFree_copy : WaitedFree slot (.copy s num p :: log) ↔ WaitedFree slot log := .rfl

@[simp] theorem waitedFree_reinit : WaitedFree slot (.reinit :: log) ↔ WaitedFree slot log := .rfl

@[simp] theorem finalized_setFilled : finalized (.setFilled slot num h :: log) = finalized log ++ [(slot, num)] := by
  simp [finalized, Op.delivered?]

@[simp] theorem finalized_waitFree : finalized (.waitFree slot :: log) = finalized log := rfl

@[simp] theorem finalized_copy : finalized (.copy slot num p :: log) = finalized log := rfl

@[simp] theorem finalized_reinit : finalized (.reinit :: log) = finalized log := rfl

end

/-! ### What a packet can do -/

/-- `increment_block` on a databuf that has blocks. -/
def nextBlock (cfg : Config) (bi : BlockInfo) (blockNum : Int) : BlockInfo :=
  resetBlockInfoStats { bi with blockIdxOut := (bi.blockIdxOut + 1).tmod cfg.nBlock, blockNum := blockNum }

/-- The five ways of a packet through the block management and the copy. -/
inductive Moves (cfg : Config) (t : Thread) (p : Int) : Thread → Prop
  | advance (hp : p = t.wblk0.blockNum + 2) : Moves cfg t p
      { t with
        wblk0 := t.wblk1
        wblk1 := countPacket cfg (nextBlock cfg t.wblk1 p)
        ndropTotal := t.ndropTotal + finalNdrop t.wblk0
        log := copyOp (nextBlock cfg t.wblk1 p) p :: .waitFree (nextBlock cfg t.wblk1 p).blockIdxOut ::
          .setFilled t.wblk0.blockIdxOut t.wblk0.blockNum (header t.wblk0) :: t.log }
  | reset (hp : p < t.wblk0.blockNum - 1 ∨ t.wblk0.blockNum + 2 < p) : Moves cfg t p (reset cfg t p)
  | late (hp : p = t.wblk0.blockNum - 1) : Moves cfg t p { t with nlate := t.nlate + 1 }
  | first (hp : p = t.wblk0.blockNum) : Moves cfg t p
      { t with wblk0 := countPacket cfg t.wblk0, log := copyOp t.wblk0 p :: t.log }
  | second (hp : p = t.wblk0.blockNum + 1) : Moves cfg t p
      { t with wblk1 := countPacket cfg t.wblk1, log := copyOp t.wblk1 p :: t.log }

theorem copyPacket_first {cfg : Config} {t : Thread} {p : Int} (hp : p = t.wblk0.blockNum) : copyPacket cfg t p =
    { t with wblk0 := countPacket cfg t.wblk0, log := copyOp t.wblk0 p :: t.log } := by
  have hidx : (p - t.wblk0.blockNum).bmod (2 ^ 32) = 0 := by rw [hp, Int.sub_self]; rfl
  simp only [copyPacket, hidx, if_true]

theorem copyPacket_second {cfg : Config} {t : Thread} {p : Int} (hp : p = t.wblk0.blockNum + 1) :
    copyPacket cfg t p = { t with wblk1 := countPacket cfg t.wblk1, log := copyOp t.wblk1 p :: t.log } := by
  have hidx : (p - t.wblk0.blockNum).bmod (2 ^ 32) = 1 := by
    rw [hp, show t.wblk0.blockNum + 1 - t.wblk0.blockNum = 1 by omega]; rfl
  simp only [copyPacket, hidx, if_true, if_neg (show ¬(1 : Int) = 0 by decide)]

theorem copyPacket_before {cfg : Config} {t : Thread} {p : Int} (hp : p = t.wblk0.blockNum - 1) :
    copyPacket cfg t p = t := by
  have hidx : (p - t.wblk0.blockNum).bmod (2 ^ 32) = -1 := by
    rw [hp, show t.wblk0.blockNum - 1 - t.wblk0.blockNum = -1 by omega]; rfl
  simp only [copyPacket, hidx]
  rfl

theorem initBlockInfo_blockNum (bi : BlockInfo) (blockIdxOut blockNum : Int) (pktsPerBlock : Nat) :
    (initBlockInfo bi blockIdxOut blockNum pktsPerBlock).blockNum = blockNum := by
  simp only [initBlockInfo, resetBlockInfoStats]
  split <;> split <;> rfl

theorem initBlockInfo_keeps_slot (bi : BlockInfo) (blockNum : Int) (pktsPerBlock : Nat) :
    (initBlockInfo bi (-1) blockNum pktsPerBlock).blockIdxOut = bi.blockIdxOut := by
  simp only [initBlockInfo, resetBlockInfoStats]
  split <;> split <;> first | rfl | omega

/-- The thread does not exit, and the packet moves the working blocks in one of the five ways. -/
theorem step_moves {cfg : Config} {t : Thread} (next : t.wblk1.blockNum = t.wblk0.blockNum + 1)
    (slot : 0 ≤ t.wblk0.blockIdxOut) (p : Int) : ∃ t', step cfg t p = some t' ∧ Moves cfg t p t' := by
  have hn := cfg.two_le_nBlock
  have hfin : finalizeBlock t.wblk0 = some ({ t.wblk0 with ndrop := finalNdrop t.wblk0 },
      .setFilled t.wblk0.blockIdxOut t.wblk0.blockNum (header t.wblk0)) := if_neg (by omega)
  have hinc : incrementBlock cfg.nBlock t.wblk1 p = some (nextBlock cfg t.wblk1 p) := if_neg (by omega)
  by_cases hadv : p = t.wblk1.blockNum + 1
  · refine ⟨_, ?_, .advance (by omega)⟩
    simp only [step, manage, if_pos hadv, advance, hfin, hinc, Option.bind_eq_bind, Option.bind_some, Option.map_some]
    rw [copyPacket_second (by simp only; omega)]
  by_cases hreset : p < t.wblk0.blockNum - 1 ∨ p > t.wblk1.blockNum + 1
  · refine ⟨_, ?_, .reset (by omega)⟩
    simp only [step, manage, if_neg hadv, if_pos hreset, Option.map_some]
    rw [copyPacket_before (by simp only [reset, initBlockInfo_blockNum]; omega)]
  by_cases hlate : p = t.wblk0.blockNum - 1
  · refine ⟨_, ?_, .late hlate⟩
    simp only [step, manage, if_neg hadv, if_neg hreset, if_pos hlate, Option.map_some]
    exact congrArg some (copyPacket_before hlate)
  simp only [step, manage, if_neg hadv, if_neg hreset, if_neg hlate, Option.map_some]
  by_cases hfirst : p = t.wblk0.blockNum
  · exact ⟨_, by rw [copyPacket_first hfirst], .first hfirst⟩
  · exact ⟨_, by rw [copyPacket_second (by omega)], .second (by omega)⟩

/-! ### The ring -/

/-- The two working blocks are neighbours in number and slot, and follow the blocks handed downstream. -/
structure Managed (cfg : Config) (t : Thread) : Prop where
  next : t.wblk1.blockNum = t.wblk0.blockNum + 1
  slot0 : t.wblk0.blockIdxOut = ((finalized t.log).length % cfg.nBlock : Nat)
  slot1 : t.wblk1.blockIdxOut = (((finalized t.log).length + 1) % cfg.nBlock : Nat)
  free0 : WaitedFree t.wblk0.blockIdxOut t.log
  free1 : WaitedFree t.wblk1.blockIdxOut t.log
  last : ∀ num, lastFinalized t.log = some num → t.wblk0.blockNum = num + 1
  ring : ∀ (k : Nat) slot num, (finalized t.log)[k]? = some (slot, num) → slot = (k % cfg.nBlock : Nat)
  inPlace : Log.Each InPlace t.log
  consecutive : Log.Each Consecutive t.log

theorem succ_mod_ne {n : Nat} (hn : 2 ≤ n) (k : Nat) : (k + 1) % n ≠ k % n := by
  have hlt := Nat.mod_lt k (show 0 < n by omega)
  rw [Nat.add_mod, Nat.mod_eq_of_lt (show 1 < n by omega)]
  rcases Nat.lt_or_ge (k % n + 1) n with h | h
  · rw [Nat.mod_eq_of_lt h]
    omega
  · rw [show k % n + 1 = n by omega, Nat.mod_self]
    omega

theorem nextBlock_slot {cfg : Config} {bi : BlockInfo} {k : Nat} (h : bi.blockIdxOut = (k % cfg.nBlock : Nat))
    (p : Int) :
    (nextBlock cfg bi p).blockIdxOut = ((k + 1) % cfg.nBlock : Nat) := by
  simp only [nextBlock, resetBlockInfoStats, h]
  rw [Int.tmod_eq_emod_of_nonneg (by omega)]
  exact_mod_cast (Nat.mod_add_mod k cfg.nBlock 1)

section

variable {cfg : Config} {t t' : Thread} {p : Int}

theorem Managed.start (wblk0 wblk1 : BlockInfo) : Managed cfg (start wblk0 wblk1) := by
  have hn := cfg.two_le_nBlock
  refine ⟨rfl, ?_, ?_, .inr (.inl rfl), .inl rfl, nofun, nofun, ?_, ?_⟩
  · exact congrArg Nat.cast (Nat.zero_mod _).symm
  · exact congrArg Nat.cast (Nat.mod_eq_of_lt (show 0 + 1 < cfg.nBlock by omega)).symm
  all_goals exact Log.each_cons.mpr ⟨nofun, Log.each_cons.mpr ⟨nofun, .nil⟩⟩

theorem Managed.slots_ne (h : Managed cfg t) : t.wblk1.blockIdxOut ≠ t.wblk0.blockIdxOut := by
  rw [h.slot0, h.slot1]
  exact_mod_cast succ_mod_ne cfg.two_le_nBlock _

theorem Managed.slot_nonneg (h : Managed cfg t) : 0 ≤ t.wblk0.blockIdxOut := by
  rw [h.slot0]
  omega

/-- A packet that goes into a working block only adds the copy to the log. -/
theorem Managed.copied {t' : Thread} (h : Managed cfg t) (bi : BlockInfo) (hlog : t'.log = copyOp bi p :: t.log)
    (hnum : bi.blockNum = p) (hfree : WaitedFree bi.blockIdxOut t.log)
    (h0 : t'.wblk0.blockNum = t.wblk0.blockNum ∧ t'.wblk0.blockIdxOut = t.wblk0.blockIdxOut)
    (h1 : t'.wblk1.blockNum = t.wblk1.blockNum ∧ t'.wblk1.blockIdxOut = t.wblk1.blockIdxOut) : Managed cfg t' where
  next := by rw [h0.1, h1.1, h.next]
  slot0 := by rw [h0.2, hlog]; exact h.slot0
  slot1 := by rw [h1.2, hlog]; exact h.slot1
  free0 := by rw [h0.2, hlog]; exact h.free0
  free1 := by rw [h1.2, hlog]; exact h.free1
  last := by rw [h0.1, hlog]; exact h.last
  ring := by rw [hlog]; exact h.ring
  inPlace := by
    rw [hlog]
    refine Log.each_cons.mpr ⟨fun slot num q hop => ?_, h.inPlace⟩
    cases hop
    exact ⟨hnum, hfree⟩
  consecutive := by
    rw [hlog]
    exact Log.each_cons.mpr ⟨nofun, h.consecutive⟩

theorem Managed.reset (h : Managed cfg t) (p : Int) : Managed cfg (reset cfg t p) where
  next := by simp only [VoltOuter.reset, initBlockInfo_blockNum]; omega
  slot0 := (initBlockInfo_keeps_slot _ _ _).trans h.slot0
  slot1 := (initBlockInfo_keeps_slot _ _ _).trans h.slot1
  free0 := by simpa only [VoltOuter.reset, initBlockInfo_keeps_slot, waitedFree_reinit] using h.free0
  free1 := by simpa only [VoltOuter.reset, initBlockInfo_keeps_slot, waitedFree_reinit] using h.free1
  last := nofun
  ring := h.ring
  inPlace := Log.each_cons.mpr ⟨nofun, h.inPlace⟩
  consecutive := Log.each_cons.mpr ⟨nofun, h.consecutive⟩

/-- The thread of `Moves.advance`, before the packet is copied. -/
theorem Managed.advance (h : Managed cfg t) (hp : p = t.wblk0.blockNum + 2) : Managed cfg
    { t with
      wblk0 := t.wblk1
      wblk1 := nextBlock cfg t.wblk1 p
      ndropTotal := t.ndropTotal + finalNdrop t.wblk0
      log := .waitFree (nextBlock cfg t.wblk1 p).blockIdxOut ::
        .setFilled t.wblk0.blockIdxOut t.wblk0.blockNum (header t.wblk0) :: t.log } where
  next := by
    have := h.next
    simp only [nextBlock, resetBlockInfoStats]
    omega
  slot0 := by simpa using h.slot1
  slot1 := by simpa using nextBlock_slot h.slot1 p
  free0 := .inr ⟨h.slots_ne.symm, h.free1⟩
  free1 := .inl rfl
  last := by
    rintro num hlast
    cases hlast
    exact h.next
  ring := by
    intro k slot num hk
    simp only [finalized_waitFree, finalized_setFilled, List.getElem?_append] at hk
    split at hk
    · exact h.ring k slot num hk
    · obtain ⟨hk0, hv⟩ := List.getElem?_eq_some_iff.mp hk
      simp only [List.getElem_singleton, Prod.mk.injEq] at hv
      rw [← hv.1, h.slot0, show k = (finalized t.log).length by simp at hk0; omega]
  inPlace := Log.each_cons.mpr ⟨nofun, Log.each_cons.mpr ⟨nofun, h.inPlace⟩⟩
  consecutive := by
    refine Log.each_cons.mpr ⟨nofun, Log.each_cons.mpr ⟨?_, h.consecutive⟩⟩
    intro slot num hd last hop hlast
    cases hop
    exact h.last last hlast

theorem Managed.moves (h : Managed cfg t) (hm : Moves cfg t p t') : Managed cfg t' := by
  cases hm with
  | advance hp =>
    exact (h.advance hp).copied (nextBlock cfg t.wblk1 p) rfl rfl (.inl rfl) ⟨rfl, rfl⟩ ⟨rfl, rfl⟩
  | reset _ => exact h.reset p
  | late _ => exact ⟨h.next, h.slot0, h.slot1, h.free0, h.free1, h.last, h.ring, h.inPlace, h.consecutive⟩
  | first hp => exact h.copied _ rfl hp.symm h.free0 ⟨rfl, rfl⟩ ⟨rfl, rfl⟩
  | second hp => exact h.copied _ rfl (h.next.trans hp.symm) h.free1 ⟨rfl, rfl⟩ ⟨rfl, rfl⟩

end

/-! ### Runs -/

theorem run_append_singleton (cfg : Config) (wblk0 wblk1 : BlockInfo) (ps : List Int) (p : Int) :
    run cfg wblk0 wblk1 (ps ++ [p]) = (run cfg wblk0 wblk1 ps).bind fun t => step cfg t p := by
  simp [run, List.foldlM_append]

/-- What every packet keeps holds after every sequence of packets, and the thread never exits. -/
theorem run_induction (cfg : Config) (wblk0 wblk1 : BlockInfo) {I : List Int → Thread → Prop}
    (h0 : I [] (start wblk0 wblk1)) (hstep : ∀ ps p t t', run cfg wblk0 wblk1 ps = some t → Managed cfg t → I ps t →
      Moves cfg t p t' → I (ps ++ [p]) t') (ps : List Int) :
    ∃ t, run cfg wblk0 wblk1 ps = some t ∧ Managed cfg t ∧ I ps t := by
  induction ps using List.reverseRecOn with
  | nil => exact ⟨_, rfl, .start _ _, h0⟩
  | append_singleton ps p ih =>
    obtain ⟨t, hrun, hman, hI⟩ := ih
    obtain ⟨t', hs, hm⟩ := step_moves hman.next hman.slot_nonneg p
    exact ⟨t', by rw [run_append_singleton, hrun]; exact hs, hman.moves hm, hstep ps p t t' hrun hman hI hm⟩

theorem run_managed (cfg : Config) (wblk0 wblk1 : BlockInfo) (ps : List Int) :
    ∃ t, run cfg wblk0 wblk1 ps = some t ∧ Managed cfg t := by
  obtain ⟨t, hrun, hman, -⟩ := run_induction cfg wblk0 wblk1 (I := fun _ _ => True)
    trivial (fun _ _ _ _ _ _ _ _ => trivial) ps
  exact ⟨t, hrun, hman⟩

/-- A packet of the block before the working blocks is only counted. -/
theorem step_late {cfg : Config} {t : Thread} (h : Managed cfg t) :
    step cfg t (t.wblk0.blockNum - 1) = some { t with nlate := t.nlate + 1 } := by
  obtain ⟨t', hs, hm⟩ := step_moves h.next h.slot_nonneg (t.wblk0.blockNum - 1)
  cases hm with
  | late _ => exact hs
  | advance hp | reset hp | first hp | second hp => omega

/-- A packet of the block behind the working blocks hands the first of them downstream and makes room for its own. -/
theorem step_advance {cfg : Config} {t : Thread} (h : Managed cfg t) : ∃ t',
    step cfg t (t.wblk0.blockNum + 2) = some t' ∧
      finalized t'.log = finalized t.log ++ [(t.wblk0.blockIdxOut, t.wblk0.blockNum)] ∧
      t'.wblk0 = t.wblk1 ∧ t'.wblk1.blockNum = t.wblk0.blockNum + 2 := by
  obtain ⟨t', hs, hm⟩ := step_moves h.next h.slot_nonneg (t.wblk0.blockNum + 2)
  cases hm with
  | advance _ => exact ⟨_, hs, by simp [copyOp], rfl, rfl⟩
  | reset hp | late hp | first hp | second hp => omega

/-- After any packets the working blocks are neighbours, the blocks handed downstream went round the ring with
    consecutive numbers between resets, and packets went only into free slots of their own block. A packet of the block
    before the working blocks is only counted, and one of the block behind them lets them advance. -/
theorem workingBlocks_ring (cfg : Config) (wblk0 wblk1 : BlockInfo) (ps : List Int) :
    ∃ t, run cfg wblk0 wblk1 ps = some t ∧
      t.wblk1.blockNum = t.wblk0.blockNum + 1 ∧
      t.wblk1.blockIdxOut = (t.wblk0.blockIdxOut + 1) % cfg.nBlock ∧
      (∀ (k : Nat) slot num, (finalized t.log)[k]? = some (slot, num) → slot = k % cfg.nBlock) ∧
      (∀ later slot num p earlier, t.log = later ++ .copy slot num p :: earlier →
        num = p ∧ WaitedFree slot earlier) ∧
      (∀ later slot num header earlier last, t.log = later ++ .setFilled slot num header :: earlier →
        lastFinalized earlier = some last → num = last + 1) ∧
      step cfg t (t.wblk0.blockNum - 1) = some { t with nlate := t.nlate + 1 } ∧
      ∃ t', step cfg t (t.wblk0.blockNum + 2) = some t' ∧
        finalized t'.log = finalized t.log ++ [(t.wblk0.blockIdxOut, t.wblk0.blockNum)] ∧
        t'.wblk0 = t.wblk1 ∧ t'.wblk1.blockNum = t.wblk0.blockNum + 2 := by
  obtain ⟨t, hrun, h⟩ := run_managed cfg wblk0 wblk1 ps
  refine ⟨t, hrun, h.next, ?_, ?_, ?_, ?_, step_late h, step_advance h⟩
  · rw [h.slot0, h.slot1]
    exact_mod_cast (Nat.mod_add_mod _ _ _).symm
  · intro k slot num hk
    rw [h.ring k slot num hk]
    norm_cast
  · exact fun later slot num p earlier hl => h.inPlace later _ earlier hl slot num p rfl
  · exact fun later slot num hd earlier last hl => h.consecutive later _ earlier hl slot num hd last rfl

end VoltRec.VoltOuter
