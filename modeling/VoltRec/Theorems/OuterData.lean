import VoltRec.Theorems.Placement
import VoltRec.Theorems.WorkingBlocks

/-! The bytes in the databuf of the outer voltage thread: as long as a block is a working block, its data change only
    in the cells of its own packets, and the last packet with a byte for a cell decides it. The block is not cleared
    before, so that the rest is what the block before it in the slot has left. -/

namespace VoltRec.VoltOuter

open Memory

/-! ### The slot of a block -/

/-- The slot of a working block, by its number. -/
def slotOf (t : Thread) (num : Int) : Option Int :=
  if num = t.wblk0.blockNum then some t.wblk0.blockIdxOut
  else if num = t.wblk1.blockNum then some t.wblk1.blockIdxOut
  else none

section Slots
variable {cfg : Config} {t t' : Thread} {p num num' slot : Int}

theorem slotOf_inj (h : Managed cfg t) (hs : slotOf t num = some slot) (hs' : slotOf t num' = some slot) :
    num = num' := by
  have hne := h.slots_ne
  unfold slotOf at hs hs'
  grind

theorem copyPacket_keeps (cfg : Config) (t : Thread) (p : Int) :
    (copyPacket cfg t p).wblk0.blockNum = t.wblk0.blockNum ∧ (copyPacket cfg t p).wblk1.blockNum = t.wblk1.blockNum ∧
      ∀ num, slotOf (copyPacket cfg t p) num = slotOf t num := by
  rw [copyPacket]
  split
  · exact ⟨rfl, rfl, fun _ => rfl⟩
  · split <;> exact ⟨rfl, rfl, fun _ => rfl⟩

/-- A packet is of a working block, or of the block before. -/
theorem Moves.near (hm : Moves cfg t p t') (h : Managed cfg t) :
    t'.wblk0.blockNum - 1 ≤ p ∧ p ≤ t'.wblk0.blockNum + 1 := by
  have hnext := h.next
  cases hm with
  | advance hp => simp only; omega
  | reset hp => simp only [VoltOuter.reset, initBlockInfo_blockNum]; omega
  | late hp | first hp | second hp => simp only [countPacket]; omega

/-- Unless the working blocks start over, their numbers do not go down, and a block keeps its slot. -/
theorem Moves.keeps (hm : Moves cfg t p t') (h : Managed cfg t) : ∃ ops, t'.log = ops ++ t.log ∧
    (Op.reinit ∉ ops → t.wblk0.blockNum ≤ t'.wblk0.blockNum ∧
      ∀ num slot, slotOf t num = some slot → t'.wblk0.blockNum ≤ num → slotOf t' num = some slot) := by
  have hnext := h.next
  cases hm with
  | advance hp =>
    refine ⟨[_, _, _], rfl, fun _ => ⟨by simp only; omega, fun num slot hs hle => ?_⟩⟩
    simp only at hle
    have hnum : num ≠ t.wblk0.blockNum := by omega
    rw [slotOf, if_neg hnum, Option.ite_none_right_eq_some] at hs
    rw [slotOf, if_pos hs.1]
    exact hs.2
  | reset hp => exact ⟨[.reinit], rfl, fun hno => absurd List.mem_cons_self hno⟩
  | late hp => exact ⟨[], rfl, fun _ => ⟨le_refl _, fun num slot hs _ => hs⟩⟩
  | first hp | second hp => exact ⟨[_], rfl, fun _ => ⟨le_refl _, fun num slot hs _ => hs⟩⟩

end Slots

/-! ### Packets -/

/-- The tests of a packet. -/
def Accepts (o : Observation) (fesi : MkFengSpeadInfo) : Prop := fesi.payloadSize = 1024 ∧ fesi.fengId < o.oi.nants
deriving Decidable

/-- The packets that pass the tests, as they are parsed after `fesi`. -/
def accepted (o : Observation) : MkFengSpeadInfo → List (Nat → UInt8) → List (MkFengSpeadInfo × (Nat → UInt8))
  | _, [] => []
  | fesi, p :: ps =>
    let fesi := mkParseMkfengIbvSpeadPacket p fesi
    if Accepts o fesi then (fesi, fun j => p (offsetPayload + j)) :: accepted o fesi ps else accepted o fesi ps

/-- The header fields after some packets. -/
def parsed (fesi : MkFengSpeadInfo) (ps : List (Nat → UInt8)) : MkFengSpeadInfo :=
  ps.foldl (fun fesi p => mkParseMkfengIbvSpeadPacket p fesi) fesi

theorem accepted_append (o : Observation) (fesi : MkFengSpeadInfo) (ps qs : List (Nat → UInt8)) :
    accepted o fesi (ps ++ qs) = accepted o fesi ps ++ accepted o (parsed fesi ps) qs := by
  induction ps generalizing fesi with
  | nil => rfl
  | cons p ps ih =>
    simp only [List.cons_append, accepted, ih]
    split <;> rfl

def pktBlkNum (o : Observation) (fesi : MkFengSpeadInfo) : Int :=
  (mkPktidx o.oi fesi / o.cfg.pktidxPerBlock : Nat)

/-- What a packet brings for the block of a number. -/
def contents (o : Observation) (num : Int) (a : MkFengSpeadInfo × (Nat → UInt8)) : Nat → Option UInt8 :=
  if pktBlkNum o a.1 = num then o.cells a.1 a.2 else fun _ => none

namespace DataThread
variable {o : Observation} {t t₁ : DataThread}

theorem copyTo_eq {wblk : BlockInfo} {blocks : Int → Nat → UInt8} {fesi : MkFengSpeadInfo} (hin : o.InHeap fesi)
    (payload : Nat → UInt8) : copyTo o wblk blocks fesi payload = some (Function.update blocks wblk.blockIdxOut
      (overlay (blocks wblk.blockIdxOut) (o.cells fesi payload))) := by
  rw [copyTo, hin.copy_eq, Option.map_some]

/-- The blocks with a content laid over the data in a slot. -/
def overlaySlot (blocks : Int → Nat → UInt8) (f : Nat → Option UInt8) : Option Int → Int → Nat → UInt8
  | some slot => Function.update blocks slot (overlay (blocks slot) f)
  | none => blocks

theorem overlaySlot_of_none {blocks : Int → Nat → UInt8} {f : Nat → Option UInt8} {x : Nat} (h : f x = none)
    (s : Option Int) (slot : Int) : overlaySlot blocks f s slot x = blocks slot x := by
  cases s with
  | none => rfl
  | some k =>
    by_cases hk : slot = k
    · subst hk
      rw [overlaySlot, Function.update_self, overlay_none h]
    · rw [overlaySlot, Function.update_of_ne hk]

/-- A packet moves the working blocks, and its bytes go into the slot of its block, if that is a working block
    then. -/
theorem place_moves (h : Managed o.cfg t.thread) (hin : o.InHeap t.fengSpeadInfo) (payload : Nat → UInt8) :
    ∃ t', t.place o payload = some t' ∧ t'.fengSpeadInfo = t.fengSpeadInfo ∧
      Moves o.cfg t.thread (pktBlkNum o t.fengSpeadInfo) t'.thread ∧
      t'.blocks = overlaySlot t.blocks (o.cells t.fengSpeadInfo payload)
        (slotOf t'.thread (pktBlkNum o t.fengSpeadInfo)) := by
  obtain ⟨thread', hs, hm⟩ := step_moves h.next h.slot_nonneg (pktBlkNum o t.fengSpeadInfo)
  have hnext := (h.moves hm).next
  have hnear := hm.near h
  obtain ⟨m, hmanage, rfl⟩ := Option.map_eq_some_iff.mp hs
  obtain ⟨hnum0, hnum1, hslot⟩ := copyPacket_keeps o.cfg m (pktBlkNum o t.fengSpeadInfo)
  rw [hnum0, hnum1] at hnext
  rw [hnum0] at hnear
  refine ⟨⟨copyPacket o.cfg m (pktBlkNum o t.fengSpeadInfo), t.fengSpeadInfo, overlaySlot t.blocks
    (o.cells t.fengSpeadInfo payload) (slotOf m (pktBlkNum o t.fengSpeadInfo))⟩, ?_, rfl, hm, by rw [hslot]⟩
  have hidx : (pktBlkNum o t.fengSpeadInfo - m.wblk0.blockNum).bmod (2 ^ 32) =
      pktBlkNum o t.fengSpeadInfo - m.wblk0.blockNum := Int.bmod_eq_of_le (by omega) (by omega)
  have hblk : ((mkPktidx o.oi t.fengSpeadInfo / o.cfg.pktidxPerBlock : Nat) : Int) = pktBlkNum o t.fengSpeadInfo := rfl
  simp only [place, hblk, hmanage, hidx, copyTo_eq hin, Option.bind_eq_bind, Option.bind_some]
  by_cases h0 : pktBlkNum o t.fengSpeadInfo = m.wblk0.blockNum
  · rw [if_pos (by omega), slotOf, if_pos h0]
    rfl
  · rw [if_neg (by omega), slotOf, if_neg h0]
    by_cases h1 : pktBlkNum o t.fengSpeadInfo = m.wblk1.blockNum
    · rw [if_pos (by omega), if_pos h1]
      rfl
    · rw [if_neg (by omega), if_neg h1]
      rfl

theorem step_eq (o : Observation) (t : DataThread) (p : Nat → UInt8) : step o t p =
    if Accepts o (mkParseMkfengIbvSpeadPacket p t.fengSpeadInfo) then
      place o { t with fengSpeadInfo := mkParseMkfengIbvSpeadPacket p t.fengSpeadInfo } fun j => p (offsetPayload + j)
    else some { t with fengSpeadInfo := mkParseMkfengIbvSpeadPacket p t.fengSpeadInfo } := by
  unfold Accepts
  rw [step]
  grind

/-- What holds of `t` after accepted packets `acc` from `t₁` on. No byte behind the end of a block has changed; and
    unless the working blocks have started over, a block that was a working block before and still is one has its slot,
    and the bytes of its packets on top of its data. -/
structure Kept (o : Observation) (t₁ : DataThread) (acc : List (MkFengSpeadInfo × (Nat → UInt8))) (t : DataThread) :
    Prop where
  managed : Managed o.cfg t.thread
  outside : ∀ slot x, o.cfg.effBlockSize ≤ x → t.blocks slot x = t₁.blocks slot x
  block : ∃ ops, t.thread.log = ops ++ t₁.thread.log ∧ (Op.reinit ∉ ops →
    t₁.thread.wblk0.blockNum ≤ t.thread.wblk0.blockNum ∧
    ∀ num slot, slotOf t₁.thread num = some slot → t.thread.wblk0.blockNum ≤ num →
      slotOf t.thread num = some slot ∧ t.blocks slot = (acc.map (contents o num)).foldl overlay (t₁.blocks slot))

theorem Kept.refl (h : Managed o.cfg t.thread) : Kept o t [] t where
  managed := h
  outside _ _ _ := rfl
  block := ⟨[], rfl, fun _ => ⟨le_refl _, fun _ _ hs _ => ⟨hs, rfl⟩⟩⟩

theorem Kept.place {acc : List (MkFengSpeadInfo × (Nat → UInt8))} (h : Kept o t₁ acc t)
    (hin : o.InHeap t.fengSpeadInfo) (payload : Nat → UInt8) :
    ∃ t', t.place o payload = some t' ∧ t'.fengSpeadInfo = t.fengSpeadInfo ∧
      Kept o t₁ (acc ++ [(t.fengSpeadInfo, payload)]) t' := by
  obtain ⟨t', hplace, hfesi, hm, hblocks⟩ := place_moves h.managed hin payload
  have hman := h.managed.moves hm
  obtain ⟨ops, hlog, hkept⟩ := h.block
  obtain ⟨ops', hlog', hkeeps⟩ := hm.keeps h.managed
  refine ⟨t', hplace, hfesi, hman, fun slot x hx => ?_, ops' ++ ops, by rw [hlog', hlog, List.append_assoc],
    fun hno => ?_⟩
  · have hnone : o.cells t.fengSpeadInfo payload x = none := by
      cases hcell : o.cells t.fengSpeadInfo payload x with
      | none => rfl
      | some v => exact absurd (o.cells_lt hin hcell) (Nat.not_lt_of_le hx)
    rw [hblocks, overlaySlot_of_none hnone]
    exact h.outside slot x hx
  rw [List.mem_append, not_or] at hno
  obtain ⟨hle, hblock⟩ := hkept hno.2
  obtain ⟨hle', hslot⟩ := hkeeps hno.1
  refine ⟨hle.trans hle', fun num slot hs hnum => ?_⟩
  obtain ⟨hs', hdata⟩ := hblock num slot hs (hle'.trans hnum)
  have hs'' := hslot num slot hs' hnum
  refine ⟨hs'', ?_⟩
  rw [List.map_append, List.foldl_append, ← hdata, hblocks]
  change _ = overlay (t.blocks slot) (contents o num (t.fengSpeadInfo, payload))
  by_cases hp : pktBlkNum o t.fengSpeadInfo = num
  · rw [hp, hs'', overlaySlot, Function.update_self, contents, if_pos hp]
  · -- The packet goes into another slot, or into none.
    have hnone : overlay (t.blocks slot) (contents o num (t.fengSpeadInfo, payload)) = t.blocks slot := by
      rw [contents, if_neg hp]
      rfl
    rw [hnone]
    cases hother : slotOf t'.thread (pktBlkNum o t.fengSpeadInfo) with
    | none => rfl
    | some slot' =>
      have hne : slot ≠ slot' := fun h => hp (slotOf_inj hman hother (h ▸ hs''))
      rw [overlaySlot, Function.update_of_ne hne]

/-- Every packet that passes the tests keeps to its heap, and then the thread takes all of them. -/
theorem run_kept (h : Managed o.cfg t₁.thread) (ps : List (Nat → UInt8))
    (hin : ∀ a ∈ accepted o t₁.fengSpeadInfo ps, o.InHeap a.1) :
    ∃ t, run o t₁ ps = some t ∧ t.fengSpeadInfo = parsed t₁.fengSpeadInfo ps ∧
      Kept o t₁ (accepted o t₁.fengSpeadInfo ps) t := by
  induction ps using List.reverseRecOn with
  | nil => exact ⟨t₁, rfl, rfl, .refl h⟩
  | append_singleton ps p ih =>
    rw [accepted_append] at hin ⊢
    obtain ⟨t, hrun, hfesi, hkept⟩ := ih fun a ha => hin a (List.mem_append_left _ ha)
    have hstep : run o t₁ (ps ++ [p]) = step o t p := by
      rw [run] at hrun ⊢
      simp [List.foldlM_append, hrun]
    have hparsed : parsed t₁.fengSpeadInfo (ps ++ [p]) =
        mkParseMkfengIbvSpeadPacket p (parsed t₁.fengSpeadInfo ps) := by
      rw [parsed, List.foldl_append]
      rfl
    rw [hstep, step_eq, hfesi, hparsed]
    simp only [accepted] at hin ⊢
    split
    · rename_i hacc
      rw [if_pos hacc] at hin
      exact Kept.place (t := ⟨t.thread, mkParseMkfengIbvSpeadPacket p (parsed t₁.fengSpeadInfo ps), t.blocks⟩)
        ⟨hkept.managed, hkept.outside, hkept.block⟩ (hin _ (List.mem_append_right _ List.mem_cons_self)) _
    · rw [List.append_nil]
      exact ⟨_, rfl, rfl, hkept.managed, hkept.outside, hkept.block⟩

theorem start_managed (o : Observation) (wblk0 wblk1 : BlockInfo) (blocks : Int → Nat → UInt8) :
    Managed o.cfg (start wblk0 wblk1 blocks).thread := Managed.start wblk0 wblk1

/-! ### Bytes -/

/-- The byte that a packet has for a place of an antenna, a channel and a packet index. -/
def byteFor (o : Observation) (a : MkFengSpeadInfo × (Nat → UInt8)) (ant chan : Nat) (pktidx : Int) (byte : Nat) :
    Option UInt8 :=
  if a.1.fengId = ant ∧ mkPktidx o.oi a.1 = pktidx ∧ o.firstChan a.1 ≤ chan ∧ chan < o.firstChan a.1 + o.nRows then
    some (a.2 ((chan - o.firstChan a.1) * o.istride + byte))
  else none

theorem contents_place {a : MkFengSpeadInfo × (Nat → UInt8)} (hin : o.InHeap a.1) {ant chan slot byte : Nat} {num : Int}
    (hchan : chan < o.nchan) (hslot : slot < o.cfg.pktidxPerBlock) (hbyte : byte < o.istride) :
    contents o num a (o.place ant chan slot byte) =
      byteFor o a ant chan (num * o.cfg.pktidxPerBlock + slot) byte := by
  have hpos : (0 : Int) < o.cfg.pktidxPerBlock := by exact_mod_cast o.cfg.pktidxPerBlock_pos
  have hiff : (mkPktidx o.oi a.1 : Int) = num * o.cfg.pktidxPerBlock + slot ↔
      pktBlkNum o a.1 = num ∧ o.slotIdx a.1 = slot := by
    have hdigits := Int.ediv_emod_unique (a := mkPktidx o.oi a.1) (r := slot) (q := num) hpos
    rw [pktBlkNum, Observation.slotIdx, Int.natCast_ediv, ← Int.natCast_inj (m := mkPktidx o.oi a.1 % _),
      Int.natCast_emod, hdigits, mul_comm num]
    omega
  rw [contents, byteFor]
  simp only [hiff]
  split
  · rename_i hnum
    simp only [o.cells_place hin hchan hslot hbyte, hnum, true_and]
  · rename_i hnum
    simp only [hnum, false_and, and_false, if_false]

/-- The loop takes every run. Between any two points of it no byte behind the end of a block changes; and without a
    reset in between, a block that is a working block at both keeps its slot, and each byte of it is that of the last
    packet with a byte for its antenna, channel and packet index, or else the byte that was there. -/
theorem block_bytes (o : Observation) (wblk0 wblk1 : BlockInfo) (blocks : Int → Nat → UInt8)
    (earlier later : List (Nat → UInt8)) (hin : ∀ a ∈ accepted o .zeroed (earlier ++ later), o.InHeap a.1) :
    ∃ t₁ t ops, run o (start wblk0 wblk1 blocks) earlier = some t₁ ∧ run o t₁ later = some t ∧
      (∀ slot x, o.cfg.effBlockSize ≤ x → t.blocks slot x = t₁.blocks slot x) ∧
      t.thread.log = ops ++ t₁.thread.log ∧ (Op.reinit ∉ ops → ∀ num slot, slotOf t₁.thread num = some slot →
        t.thread.wblk0.blockNum ≤ num → slotOf t.thread num = some slot ∧
        ∀ ant chan idx byte, ant < o.oi.nants → chan < o.nchan → idx < o.cfg.pktidxPerBlock → byte < o.istride →
          t.blocks slot (o.place ant chan idx byte) =
            ((accepted o t₁.fengSpeadInfo later).reverse.findSome? fun a =>
              byteFor o a ant chan (num * o.cfg.pktidxPerBlock + idx) byte).getD
            (t₁.blocks slot (o.place ant chan idx byte))) := by
  rw [accepted_append] at hin
  obtain ⟨t₁, hrun₁, hfesi, hkept₁⟩ := run_kept (start_managed o wblk0 wblk1 blocks) earlier
    fun a ha => hin a (List.mem_append_left _ ha)
  have hlater : ∀ a ∈ accepted o t₁.fengSpeadInfo later, o.InHeap a.1 := by
    rw [hfesi]
    exact fun a ha => hin a (List.mem_append_right _ ha)
  obtain ⟨t, hrun, -, hkept⟩ := run_kept hkept₁.managed later hlater
  obtain ⟨ops, hlog, hblock⟩ := hkept.block
  refine ⟨t₁, t, ops, hrun₁, hrun, hkept.outside, hlog, fun hno num slot hs hnum => ?_⟩
  obtain ⟨hs', hdata⟩ := (hblock hno).2 num slot hs hnum
  refine ⟨hs', fun ant chan idx byte _ hchan hidx hbyte => ?_⟩
  rw [hdata]
  exact foldl_overlay _ _ fun a ha => contents_place (hlater a ha) hchan hidx hbyte

/-- One antenna with one channel, 256 samples in a heap. -/
def oneChannel : Observation where
  oi := ⟨1, 1, 1, 256, 1, 1, 0⟩
  cfg := ⟨24, 2 ^ 17, 2 ^ 27, 1024, by decide, by decide, by decide, by decide, by decide, by decide⟩
  sizeNt := 6
  valid := by decide
  schan_nonneg := by decide
  schan_lt := by decide
  aligned := ⟨16, rfl⟩
  fits := by decide
  pktidxPerBlock := by decide
  effBlockSize := by decide
  payloadSize := rfl

/-- The packet with the one item for a payload of 1024 bytes. -/
def onePacket : Nat → UInt8 := fun x =>
  if x = offsetSpdhdr + 7 then 1
  else if x = offsetSpdhdr + 8 then 0x80
  else if x = offsetSpdhdr + 9 ∨ x = offsetSpdhdr + 14 then 4
  else if x < offsetPayload then 0
  else 7

theorem accepted_onePacket : ∀ a ∈ accepted oneChannel .zeroed ([] ++ [onePacket]), oneChannel.InHeap a.1 := by
  have hparse : mkParseMkfengIbvSpeadPacket onePacket .zeroed = ⟨0, 1024, 0, 0, 0⟩ := by decide
  intro a ha
  simp only [List.nil_append, accepted, hparse] at ha
  rw [if_pos (by decide), List.mem_singleton] at ha
  subst ha
  exact ⟨by decide, rfl, by decide, by decide⟩

theorem block_bytes_onePacket : ∃ t₁ t ops,
    run oneChannel (start ⟨0, 0, 0, 0, 0, 0⟩ ⟨0, 0, 0, 0, 0, 0⟩ fun _ _ => 0) [] = some t₁ ∧
    run oneChannel t₁ [onePacket] = some t ∧
    (∀ slot x, oneChannel.cfg.effBlockSize ≤ x → t.blocks slot x = t₁.blocks slot x) ∧
    t.thread.log = ops ++ t₁.thread.log ∧ (Op.reinit ∉ ops → ∀ num slot, slotOf t₁.thread num = some slot →
      t.thread.wblk0.blockNum ≤ num → slotOf t.thread num = some slot ∧
      ∀ ant chan idx byte, ant < oneChannel.oi.nants → chan < oneChannel.nchan → idx < oneChannel.cfg.pktidxPerBlock →
        byte < oneChannel.istride → t.blocks slot (oneChannel.place ant chan idx byte) =
          ((accepted oneChannel t₁.fengSpeadInfo [onePacket]).reverse.findSome? fun a =>
            byteFor oneChannel a ant chan (num * oneChannel.cfg.pktidxPerBlock + idx) byte).getD
          (t₁.blocks slot (oneChannel.place ant chan idx byte))) :=
  block_bytes oneChannel ⟨0, 0, 0, 0, 0, 0⟩ ⟨0, 0, 0, 0, 0, 0⟩ (fun _ _ => 0) [] [onePacket] accepted_onePacket

end DataThread

end VoltRec.VoltOuter
