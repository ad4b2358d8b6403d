import VoltRec.FileDrain
import VoltRec.Theorems.Files
import VoltRec.Theorems.Pool

/-! The file thread empties its pool at the end. A pass that finds a gap leaves the pool as it was and counts
    a miss, any other pass empties a slot; so the ready slots and the misses left bound the passes. -/

namespace VoltRec

/-- The buffer is not put back. -/
def Outcome.isFinal : Outcome → Bool
  | .putBack _ _ _ => false
  | _ => true

namespace Drain

/-- A state in which the file thread can be left alone with the pool. -/
structure Ready (s : Drain) : Prop where
  count : s.pool.nReady = readySlots s.pool.orderNo
  bounded : ∀ o ∈ s.pool.orderNo, o < intMax
  distinct : s.pool.orderNo.Pairwise fun o o' => 0 < o → o ≠ o'
  first : 1 ≤ s.writer.lastOrd ∨ 1 ∈ s.pool.orderNo
  /-- After the first block a file is open. -/
  opened : 1 ≤ s.writer.lastOrd → s.writer.files ≠ []

/-- Slot and order of what is ready, the lowest order first. -/
structure ReadyList (no : List Int) (ready : List (Nat × Nat)) : Prop where
  sorted : ready.Pairwise fun x y => x.2 < y.2
  mem : ∀ index order, (index, order) ∈ ready ↔ 0 < order ∧ no[index]? = some (order : Int)

/-- The block that a slot becomes in a file. -/
def slotBlock (pool : UdpBuff) (x : Nat × Nat) : Block where
  order := x.2
  bytes := Memory.slice (pool.data x.1) 0 (pool.dataLen x.1)

/-- Everything ready was written or, where it came too late, discarded. -/
structure Emptied (s s' : Drain) (ready : List (Nat × Nat)) : Prop where
  nReady : s'.pool.nReady = 0
  orderNo : s'.pool.orderNo = s.pool.orderNo.map fun o => if 0 < o then 0 else o
  blocks : s'.writer.blocks =
    s.writer.blocks ++ (ready.filter fun x => s.writer.lastOrd < x.2).map (slotBlock s.pool)
  log : s'.writer.log.filter Outcome.isFinal = s.writer.log.filter Outcome.isFinal ++
    ready.map fun x => if x.2 ≤ s.writer.lastOrd then .discarded x.1 else .written x.1

/-! ### The lowest slot -/

section

variable {s : Drain} {pool : UdpBuff} {index order : Nat}

/-- The slot that the search finds. -/
structure Lowest (no : List Int) (index order : Nat) : Prop where
  pos : 0 < order
  slot : no[index]? = some (order : Int)
  le : ∀ o ∈ no, 0 < o → (order : Int) ≤ o

theorem exists_lowest {no : List Int} (hr : 0 < readySlots no) (hb : ∀ o ∈ no, o < intMax) :
    ∃ index order, findLowest no = some index ∧ Lowest no index order := by
  obtain ⟨o, ho, hpos⟩ := List.countP_pos_iff.mp hr
  cases hfind : findLowest no with
  | none =>
    exact absurd ((findLowest_eq_none no).mp hfind o ho (of_decide_eq_true hpos)) (Int.not_le.mpr (hb o ho))
  | some j =>
    obtain ⟨o', hget, hpos', -, hmin, -⟩ := findLowest_eq_some hfind
    have hcast : (o'.toNat : Int) = o' := Int.toNat_of_nonneg (by omega)
    exact ⟨j, o'.toNat, rfl, by omega, by rw [hcast]; exact hget, by rw [hcast]; exact hmin⟩

/-- The pool once the slot is empty again. -/
def emptied (pool : UdpBuff) (index : Nat) : UdpBuff :=
  { pool with nReady := pool.nReady - 1, orderNo := pool.orderNo.set index 0 }

/-- The buffer of the slot. -/
def fetched (pool : UdpBuff) (index order : Nat) (pos : 0 < order) : Fetched where
  index := index
  order := order
  dataLen := pool.dataLen index
  data := pool.data index
  pos := pos

def marked (pool : UdpBuff) (index : Nat) : UdpBuff :=
  { pool with nReady := pool.nReady - 1, orderNo := pool.orderNo.set index (-1) }

theorem fetchBuffer_lowest (hr : 0 < pool.nReady) (hfind : findLowest pool.orderNo = some index)
    (h : Lowest pool.orderNo index order) :
    pool.fetchBuffer = (marked pool index, some (fetched pool index order h.pos)) := by
  have hget : pool.orderNo.getD index 0 = order := by simp [List.getD_eq_getElem?_getD, h.slot]
  simp only [UdpBuff.fetchBuffer, UdpBuff.fetchBufferWait, if_pos hr, UdpBuff.fetchBufferTake, hfind, Option.map_some,
    hget, Int.toNat_natCast, dif_pos h.pos]
  rfl

theorem giveBack_empty (h : Lowest pool.orderNo index order) :
    (marked pool index).returnEmptyBuffer index = some (emptied pool index) := by
  obtain ⟨hlt, -⟩ := List.getElem?_eq_some_iff.mp h.slot
  simp [UdpBuff.returnEmptyBuffer, marked, emptied, hlt]

theorem giveBack_same (hr : 0 < pool.nReady) (h : Lowest pool.orderNo index order) :
    ((marked pool index).returnBufferData index order (pool.dataLen index)).map UdpBuff.returnBufferReady =
      some pool := by
  obtain ⟨hlt, hval⟩ := List.getElem?_eq_some_iff.mp h.slot
  have hset : pool.orderNo.set index (order : Int) = pool.orderNo := by rw [← hval, List.set_getElem_self]
  simp [UdpBuff.returnBufferData, UdpBuff.returnBufferReady, marked, hlt, hset, Nat.sub_add_cancel hr]

/-! ### One pass -/

/-- What a pass does with the lowest slot. -/
inductive Passes (s : Drain) (index order : Nat) : Drain → Prop
  | discarded (old : order ≤ s.writer.lastOrd) : Passes s index order
      { pool := emptied s.pool index
        writer := { s.writer with log := s.writer.log ++ [.discarded index] } }
  | putBack (gap : s.writer.lastOrd + 1 < order) (few : s.writer.nMisses < maxOrderMisses) : Passes s index order
      { s with
        writer :=
          { s.writer with
            nMisses := s.writer.nMisses + 1
            log := s.writer.log ++ [.putBack index order (s.pool.dataLen index)] } }
  | written (w : FileWriter) (new : s.writer.lastOrd < order)
      (blocks : w.blocks = s.writer.blocks ++ [slotBlock s.pool (index, order)])
      (log : w.log = s.writer.log ++ [.written index]) (lastOrd : w.lastOrd = order) (nMisses : w.nMisses = 0)
      (opened : w.files ≠ []) : Passes s index order { pool := emptied s.pool index, writer := w }

/-- The two ways of writing a block add it behind the others and leave a file open. -/
theorem written_next {w : FileWriter} {b : Fetched} (hopen : 1 ≤ w.lastOrd → w.files ≠ []) :
    (w.store b).blocks = w.blocks ++ [b.block] ∧ (w.store b).log = w.log ++ [.written b.index] ∧
      (w.store b).lastOrd = b.order ∧ (w.store b).nMisses = w.nMisses ∧ (w.store b).files ≠ [] := by
  by_cases hlast : w.lastOrd = 0
  · rw [FileWriter.store_first hlast]
    refine ⟨?_, rfl, rfl, rfl, by simp⟩
    simp [FileWriter.blocks]
  · obtain ⟨fs, f, hf⟩ := List.eq_nil_or_concat w.files |>.resolve_left (hopen (by omega))
    rw [List.concat_eq_append] at hf
    rw [FileWriter.store_append hlast hf, FileWriter.blocks_concat rfl, FileWriter.blocks_concat hf]
    exact ⟨by simp, rfl, rfl, rfl, by simp⟩

theorem pass_eq {outcome : Outcome} {pool' : UdpBuff} (hr : 0 < s.pool.nReady)
    (hfind : findLowest s.pool.orderNo = some index) (hlow : Lowest s.pool.orderNo index order) {writer : FileWriter}
    (hw : s.writer.pass (fetched s.pool index order hlow.pos) = writer) (hlog : writer.log = s.writer.log ++ [outcome])
    (hback : outcome.giveBack (marked s.pool index) = some pool') :
    s.pass = some { pool := pool', writer := writer } := by
  simp only [pass, fetchBuffer_lowest hr hfind hlow, hw, hlog, List.getLast?_concat, Option.bind_eq_bind,
    Option.bind_some, hback]

theorem pass_passes (h : s.Ready) (hr : 0 < s.pool.nReady) (hfind : findLowest s.pool.orderNo = some index)
    (hlow : Lowest s.pool.orderNo index order) : ∃ s', s.pass = some s' ∧ Passes s index order s' := by
  rcases s.writer.pass_cases (fetched s.pool index order hlow.pos) with
    ⟨hold, hp⟩ | ⟨hgap, hroll, hp⟩ | ⟨hroll, fileBuff, -, hp⟩ | ⟨hnext, hp⟩
  · exact ⟨_, pass_eq hr hfind hlow hp rfl (giveBack_empty hlow), .discarded hold⟩
  · refine ⟨_, pass_eq hr hfind hlow hp rfl (giveBack_same hr hlow), .putBack hgap ?_⟩
    -- Without a first block the lowest order is 1, and there is no gap before it.
    have hlast : 1 ≤ s.writer.lastOrd := by
      refine h.first.resolve_right fun hone => ?_
      have hle := hlow.le 1 hone (by omega)
      have hgap : s.writer.lastOrd + 1 < order := hgap
      omega
    by_contra hfew
    exact hroll ⟨hgap, by omega, by omega⟩
  · have hgap : s.writer.lastOrd + 1 < order := hroll.1
    refine ⟨_, pass_eq hr hfind hlow hp rfl (giveBack_empty hlow), .written _ (by omega) ?_ rfl rfl rfl (by simp)⟩
    simp [FileWriter.blocks]
    rfl
  · have hnext : s.writer.lastOrd + 1 = order := hnext
    obtain ⟨hblocks, hlog, hlast, hmiss, hfiles⟩ := written_next (w := { s.writer with nMisses := 0 })
      (b := fetched s.pool index order hlow.pos) h.opened
    exact ⟨_, pass_eq hr hfind hlow hp hlog (giveBack_empty hlow),
      .written _ (by omega) hblocks hlog hlast hmiss hfiles⟩

/-! ### What a pass keeps -/

theorem Lowest.lt (hlow : Lowest s.pool.orderNo index order)
    (hdist : s.pool.orderNo.Pairwise fun o o' => 0 < o → o ≠ o') {i k : Nat} (hi : i ≠ index) (hk : 0 < k)
    (hget : s.pool.orderNo[i]? = some (k : Int)) : order < k := by
  obtain ⟨hilt, hival⟩ := List.getElem?_eq_some_iff.mp hget
  obtain ⟨hlt, hval⟩ := List.getElem?_eq_some_iff.mp hlow.slot
  have hle := hlow.le (k : Int) (hival ▸ List.getElem_mem hilt) (by omega)
  have hne : k ≠ order := by
    rintro rfl
    rw [List.pairwise_iff_getElem] at hdist
    rcases Nat.lt_or_gt_of_ne hi with hlt' | hgt
    · exact hdist i index hilt hlt hlt' (by omega) (hival.trans hval.symm)
    · exact hdist index i hlt hilt hgt (by omega) (hval.trans hival.symm)
  omega

/-- The lowest slot comes before what is ready in the others. -/
theorem ReadyList.cons {ready : List (Nat × Nat)} (hlow : Lowest s.pool.orderNo index order)
    (hdist : s.pool.orderNo.Pairwise fun o o' => 0 < o → o ≠ o')
    (h : ReadyList (s.pool.orderNo.set index 0) ready) : ReadyList s.pool.orderNo ((index, order) :: ready) := by
  have hmem : ∀ i k, (i, k) ∈ ready ↔ i ≠ index ∧ 0 < k ∧ s.pool.orderNo[i]? = some (k : Int) := by
    intro i k
    rw [h.mem]
    obtain ⟨hlt, -⟩ := List.getElem?_eq_some_iff.mp hlow.slot
    by_cases hi : i = index
    · subst hi
      simp only [List.getElem?_set_self hlt, ne_eq, not_true_eq_false, false_and, iff_false, not_and, Option.some.injEq]
      omega
    · rw [List.getElem?_set_ne (Ne.symm hi)]
      exact ⟨fun h => ⟨hi, h⟩, And.right⟩
  refine ⟨List.pairwise_cons.mpr ⟨?_, h.sorted⟩, fun i k => ?_⟩
  · rintro ⟨i, k⟩ hik
    obtain ⟨hi, hk, hget⟩ := (hmem i k).mp hik
    exact hlow.lt hdist hi hk hget
  · rw [List.mem_cons, hmem, Prod.mk.injEq]
    refine ⟨?_, fun ⟨hk, hget⟩ => ?_⟩
    · rintro (⟨rfl, rfl⟩ | ⟨-, hk, hget⟩)
      · exact ⟨hlow.pos, hlow.slot⟩
      · exact ⟨hk, hget⟩
    · by_cases hi : i = index
      · subst hi
        exact .inl ⟨rfl, by exact_mod_cast Option.some.inj (hget.symm.trans hlow.slot)⟩
      · exact .inr ⟨hi, hk, hget⟩

theorem Passes.ready {s' : Drain} (h : s.Ready) (hr : 0 < s.pool.nReady) (hlow : Lowest s.pool.orderNo index order)
    (hp : Passes s index order s') : s'.Ready := by
  have hcount : s.pool.nReady - 1 = readySlots (s.pool.orderNo.set index 0) := by
    have hset := readySlots_set hlow.slot 0
    have hpos := hlow.pos
    rw [if_pos (by omega), if_neg (by decide), ← h.count] at hset
    omega
  have hbounded := bounded_set index h.bounded (by decide : (0 : Int) < intMax)
  have hdist : (s.pool.orderNo.set index 0).Pairwise fun o o' => 0 < o → o ≠ o' := by
    have hd := h.distinct
    rw [List.pairwise_iff_getElem] at hd ⊢
    intro i j hi hj hij
    rw [List.getElem_set, List.getElem_set]
    split
    · exact fun h0 => absurd h0 (by decide)
    · intro hpos
      split
      · omega
      · exact hd i j (by simpa using hi) (by simpa using hj) hij hpos
  cases hp with
  | discarded hold =>
    have hpos := hlow.pos
    have hlast : 1 ≤ s.writer.lastOrd := by omega
    exact ⟨hcount, hbounded, hdist, .inl hlast, fun _ => h.opened hlast⟩
  | putBack _ _ => exact ⟨h.count, h.bounded, h.distinct, h.first, h.opened⟩
  | written w _ _ _ hlast _ hopen =>
    have hpos := hlow.pos
    exact ⟨hcount, hbounded, hdist, .inl (by simp only; omega), fun _ => hopen⟩

/-- The passes that are left, at most. -/
def budget (s : Drain) : Nat := s.pool.nReady * (maxOrderMisses + 2) + (maxOrderMisses + 1 - s.writer.nMisses)

theorem Passes.budget_lt {s' : Drain} (hr : 0 < s.pool.nReady) (hp : Passes s index order s') :
    s'.budget < s.budget := by
  have hslot : (s.pool.nReady - 1) * (maxOrderMisses + 2) + (maxOrderMisses + 2) =
      s.pool.nReady * (maxOrderMisses + 2) := by
    rw [← Nat.succ_mul, Nat.succ_eq_add_one, Nat.sub_add_cancel hr]
  cases hp with
  | discarded _ => simp only [budget, emptied]; omega
  | putBack _ hfew => simp only [budget]; omega
  | written w _ _ _ _ _ _ => simp only [budget, emptied]; omega

/-- What is left to do after a pass is what was left to do before it, but for the lowest slot. -/
theorem Passes.emptied {s₁ s' : Drain} (h : s.Ready) (hlow : Lowest s.pool.orderNo index order)
    (hp : Passes s index order s₁) {ready : List (Nat × Nat)} (hready : ReadyList s₁.pool.orderNo ready)
    (he : Emptied s₁ s' ready) : ∃ ready, ReadyList s.pool.orderNo ready ∧ Emptied s s' ready := by
  have hmap : (s.pool.orderNo.set index 0).map (fun o => if 0 < o then 0 else o) =
      s.pool.orderNo.map fun o => if 0 < o then 0 else o := by
    obtain ⟨hlt, hval⟩ := List.getElem?_eq_some_iff.mp hlow.slot
    have hpos := hlow.pos
    apply List.ext_getElem (by simp)
    intro i _ hi
    by_cases hii : index = i
    · subst hii
      simp [hval, hpos]
    · simp [hii]
  cases hp with
  | discarded hold =>
    refine ⟨(index, order) :: ready, hready.cons hlow h.distinct, he.nReady, he.orderNo.trans hmap, ?_, ?_⟩
    · rw [he.blocks, List.filter_cons_of_neg (by simpa using hold)]
      rfl
    · rw [he.log]
      simp [hold, Outcome.isFinal, List.filter_cons]
  | putBack _ _ =>
    refine ⟨ready, hready, he.nReady, he.orderNo, he.blocks, ?_⟩
    rw [he.log]
    simp [Outcome.isFinal]
  | written w hnew hblocks hlog hlast _ _ =>
    have hcons := hready.cons hlow h.distinct
    have hlater : ∀ x ∈ ready, order < x.2 := (List.pairwise_cons.mp hcons.sorted).1
    refine ⟨(index, order) :: ready, hcons, he.nReady, he.orderNo.trans hmap, ?_, ?_⟩
    · have hall : ready.filter (fun x => w.lastOrd < x.2) = ready :=
        List.filter_eq_self.mpr fun x hx => by simpa [hlast] using hlater x hx
      have hall' : ready.filter (fun x => s.writer.lastOrd < x.2) = ready :=
        List.filter_eq_self.mpr fun x hx => by simpa using hnew.trans (hlater x hx)
      rw [he.blocks, List.filter_cons_of_pos (by simpa using hnew), hall', List.map_cons, List.append_cons, ← hblocks]
      exact congrArg (fun l : List (Nat × Nat) => w.blocks ++ l.map (slotBlock s.pool)) hall
    · rw [he.log, List.map_cons, if_neg (by simp only; omega)]
      have hsame : (ready.map fun x => if x.2 ≤ w.lastOrd then Outcome.discarded x.1 else .written x.1) =
          ready.map fun x => if x.2 ≤ s.writer.lastOrd then .discarded x.1 else .written x.1 := by
        refine List.map_congr_left fun x hx => ?_
        have := hlater x hx
        rw [if_neg (by omega), if_neg (by omega)]
      rw [hsame, hlog]
      simp [Outcome.isFinal, List.filter_cons]

/-! ### The loop -/

theorem emptied_done (h : s.Ready) (h0 : s.pool.nReady = 0) : ReadyList s.pool.orderNo [] ∧ Emptied s s [] := by
  have hnone : ∀ o ∈ s.pool.orderNo, ¬0 < o := fun o ho hpos => by
    have hslots : 0 < readySlots s.pool.orderNo := List.countP_pos_iff.mpr ⟨o, ho, decide_eq_true hpos⟩
    have := h.count
    omega
  refine ⟨⟨.nil, fun i k => ?_⟩, h0, ?_, by simp, by simp⟩
  · refine iff_of_false List.not_mem_nil ?_
    rintro ⟨hk, hget⟩
    exact hnone k (List.mem_of_getElem? hget) (by omega)
  · exact (List.map_id _).symm.trans (List.map_congr_left fun o ho => (if_neg (hnone o ho)).symm)

theorem loop_emptied (fuel : Nat) (s : Drain) (h : s.Ready) (hfuel : s.budget < fuel) :
    ∃ s' ready, s.loop fuel = some s' ∧ ReadyList s.pool.orderNo ready ∧ Emptied s s' ready := by
  induction fuel generalizing s with
  | zero => omega
  | succ fuel ih =>
    by_cases h0 : s.pool.nReady = 0
    · exact ⟨s, [], if_pos h0, emptied_done h h0⟩
    · have hr : 0 < s.pool.nReady := by omega
      obtain ⟨index, order, hfind, hlow⟩ := exists_lowest (h.count ▸ hr) h.bounded
      obtain ⟨s₁, hs₁, hp⟩ := pass_passes h hr hfind hlow
      obtain ⟨s', ready, hloop, hready, he⟩ := ih s₁ (hp.ready h hr hlow) (by have := hp.budget_lt hr; omega)
      obtain ⟨ready', hready', he'⟩ := hp.emptied h hlow hready he
      exact ⟨s', ready', by rw [loop, UdpBuff.anyBufFull, if_neg h0, hs₁, Option.bind_some, hloop], hready', he'⟩

/-- Left alone with the pool, the file thread ends with no slot ready, and has written the orders above the
    last one in increasing order, each once, and discarded the others. -/
theorem loop_terminates (s : Drain) (h : s.Ready) : ∃ fuel s' ready,
    s.loop fuel = some s' ∧ readySlots s'.pool.orderNo = 0 ∧ ReadyList s.pool.orderNo ready ∧ Emptied s s' ready := by
  obtain ⟨s', ready, hloop, hready, he⟩ := loop_emptied (s.budget + 1) s h (Nat.lt_succ_self _)
  refine ⟨_, s', ready, hloop, ?_, hready, he⟩
  rw [readySlots, he.orderNo, List.countP_map, List.countP_eq_zero]
  intro o _
  simp only [Function.comp_apply, decide_eq_true_eq]
  split <;> omega

/-- Orders 1 and 3 are ready before the first file is open; a thread that has ended still holds a slot. -/
def gapDrain : Drain where
  pool := { data := fun _ _ => 0, dataLen := fun _ => rxDataLen, orderNo := [3, -1, 1, 0], nReady := 2 }
  writer := .start { nAnts := 1, antNumbers := [7], nchans := 1, firstChan := 0, packetStart := 128 }

theorem gapDrain_terminates : ∃ fuel s' ready, gapDrain.loop fuel = some s' ∧ readySlots s'.pool.orderNo = 0 ∧
    ReadyList gapDrain.pool.orderNo ready ∧ Emptied gapDrain s' ready :=
  loop_terminates gapDrain
    { count := rfl
      bounded := by decide
      distinct := by decide
      first := .inr (by decide)
      opened := fun h => absurd h (by decide) }

end

end Drain

end VoltRec
