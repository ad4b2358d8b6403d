import VoltRec.Theorems.Recording
import VoltRec.Theorems.Slots

/-! Where the blocks are. The worker numbers them in the order in which it gets their slots, and each number is in
    one place at any time: with the worker, published, with the file writer, or settled. -/

namespace VoltRec

variable {cfg : Config} {u : Uninit} {w : Worker} {slots : Nat → Nat} {i : Instr} {rest : List Instr}

/-! ### The local orders -/

def Worker.localOrders (w : Worker) : List Nat := (List.finRange 6).map fun iK => (w.localStruct iK).order

/-- Those but for one block. -/
def Worker.otherOrders (w : Worker) (iK : Fin 6) : List Nat :=
  ((List.finRange 6).erase iK).map fun jK => (w.localStruct jK).order

theorem Worker.localOrders_perm (w : Worker) (iK : Fin 6) :
    w.localOrders.Perm ((w.localStruct iK).order :: w.otherOrders iK) :=
  (List.perm_cons_erase (List.mem_finRange iK)).map fun jK => (w.localStruct jK).order

theorem Worker.exec_order_none (h : w.handsOver i = none) (iK : Fin 6) :
    ((w.exec cfg slots i).localStruct iK).order = (w.localStruct iK).order := by
  cases i with
  | scan packets =>
    simp only [exec, firstScan]
    split <;> rfl
  | packet p => exact (Worker.sameBlocks_packetStep cfg w p).order iK
  | startFlush => rfl
  | full jK =>
    rcases w.fullStep_cases cfg slots jK with ⟨h0, -⟩ | ⟨-, hs⟩
    · simp [handsOver, h0] at h
    · rw [exec, hs]
  | checkStarted =>
    rw [exec]
    rcases w.checkStarted_cases with ⟨-, hs⟩ | ⟨-, hs⟩ <;> rw [hs]
  | earlier jK =>
    rcases w.earlierStep_cases cfg slots jK with ⟨h0, -⟩ | ⟨-, hs⟩
    · simp [handsOver, h0] at h
    · rw [exec, hs]

theorem Worker.exec_localStruct_some {iK : Fin 6} (h : w.handsOver i = some iK) :
    ∃ b, b.order = w.nextOrder ∧ (w.exec cfg slots i).localStruct = Function.update w.localStruct iK b := by
  cases i with
  | full jK =>
    rcases w.fullStep_cases cfg slots jK with ⟨h0, hs⟩ | ⟨h0, -⟩
    · simp only [handsOver, h0, if_true, Option.some.injEq] at h
      subst h
      exact ⟨_, rfl, by rw [exec, hs, handOver_localStruct]⟩
    · simp [handsOver, h0] at h
  | earlier jK =>
    rcases w.earlierStep_cases cfg slots jK with ⟨h0, n, hs⟩ | ⟨h0, -⟩
    · simp only [handsOver, h0, if_true, Option.some.injEq] at h
      subst h
      exact ⟨_, rfl, by rw [exec, hs, handOver_localStruct]⟩
    · simp [handsOver, h0] at h
  | scan | packet | startFlush | checkStarted => cases h

/-- A block that is handed over leaves its place to the next one. -/
theorem Worker.localOrders_exec {iK : Fin 6} (h : w.handsOver i = some iK) :
    (w.exec cfg slots i).localOrders.Perm (w.nextOrder :: w.otherOrders iK) := by
  obtain ⟨b, hb, hupdate⟩ : ∃ b, b.order = w.nextOrder ∧
      (w.exec cfg slots i).localStruct = Function.update w.localStruct iK b := exec_localStruct_some h
  refine (localOrders_perm _ iK).trans ?_
  have hother : (w.exec cfg slots i).otherOrders iK = w.otherOrders iK := by
    refine List.map_congr_left fun jK hj => ?_
    have hne : jK ≠ iK := ((List.nodup_finRange 6).mem_erase_iff.mp hj).1
    rw [hupdate, Function.update_of_ne hne]
  rw [hother, hupdate, Function.update_self, hb]

/-! ### Orders on their way -/

/-- The order that a mark publishes. -/
def order? (o : Int) : Option Nat := if 0 < o then some o.toNat else none

theorem order?_natCast {m : Nat} (h : 0 < m) : order? m = some m := by simp [order?, h]

theorem count_range'_succ (n k : Nat) :
    (List.range' 1 (n + 1)).count k = (List.range' 1 n).count k + if n + 1 = k then 1 else 0 := by
  rw [List.range'_1_concat, List.count_append, List.count_singleton, Nat.add_comm 1 n]
  simp

/-- Whether a mark publishes order `n`. -/
def publishes (n : Nat) (o : Int) : Bool := order? o == some n

@[simp] theorem publishes_zero (n : Nat) : publishes n 0 = false := rfl
@[simp] theorem publishes_neg_one (n : Nat) : publishes n (-1) = false := rfl
theorem publishes_natCast {m : Nat} (h : 0 < m) (n : Nat) : publishes n m = (m == n) := by
  simp [publishes, order?_natCast h]

namespace FilePool

variable {fileBuff : FileBuff} {data : Nat → Nat → UInt8} {dataLen : Nat → Nat} {tr : List (Label UdpBuffer)}
  {s s' : State} {l : Label UdpBuffer} {pos pos' : WorkerAt} {k k' : Bool}

/-- The published orders, by slot. -/
def readyOrders (s : State) : List Nat := s.pool.buff.orderNo.filterMap order?

/-- The order that the file writer has in hand, and those that it has settled: it gave their slots back empty. -/
def settle (done : Option Nat × List Nat) : Label UdpBuffer → Option Nat × List Nat
  | .call (.fetchBufferTake .consumer _ order _ _) => (order? order, done.2)
  | .call (.returnBufferData .consumer _ _ _ _) => (none, done.2)
  | .call (.returnEmptyBuffer .consumer _) => (none, done.2 ++ done.1.toList)
  | _ => done

def settled (tr : List (Label UdpBuffer)) : Option Nat × List Nat := tr.foldl settle (none, [])

theorem settled_snoc (tr : List (Label UdpBuffer)) (l : Label UdpBuffer) :
    settled (tr ++ [l]) = settle (settled tr) l := by
  rw [settled, List.foldl_append]
  rfl

/-! ### The worker -/

/-- The orders that the worker keeps where it stands. -/
def Keeps : WorkerAt → List Nat → Prop
  | .fetching slots, kept => kept = List.range' 1 slots.length
  | .running w _, kept => kept = w.localOrders
  | .waiting w, kept => kept = w.localOrders
  | .closing w _, kept => kept = w.localOrders
  | .returning w i _, kept | .swapping w i _, kept => ∃ iK, w.handsOver i = some iK ∧ kept = w.otherOrders iK
  | .noSlot, _ => True
  | .returned, _ => True

/-- A turn of the worker moves no order but the one that it publishes, and brings in the next one. -/
theorem Keeps.turn {kept : List Nat} (h : Keeps pos kept) (hp : Processes cfg u tr pos)
    (ht : WorkerTurn cfg u k pos l k' pos') : ∃ kept', Keeps pos' kept' ∧ ∀ n,
      kept'.count n + l.marking (publishes n) + (List.range' 1 (slotsGiven tr)).count n =
        kept.count n + l.unmarking (publishes n) + (List.range' 1 (slotsGiven (tr ++ [l]))).count n := by
  have hidle : ∀ {kept' : List Nat}, l.isIdle = true → (l.act?.bind Act.mark) = none → kept'.Perm kept → ∀ n,
      kept'.count n + l.marking (publishes n) + (List.range' 1 (slotsGiven tr)).count n =
        kept.count n + l.unmarking (publishes n) + (List.range' 1 (slotsGiven (tr ++ [l]))).count n := by
    intro kept' hl hmark hperm n
    rw [hperm.count_eq, Label.marking, Label.unmarking, hmark, slotsGiven, slotsGiven, tally_idle hl]
    rfl
  cases ht with
  | @fetchFirst _ slots index =>
    obtain ⟨-, hgiven, -⟩ := hp
    refine ⟨List.range' 1 (slots.length + 1), by simp [Keeps], fun n => ?_⟩
    obtain rfl : kept = List.range' 1 slots.length := h
    rw [slotsGiven_fetch, hgiven]
    simp [Label.marking, Label.unmarking, Label.act?, Act.mark]
    omega
  | @start _ slots all =>
    obtain rfl : kept = List.range' 1 slots.length := h
    refine ⟨_, rfl, hidle rfl rfl ?_⟩
    rw [all]
    exact List.Perm.refl _
  | @instr _ w i rest hi slots' =>
    obtain rfl : kept = w.localOrders := h
    refine ⟨_, rfl, hidle rfl rfl (List.Perm.of_eq ?_)⟩
    exact List.map_congr_left fun iK _ => Worker.exec_order_none hi iK
  | @returnBuffer _ w i rest iK d hi =>
    obtain rfl : kept = w.localOrders := h
    have hpos : 0 < (w.localStruct iK).order := by
      obtain ⟨slots, is, hprog, hw⟩ := Progress.program hp
      exact (Reached.ordered ⟨is, ⟨_, hprog⟩, hw⟩).pos iK
    refine ⟨_, ⟨iK, hi, rfl⟩, fun n => ?_⟩
    rw [(w.localOrders_perm iK).count_eq, List.count_cons, slotsGiven, slotsGiven, tally_idle rfl]
    simp [Label.marking, Label.unmarking, Label.act?, Act.mark, publishes_natCast hpos, Bool.toNat, Bool.cond_eq_ite]
  | @fetchNext _ w i rest index =>
    obtain ⟨iK, hi, rfl⟩ := h
    refine ⟨_, rfl, fun n => ?_⟩
    rw [(Worker.localOrders_exec hi).count_eq, List.count_cons, slotsGiven_fetch, count_range'_succ, hp.2.given]
    simp [Label.marking, Label.unmarking, Label.act?, Act.mark]
    omega
  | @returnEmptyBuffer _ w iK =>
    refine ⟨kept, h, fun n => ?_⟩
    rw [slotsGiven, slotsGiven, tally_idle rfl]
    rfl
  | noFirst | closed => exact ⟨kept, trivial, hidle rfl rfl (.refl _)⟩
  | buffer => exact ⟨kept, h, fun n => by rw [slotsGiven_input]; rfl⟩
  | writeFirst | goOn | leave | noBuffer | write | integrity | ready | noNext | closingIntegrity =>
    exact ⟨kept, h, hidle rfl rfl (.refl _)⟩

/-! ### The file writer -/

/-- The order of the buffer that the file writer has. -/
def WriterAt.inHand : WriterAt → Option Nat
  | .holding _ b => some b.order
  | _ => none

/-- A turn of the file writer takes a published order in hand, publishes it again or settles it. -/
theorem WriterTurn.settles {c c' : WriterAt} (h : WriterTurn k c l k' c') (done : List Nat) :
    ∃ done', settle (c.inHand, done) l = (c'.inHand, done') ∧ ∀ n,
      c'.inHand.toList.count n + done'.count n + l.marking (publishes n) =
        c.inHand.toList.count n + done.count n + l.unmarking (publishes n) := by
  cases h with
  | fetchBufferTake b =>
    refine ⟨done, by simp [settle, WriterAt.inHand, order?_natCast b.pos], fun n => ?_⟩
    simp [WriterAt.inHand, Label.marking, Label.unmarking, Label.act?, Act.mark, publishes_natCast b.pos, Bool.toNat,
      Bool.cond_eq_ite, List.count_cons]
    omega
  | @returnEmptyBuffer _ _ b =>
    refine ⟨done ++ [b.order], rfl, fun n => ?_⟩
    simp [WriterAt.inHand, Label.marking, Label.unmarking, Label.act?, Act.mark, List.count_append, List.count_cons]
    omega
  | @returnBuffer _ _ b =>
    refine ⟨done, rfl, fun n => ?_⟩
    simp [WriterAt.inHand, Label.marking, Label.unmarking, Label.act?, Act.mark, publishes_natCast b.pos, Bool.toNat,
      Bool.cond_eq_ite, List.count_cons]
    omega
  | goOn | stopped | anyFull | leave | fetchBufferWait | waitOn | shut | takeNone | integrity | ready =>
    exact ⟨done, rfl, fun _ => rfl⟩

theorem settle_worker (h : WorkerTurn cfg u k pos l k' pos') (done : Option Nat × List Nat) : settle done l = done := by
  cases h <;> rfl

/-- What goes into a file is settled. -/
theorem orders_settled {c c' : WriterAt} (h : WriterTurn k c l k' c') (hs : c.fileWriter.Sequenced)
    {done done' : List Nat} (hd : settle (c.inHand, done) l = (c'.inHand, done'))
    (hsub : c.fileWriter.orders.Sublist done) : c'.fileWriter.orders.Sublist done' := by
  have hsame : ∀ {f f' : FileWriter}, f'.files = f.files → f'.orders = f.orders := fun h => by
    rw [FileWriter.orders, FileWriter.orders, FileWriter.blocks, FileWriter.blocks, h]
  cases h with
  | @returnEmptyBuffer _ f b =>
    cases hd
    have hseq : f.Sequenced := hs
    show (f.pass b).orders.Sublist (done ++ [b.order])
    rcases (hseq.pass b).2.1 with ⟨-, hfiles, -⟩ | ⟨hfiles, -⟩ | ⟨hblocks, -⟩
    · rw [hsame hfiles]
      exact hsub.trans (List.sublist_append_left ..)
    · rw [hsame hfiles]
      exact hsub.trans (List.sublist_append_left ..)
    · rw [FileWriter.orders, hblocks, List.map_append]
      exact hsub.append (.refl _)
  | @returnBuffer _ f b _ hlast =>
    cases hd
    have hseq : f.Sequenced := hs
    rcases (hseq.pass b).2.1 with ⟨-, hfiles, -⟩ | ⟨hfiles, -⟩ | ⟨-, hlog⟩
    · exact (hsame hfiles).symm ▸ hsub
    · exact (hsame hfiles).symm ▸ hsub
    · simp [hlog] at hlast
  | fetchBufferTake =>
    obtain rfl : done = done' := congrArg Prod.snd hd
    exact hsub
  | goOn | stopped | anyFull | leave | fetchBufferWait | waitOn | shut | takeNone | integrity | ready =>
    cases hd
    exact hsub

/-! ### Both -/

structure Accounted (tr : List (Label UdpBuffer)) (s : State) : Prop where
  inHand : (settled tr).1 = s.consumer.inHand
  count : ∃ kept, Keeps s.producer kept ∧ ∀ n, kept.count n + s.pool.buff.orderNo.countP (publishes n) +
    (s.consumer.inHand.toList.count n + (settled tr).2.count n) = (List.range' 1 (slotsGiven tr)).count n
  files : s.consumer.fileWriter.orders.Sublist (settled tr).2

theorem accounted_init (fileBuff : FileBuff) (data : Nat → Nat → UInt8) (dataLen : Nat → Nat) :
    Accounted [] (init fileBuff data dataLen) := by
  refine ⟨rfl, ⟨[], rfl, fun n => ?_⟩, .refl _⟩
  simp [init, Threads.init, Pool.init, initUdpBuff, WriterAt.inHand, settled, slotsGiven, tally, List.countP_replicate]

theorem accounts (hr : Lts.Run (Step cfg u) (init fileBuff data dataLen) tr s) : Accounted tr s := by
  refine hr.invariant (I := Accounted) (accounted_init ..) ?_
  · rintro tr ⟨p, k, wk, wr⟩ l s' hr ⟨hhand, ⟨kept, hkeeps, hcount⟩, hfiles⟩ hs
    cases hs with
    | interrupt =>
      refine ⟨?_, ⟨kept, hkeeps, ?_⟩, ?_⟩
      all_goals rw [settled_snoc]
      · exact hhand
      · rw [slotsGiven, tally_idle rfl]
        exact hcount
      · exact hfiles
    | producer ht hp =>
      obtain ⟨kept', hkeeps', hturn⟩ := hkeeps.turn (processes hr) ht
      refine ⟨?_, ⟨kept', hkeeps', fun n => ?_⟩, ?_⟩
      all_goals rw [settled_snoc, settle_worker ht]
      · exact hhand
      · have h₁ := onPool_countP hp (publishes n)
        have h₂ := hturn n
        have h₃ := hcount n
        simp only at h₁ h₂ h₃ ⊢
        omega
      · exact hfiles
    | @consumer _ _ c _ ht hp =>
      obtain ⟨done', hsettle, hturn⟩ := ht.settles (settled tr).2
      have hsnoc : settled (tr ++ [l]) = (c.inHand, done') := by
        rw [settled_snoc, ← hsettle, ← hhand]
      refine ⟨by rw [hsnoc], ⟨kept, hkeeps, fun n => ?_⟩, ?_⟩
      · have h₁ := onPool_countP hp (publishes n)
        have h₂ := hturn n
        have h₃ := hcount n
        rw [hsnoc, slotsGiven, tally_idle (writer_isIdle ht), ← slotsGiven]
        simp only at h₁ h₂ h₃ ⊢
        omega
      · rw [hsnoc]
        exact orders_settled ht (sequenced hr) hsettle hfiles

/-- Each block that the worker was given a slot for is in one place, and in one only: with the worker, published in
    one slot, in the hands of the file writer, or settled; and what is in the files is settled. -/
theorem blocks_accounted (hr : Lts.Run (Step cfg u) (init fileBuff data dataLen) tr s) : ∃ kept : List Nat,
    (∀ w, s.producer.blocks = some w → kept = w.localOrders) ∧
      (kept ++ readyOrders s ++ s.consumer.inHand.toList ++ (settled tr).2).Perm (List.range' 1 (slotsGiven tr)) ∧
      s.consumer.fileWriter.orders.Sublist (settled tr).2 := by
  obtain ⟨-, ⟨kept, hkeeps, hcount⟩, hfiles⟩ := accounts hr
  refine ⟨kept, fun w hw => ?_, List.perm_iff_count.mpr fun n => ?_, hfiles⟩
  · cases hpos : s.producer with
    | running | waiting =>
      rw [hpos] at hw hkeeps
      cases hw
      exact hkeeps
    | closing w' iK =>
      rw [hpos] at hw hkeeps
      cases iK with
      | zero =>
        cases hw
        exact hkeeps
      | succ => cases hw
    | fetching | noSlot | returning | swapping | returned =>
      rw [hpos] at hw
      cases hw
  · have hready : (readyOrders s).count n = s.pool.buff.orderNo.countP (publishes n) := List.count_filterMap
    rw [← hcount n, List.count_append, List.count_append, List.count_append, hready]
    omega

theorem blocks_accounted_firstBlock : ∃ (tr : List (Label UdpBuffer)) (s : State) (kept : List Nat),
    s.consumer.fileWriter.orders = [1] ∧ (∀ w, s.producer.blocks = some w → kept = w.localOrders) ∧
      (kept ++ readyOrders s ++ s.consumer.inHand.toList ++ (settled tr).2).Perm (List.range' 1 (slotsGiven tr)) ∧
      s.consumer.fileWriter.orders.Sublist (settled tr).2 := by
  obtain ⟨tr, s, hr, -, horders⟩ := Recording.run_firstBlock
  obtain ⟨kept, h⟩ := blocks_accounted (Recording.below hr).run
  exact ⟨tr, Recording.filePool s, kept, horders, h⟩

end FilePool
end VoltRec
