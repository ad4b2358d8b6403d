import VoltRec.FilePool
import VoltRec.Theorems.Threads
import VoltRec.Theorems.BlockAssembly
import VoltRec.Theorems.Files

/-! Who has the slots of the file pool. The worker's calls are those of the machine that runs its loop bodies,
    with the slots that the pool answers with, so its six blocks have the slots that it has taken and not given
    back; the file writer has the slot of the buffer that it deals with. -/

namespace VoltRec

variable {cfg : Config} {u : Uninit} {w : Worker} {slots slots' : Nat → Nat} {is rest : List Instr} {i : Instr}

/-! ### Instructions and slots -/

/-- The slots matter to an instruction only where it asks for one. -/
theorem Worker.exec_congr (h : w.handsOver i ≠ none → slots w.nextOrder = slots' w.nextOrder) :
    w.exec cfg slots i = w.exec cfg slots' i := by
  cases i with
  | full iK =>
    simp only [exec, fullStep, handsOver] at h ⊢
    split
    · rename_i h0
      simp only [h0, if_true, ne_eq, reduceCtorEq, not_false_eq_true, forall_const] at h
      simp only [handOver, h]
    · rfl
  | earlier iK =>
    simp only [exec, earlierStep, handsOver] at h ⊢
    split
    · rename_i h0
      simp only [h0, if_true, ne_eq, reduceCtorEq, not_false_eq_true, forall_const] at h
      simp only [handOver, h]
    · rfl
  | scan | packet | startFlush | checkStarted => rfl

/-- An instruction that hands no block over makes no call. -/
theorem Worker.exec_none (h : w.handsOver i = none) :
    (w.exec cfg slots i).nextOrder = w.nextOrder ∧
      (w.exec cfg slots i).log.filterMap Event.call = w.log.filterMap Event.call := by
  cases i with
  | scan packets =>
    simp only [exec, firstScan]
    split <;> exact ⟨rfl, rfl⟩
  | packet p =>
    obtain ⟨hnext, -, -, -, -, -, hlog⟩ := w.packetStep_frame cfg p
    exact ⟨hnext, by simp only [exec, hlog]; simp [Event.call]⟩
  | startFlush => exact ⟨rfl, rfl⟩
  | full iK =>
    rcases w.fullStep_cases cfg slots iK with ⟨h0, -⟩ | ⟨-, hs⟩
    · simp [handsOver, h0] at h
    · rw [exec, hs]
      exact ⟨rfl, rfl⟩
  | checkStarted =>
    rw [exec]
    rcases w.checkStarted_cases with ⟨-, hs⟩ | ⟨-, hs⟩ <;> rw [hs]
    · exact ⟨rfl, List.filterMap_append.trans (List.append_nil _)⟩
    · exact ⟨rfl, rfl⟩
  | earlier iK =>
    rcases w.earlierStep_cases cfg slots iK with ⟨h0, -⟩ | ⟨-, hs⟩
    · simp [handsOver, h0] at h
    · rw [exec, hs]
      exact ⟨rfl, rfl⟩

/-- An instruction that hands a block over publishes it and asks for the slot of the next one. -/
theorem Worker.exec_some {iK : Fin 6} (h : w.handsOver i = some iK) :
    (w.exec cfg slots i).nextOrder = w.nextOrder + 1 ∧
      (w.exec cfg slots i).log.filterMap Event.call = w.log.filterMap Event.call ++
        [.returnBuffer (w.localStruct iK).index (w.localStruct iK).order cfg.dataLenOut,
          .fetchEmptyBuffer (slots w.nextOrder)] := by
  cases i with
  | full jK =>
    simp only [handsOver] at h
    split at h
    · rename_i h0
      obtain rfl := Option.some.inj h
      simp [exec, fullStep, h0, Worker.handed, Event.call]
    · cases h
  | earlier jK =>
    simp only [handsOver] at h
    split at h
    · rename_i h0
      obtain rfl := Option.some.inj h
      simp [exec, earlierStep, h0, Worker.handed, Event.call]
    · cases h
  | scan | packet | startFlush | checkStarted => cases h

theorem Worker.le_exec_nextOrder (cfg : Config) (slots : Nat → Nat) (w : Worker) (i : Instr) :
    w.nextOrder ≤ (w.exec cfg slots i).nextOrder := by
  cases h : w.handsOver i with
  | none => exact (exec_none h).1.ge
  | some iK =>
    rw [(exec_some h).1]
    exact Nat.le_succ _

/-- A run depends on the slots of the blocks that it has allocated, and on no others. -/
theorem workerAfter_congr (h : ∀ k, k < (workerAfter cfg slots u is).nextOrder → slots k = slots' k) :
    workerAfter cfg slots u is = workerAfter cfg slots' u is := by
  induction is using List.reverseRecOn with
  | nil =>
    have hfirst : ∀ iK : Fin 6, slots (iK + 1) = slots' (iK + 1) := by
      intro iK
      refine h _ ?_
      show iK.val + 1 < 7
      omega
    simp only [workerAfter, List.foldl_nil, Worker.start, hfirst]
  | append_singleton is i ih =>
    rw [workerAfter_snoc] at h ⊢
    have hle := Worker.le_exec_nextOrder cfg slots (workerAfter cfg slots u is) i
    rw [workerAfter_snoc, ← ih fun k hk => h k (by omega)]
    refine Worker.exec_congr fun hne => h _ ?_
    obtain ⟨iK, hi⟩ := Option.ne_none_iff_exists'.mp hne
    rw [(Worker.exec_some hi).1]
    exact Nat.lt_succ_self _

namespace FilePool

variable {data : Nat → Nat → UInt8} {dataLen : Nat → Nat} {fileBuff : FileBuff} {tr : List (Label UdpBuffer)}
  {s : State} {cs : List Call}

/-! ### The worker -/

/-- The worker is the machine that has run a part of its program, on the slots that its calls were given. -/
def Runs (cfg : Config) (u : Uninit) (w : Worker) (rest : List Instr) (cs : List Call) : Prop :=
  ∃ slots bufs is, is ++ rest = program bufs ∧ w = workerAfter cfg slots u is ∧ cs = w.log.filterMap Event.call

theorem Runs.reached (h : Runs cfg u w rest cs) : ∃ slots bufs, Reached cfg slots u bufs w := by
  obtain ⟨slots, bufs, is, hprog, rfl, -⟩ := h
  exact ⟨slots, bufs, is, ⟨rest, hprog⟩, rfl⟩

theorem Runs.placed (h : Runs cfg u w rest cs) (hf : FreshCalls cs) : Placed w := by
  obtain ⟨slots, bufs, hr⟩ := h.reached
  obtain ⟨-, -, -, -, -, rfl⟩ := h
  refine hr.placed fun pre order index suf heq => hf _ index (suf.filterMap Event.call) ?_
  rw [heq, List.filterMap_append]
  rfl

/-- The slots of the local blocks are those that the worker has. -/
theorem Runs.held_iff (h : Runs cfg u w rest cs) (hf : FreshCalls cs) (index : Nat) :
    heldAfter index cs = true ↔ ∃ iK, (w.localStruct iK).index = index := by
  have hp := (h.placed hf).held index
  obtain ⟨-, -, -, -, -, rfl⟩ := h
  exact hp

theorem Runs.order_pos (h : Runs cfg u w rest cs) (iK : Fin 6) : 1 ≤ (w.localStruct iK).order := by
  obtain ⟨slots, bufs, hr⟩ := h.reached
  exact hr.ordered.pos iK

theorem Runs.start {slots : List Nat} (h : slots.length = nFileBuffersAtATime) :
    Runs cfg u (.start cfg (firstSlots slots) u) [] (slots.map .fetchEmptyBuffer) := by
  refine ⟨firstSlots slots, [], [], rfl, rfl, ?_⟩
  have hcalls : (Worker.start cfg (firstSlots slots) u).log.filterMap Event.call =
      (List.finRange 6).map fun iK => .fetchEmptyBuffer (slots.getD iK 0) := by
    rw [Worker.start, List.filterMap_map]
    exact congrFun List.filterMap_eq_map' _
  rw [hcalls]
  refine List.ext_getElem (by simpa [nFileBuffersAtATime] using h) fun k hk hk' => ?_
  rw [List.length_map] at hk
  simp [hk]

theorem Runs.buffer (h : Runs cfg u w [] cs) (b : UdpBuffer) : Runs cfg u w (iteration b.packets) cs := by
  obtain ⟨slots, bufs, is, hprog, hw, hcs⟩ := h
  refine ⟨slots, bufs ++ [b], is, ?_, hw, hcs⟩
  rw [List.append_nil] at hprog
  rw [hprog, program, program, List.flatMap_append, List.flatMap_singleton]

theorem Runs.instr (h : Runs cfg u w (i :: rest) cs) (hi : w.handsOver i = none) (slots' : Nat → Nat) :
    Runs cfg u (w.exec cfg slots' i) rest cs := by
  obtain ⟨slots, bufs, is, hprog, hw, hcs⟩ := h
  refine ⟨slots, bufs, is ++ [i], by simpa using hprog, ?_, by rw [(Worker.exec_none hi).2, hcs]⟩
  rw [workerAfter_snoc, ← hw]
  exact Worker.exec_congr fun hne => absurd hi hne

theorem Runs.swap (h : Runs cfg u w (i :: rest) cs) {iK : Fin 6} (hi : w.handsOver i = some iK) (index : Nat) :
    Runs cfg u (w.exec cfg (fun _ => index) i) rest
      (cs ++ [.returnBuffer (w.localStruct iK).index (w.localStruct iK).order cfg.dataLenOut] ++
        [.fetchEmptyBuffer index]) := by
  obtain ⟨slots, bufs, is, hprog, hw, hcs⟩ := h
  refine ⟨Function.update slots w.nextOrder index, bufs, is ++ [i], by simpa using hprog, ?_, ?_⟩
  · have hsame : workerAfter cfg (Function.update slots w.nextOrder index) u is = w := by
      rw [hw]
      refine (workerAfter_congr fun k hk => ?_).symm
      rw [Function.update_of_ne (Nat.ne_of_lt hk)]
    rw [workerAfter_snoc, hsame]
    exact Worker.exec_congr fun _ => by simp
  · rw [(Worker.exec_some hi).2, hcs]
    simp

/-- The calls of the clean-up loop before its pass `iK`. -/
def cleanUp (w : Worker) (iK : Nat) : List Call :=
  ((List.finRange 6).take iK).map fun jK => .returnEmptyBuffer (w.localStruct jK).index

theorem cleanUp_succ (w : Worker) (iK : Fin 6) :
    cleanUp w (iK + 1) = cleanUp w iK ++ [.returnEmptyBuffer (w.localStruct iK).index] := by
  have hget : (List.finRange 6)[iK.val]? = some iK := by simp
  rw [cleanUp, List.take_add_one, hget, List.map_append, cleanUp]
  rfl

theorem heldAfter_cleanUp (hinj : Function.Injective fun jK => (w.localStruct jK).index) (cs : List Call)
    (iK : Fin 6) {n : Nat} (hn : n ≤ iK) :
    heldAfter (w.localStruct iK).index (cs ++ cleanUp w n) = heldAfter (w.localStruct iK).index cs := by
  induction n with
  | zero => simp [cleanUp]
  | succ n ih =>
    have hlt : n < 6 := by omega
    rw [show n + 1 = (⟨n, hlt⟩ : Fin 6) + 1 from rfl, cleanUp_succ, ← List.append_assoc, heldAfter_returnEmptyBuffer]
    have hne : (w.localStruct ⟨n, hlt⟩).index ≠ (w.localStruct iK).index := by
      intro heq
      have := congrArg Fin.val (hinj heq)
      simp only at this
      omega
    rw [if_neg hne]
    exact ih (by omega)

/-- At its pass `iK` the clean-up loop has the slot of block `iK`. -/
theorem Runs.held_closing (h : Runs cfg u w [] cs) (hf : FreshCalls cs) (iK : Fin 6) :
    heldAfter (w.localStruct iK).index (cs ++ cleanUp w iK) = true := by
  rw [heldAfter_cleanUp (h.placed hf).inj cs iK (Nat.le_refl _)]
  exact (h.held_iff hf _).mpr ⟨iK, rfl⟩

/-- The calls of the worker fit where it stands. -/
def Works (cfg : Config) (u : Uninit) : WorkerAt → List Call → Prop
  | .fetching slots, cs => slots.length ≤ nFileBuffersAtATime ∧ cs = slots.map .fetchEmptyBuffer
  | .noSlot, _ => True
  | .running w rest, cs => Runs cfg u w rest cs
  | .waiting w, cs => Runs cfg u w [] cs
  | .returning w i rest, cs | .swapping w i rest, cs => ∃ iK cs', w.handsOver i = some iK ∧
      Runs cfg u w (i :: rest) cs' ∧
      cs = cs' ++ [.returnBuffer (w.localStruct iK).index (w.localStruct iK).order cfg.dataLenOut]
  | .closing w iK, cs => ∃ cs', Runs cfg u w [] cs' ∧ cs = cs' ++ cleanUp w iK
  | .returned, cs => ∃ w cs', Runs cfg u w [] cs' ∧ cs = cs' ++ cleanUp w nFileBuffersAtATime

/-- Every event, also one that is not there: the worker takes any kind of step. -/
def Any (_ : Label UdpBuffer) : Prop := True

theorem disciplined_worker (cfg : Config) (u : Uninit) :
    Disciplined .producer Any (WorkerTurn cfg u) (.fetching []) (Works cfg u) where
  start := ⟨by decide, rfl⟩
  thread h := by cases h <;> rfl
  held h _ ho hf := by
    cases h with
    | writeFirst mine =>
      obtain ⟨-, rfl⟩ := ho
      exact ⟨holding_of_held ((heldAfter_fetches _ _).mpr mine), trivial⟩
    | write => exact ⟨holding_of_held ((Runs.held_iff ho hf _).mpr ⟨_, rfl⟩), trivial⟩
    | returnBuffer hi =>
      exact ⟨holding_of_held ((Runs.held_iff ho hf _).mpr ⟨_, rfl⟩), Int.natCast_pos.mpr (Runs.order_pos ho _)⟩
    | integrity hi => exact ⟨holding_of_held ((Runs.held_iff ho hf _).mpr ⟨_, rfl⟩), trivial⟩
    | returnEmptyBuffer | closingIntegrity =>
      obtain ⟨cs', hrun, rfl⟩ := ho
      exact ⟨holding_of_held (hrun.held_closing hf.of_append _), trivial⟩
    | fetchFirst | noFirst | ready | fetchNext | noNext => exact ⟨trivial, trivial⟩
  step h _ ho hf := by
    cases h with
    | fetchFirst more =>
      obtain ⟨-, rfl⟩ := ho
      exact ⟨by rw [List.length_append]; exact more, by simp [Label.call?, Label.act?, Act.call]⟩
    | noFirst => trivial
    | writeFirst => simpa [Label.call?, Label.act?, Act.call, Works] using ho
    | start all =>
      obtain ⟨-, rfl⟩ := ho
      simpa [Label.call?, Label.act?, Works] using Runs.start all
    | goOn | noBuffer => simpa [Label.call?, Label.act?, Works] using ho
    | leave => exact ⟨_, ho, by simp [Label.call?, Label.act?, cleanUp]⟩
    | buffer => simpa [Label.call?, Label.act?, Works] using Runs.buffer ho _
    | instr hi slots => simpa [Label.call?, Label.act?, Works] using Runs.instr ho hi slots
    | write | integrity => simpa [Label.call?, Label.act?, Act.call, Works] using ho
    | returnBuffer hi => exact ⟨_, _, hi, ho, by simp [Label.call?, Label.act?, Act.call]⟩
    | ready => simpa [Label.call?, Label.act?, Act.call, Works] using ho
    | fetchNext =>
      obtain ⟨iK, cs', hi, hrun, rfl⟩ := ho
      exact Runs.swap hrun hi _
    | noNext => simpa [Label.call?, Label.act?, Act.call, Works] using ho
    | returnEmptyBuffer =>
      obtain ⟨cs', hrun, rfl⟩ := ho
      exact ⟨cs', hrun, by rw [cleanUp_succ]; simp [Label.call?, Label.act?, Act.call]⟩
    | closingIntegrity => simpa [Label.call?, Label.act?, Act.call, Works] using ho
    | closed =>
      obtain ⟨cs', hrun, rfl⟩ := ho
      exact ⟨_, cs', hrun, by simp [Label.call?, Label.act?]⟩

/-! ### The file writer -/

/-- The file writer has the slot of its buffer and no other. -/
def Writes : WriterAt → List Call → Prop
  | .holding _ b, cs => ∀ index, heldAfter index cs = true ↔ b.index = index
  | _, cs => ∀ index, heldAfter index cs = false

theorem disciplined_writer (fileBuff : FileBuff) :
    Disciplined .consumer Any WriterTurn (.test (.start fileBuff)) Writes where
  start index := rfl
  thread h := by cases h <;> rfl
  held h _ ho _ := by
    cases h with
    | returnEmptyBuffer | integrity => exact ⟨holding_of_held ((ho _).mpr rfl), trivial⟩
    | @returnBuffer _ _ b =>
      have := b.pos
      exact ⟨holding_of_held ((ho _).mpr rfl), Int.natCast_pos.mpr this⟩
    | anyFull | leave | fetchBufferWait | waitOn | shut | fetchBufferTake | takeNone | ready => exact ⟨trivial, trivial⟩
  step h _ ho _ := by
    have hgive : ∀ {b : Fetched} {cs : List Call}, (∀ index, heldAfter index cs = true ↔ b.index = index) →
        ∀ index, (if b.index = index then false else heldAfter index cs) = false := by
      intro b cs ho index
      split
      · rfl
      · rename_i hne
        exact Bool.eq_false_iff.mpr fun h => hne ((ho index).mp h)
    cases h with
    | fetchBufferTake b =>
      intro index
      simp only [Writes] at ho
      simp [Label.call?, Label.act?, Act.call, ho]
    | returnEmptyBuffer =>
      intro index
      simpa [Label.call?, Label.act?, Act.call] using hgive ho index
    | returnBuffer =>
      intro index
      simpa [Label.call?, Label.act?, Act.call] using hgive ho index
    | integrity => simpa [Label.call?, Label.act?, Act.call, Writes] using ho
    | goOn | stopped | anyFull | leave | fetchBufferWait | waitOn | shut | takeNone | ready =>
      simpa [Label.call?, Label.act?, Act.call, Writes] using ho

/-- The two threads together, on every interleaving. -/
theorem kept (hr : Lts.Run (Step cfg u) (init fileBuff data dataLen) tr s) :
    ∃ holder, Kept nFileBuffers data dataLen (Works cfg u) Writes tr s holder :=
  Threads.kept (disciplined_worker cfg u) (disciplined_writer fileBuff) hr fun _ _ => trivial

/-! ### The first six slots -/

/-- The file writer has claimed no buffer and has none. -/
def WriterAt.idle : WriterAt → Bool
  | .test _ => true
  | .testFull _ => true
  | .waiting _ => true
  | .returned _ => true
  | _ => false

/-- Until the worker has its six slots, all others are empty. -/
structure Starting (s : State) (slots : List Nat) : Prop where
  empty : s.pool.buff.orderNo.countP (· = 0) + slots.length = nFileBuffers
  nReady : s.pool.buff.nReady = 0
  idle : s.consumer.idle = true

theorem countP_mark {no : List Int} {index : Nat} (h : no[index]? = some 0) :
    (no.set index (-1)).countP (· = 0) + 1 = no.countP (· = 0) := by
  obtain ⟨hlt, h0⟩ := List.getElem?_eq_some_iff.mp h
  have hpos : 0 < no.countP (· = 0) := List.countP_pos_iff.mpr ⟨0, h0 ▸ List.getElem_mem hlt, rfl⟩
  rw [List.countP_set hlt, h0]
  simp
  omega

/-- The pool has more slots than the worker needs, so each of the first calls finds one. -/
theorem starting_step {s' : State} {l : Label UdpBuffer} (h : ∀ slots, s.producer = .fetching slots → Starting s slots)
    (hs : Step cfg u s l s') (hno : s.producer ≠ .noSlot) :
    (∀ slots, s'.producer = .fetching slots → Starting s' slots) ∧ s'.producer ≠ .noSlot := by
  obtain ⟨p, k, wk, wr⟩ := s
  cases hs with
  | interrupt =>
    refine ⟨fun slots hslots => ?_, hno⟩
    obtain ⟨hempty, hready, hidle⟩ := h slots hslots
    exact ⟨hempty, hready, hidle⟩
  | producer ht hp =>
    cases ht with
    | @fetchFirst _ slots index =>
      have hst := h slots rfl
      refine ⟨fun slots' hslots => ?_, WorkerAt.noConfusion⟩
      cases hslots
      cases hp with
      | fetchEmptyBuffer _ _ hf =>
        obtain ⟨h0, rfl⟩ := UdpBuff.fetchEmptyBuffer_spec hf
        have hempty := hst.empty
        have hmark := countP_mark h0
        refine ⟨?_, hst.nReady, hst.idle⟩
        simp only [List.length_append, List.length_singleton] at hempty hmark ⊢
        omega
    | @noFirst _ slots more =>
      cases hp with
      | noEmpty _ _ hf =>
        simp only [UdpBuff.fetchEmptyBuffer, Option.map_eq_none_iff, findEmpty, List.findIdx?_eq_none_iff] at hf
        have hzero : p.buff.orderNo.countP (· = 0) = 0 := List.countP_eq_zero.mpr fun o ho => by simpa using hf o ho
        have hempty := (h slots rfl).empty
        simp only [nFileBuffersAtATime, nFileBuffers] at more hempty
        omega
    | writeFirst =>
      refine ⟨fun slots' hslots => ?_, WorkerAt.noConfusion⟩
      cases hslots
      have hst := h _ rfl
      cases hp
      exact ⟨hst.empty, hst.nReady, hst.idle⟩
    | start | goOn | leave | noBuffer | buffer | instr | write | returnBuffer | integrity | ready | fetchNext | noNext |
      returnEmptyBuffer | closingIntegrity | closed => exact ⟨fun slots => WorkerAt.noConfusion, WorkerAt.noConfusion⟩
  | consumer ht hp =>
    refine ⟨fun slots hslots => ?_, hno⟩
    obtain ⟨hempty, hready, hidle⟩ := h slots hslots
    cases ht with
    | fetchBufferWait =>
      cases hp with
      | fetchBufferWait _ hf =>
        have hpos : 0 < p.buff.nReady := (UdpBuff.fetchBufferWait_spec hf).1
        have hzero : p.buff.nReady = 0 := hready
        omega
    | anyFull | leave =>
      obtain ⟨-, -, rfl⟩ := Pool.Exec.anyBufFull_spec hp
      exact ⟨hempty, hready, rfl⟩
    | goOn | stopped | waitOn | shut =>
      cases hp
      exact ⟨hempty, hready, rfl⟩
    | fetchBufferTake | takeNone | returnEmptyBuffer | returnBuffer | integrity | ready => cases hidle

theorem noSlot_unreached (hr : Lts.Run (Step cfg u) (init fileBuff data dataLen) tr s) : s.producer ≠ .noSlot := by
  refine (hr.invariant
    (I := fun _ s => (∀ slots, s.producer = .fetching slots → Starting s slots) ∧ s.producer ≠ .noSlot)
    ⟨fun slots hslots => ?_, by simp [init, Threads.init]⟩ fun _ _ _ _ _ ih hs => starting_step ih.1 hs ih.2).2
  cases hslots
  exact ⟨by simp [init, Threads.init, Pool.init, initUdpBuff, List.countP_replicate], rfl, rfl⟩

/-! ### Ownership -/

/-- What a slot is: empty, ready, with the worker, with the file writer. -/
def isEmpty (s : State) (index : Nat) : Bool := s.pool.buff.orderNo[index]? == some 0
def isReady (s : State) (index : Nat) : Bool := 0 < s.pool.buff.orderNo.getD index 0
def isHeld (t : Side) (tr : List (Label UdpBuffer)) (index : Nat) : Bool := heldAfter index (calls t tr)

/-- The number of slots of a kind. -/
def countSlots (kind : Nat → Bool) : Nat := (List.range nFileBuffers).countP kind

/-- Where the worker is between two calls on the pool with its six blocks, also at the start of an iteration
    and at the start of the clean-up. -/
def WorkerAt.blocks : WorkerAt → Option Worker
  | .running w _ => some w
  | .waiting w => some w
  | .closing w 0 => some w
  | _ => none

theorem Works.blocks {p : WorkerAt} (h : Works cfg u p cs) (hw : p.blocks = some w) : ∃ rest, Runs cfg u w rest cs := by
  cases p with
  | running w' rest =>
    cases hw
    exact ⟨rest, h⟩
  | waiting w' =>
    cases hw
    exact ⟨[], h⟩
  | closing w' iK =>
    cases iK with
    | zero =>
      cases hw
      obtain ⟨cs', hrun, rfl⟩ := h
      exact ⟨[], by simpa [cleanUp] using hrun⟩
    | succ => cases hw
  | fetching | noSlot | returning | swapping | returned => cases hw

/-- Between two calls the worker is the thread that runs alone, and this pool has answered its calls. -/
theorem blocks_answered (hr : Lts.Run (Step cfg u) (init fileBuff data dataLen) tr s)
    (hw : s.producer.blocks = some w) : ∃ slots bufs, Reached cfg slots u bufs w ∧ Answered w.log := by
  obtain ⟨holder, hk⟩ := kept hr
  obtain ⟨rest, hrun⟩ := hk.producer.blocks hw
  obtain ⟨slots, bufs, hreached⟩ := hrun.reached
  obtain ⟨-, -, -, -, -, hcalls⟩ := hrun
  exact ⟨slots, bufs, hreached, Side, inferInstance, .producer, data, dataLen, acts tr, _, hk.run, hcalls⟩

structure Ownership (tr : List (Label UdpBuffer)) (s : State) : Prop where
  /-- Each slot is one of the four. -/
  status : ∀ index, index < nFileBuffers →
    [isEmpty s index, isReady s index, isHeld .producer tr index, isHeld .consumer tr index].count true = 1
  /-- The six blocks have different slots, marked as in use. -/
  blocks : ∀ w, s.producer.blocks = some w → (Function.Injective fun iK => (w.localStruct iK).index) ∧
    ∀ iK, isHeld .producer tr (w.localStruct iK).index = true ∧
      s.pool.buff.orderNo[(w.localStruct iK).index]? = some (-1)
  /-- A call gives back only what its thread has, so none aborts. -/
  givenBack : ∀ pre a post index, tr = pre ++ .call a :: post → a.givenBack = some index → Holds a.thread pre index
  integrity : ∀ t index, .call (.dataIntegrity t index) ∉ tr
  /-- No slot is lost. -/
  slots : countSlots (isEmpty s) + countSlots (isReady s) + countSlots (isHeld .producer tr) +
    countSlots (isHeld .consumer tr) = nFileBuffers

theorem countP_four {l : List Nat} {p q r t : Nat → Bool} (h : ∀ x ∈ l, [p x, q x, r x, t x].count true = 1) :
    l.countP p + l.countP q + l.countP r + l.countP t = l.length := by
  induction l with
  | nil => rfl
  | cons x l ih =>
    have hx := h x List.mem_cons_self
    have ih := ih fun y hy => h y (List.mem_cons_of_mem _ hy)
    simp only [List.count_cons, List.count_nil, beq_true] at hx
    simp only [List.countP_cons, List.length_cons]
    omega

/-- For every stream of buffers and every interleaving of the two threads. -/
theorem ownership (hr : Lts.Run (Step cfg u) (init fileBuff data dataLen) tr s) : Ownership tr s := by
  obtain ⟨holder, hk⟩ := kept hr
  have hstatus : ∀ index, index < nFileBuffers →
      [isEmpty s index, isReady s index, isHeld .producer tr index, isHeld .consumer tr index].count true = 1 := by
    intro index hlt
    have hlen : s.pool.buff.orderNo.length = nFileBuffers := length_orderNo hk.run
    rw [← hlen] at hlt
    have hget := List.getElem?_eq_getElem hlt
    have hmarked : ∀ t, isHeld t tr index = true → s.pool.buff.orderNo[index] = -1 := fun t ht =>
      Option.some.inj (hget.symm.trans (hk.marked ht))
    have hunheld : ∀ t, s.pool.buff.orderNo[index] ≠ -1 → isHeld t tr index = false := fun t hne =>
      Bool.eq_false_iff.mpr fun ht => hne (hmarked t ht)
    have htracked : s.pool.buff.orderNo[index] = 0 ∨ 0 < s.pool.buff.orderNo[index] ∨
        s.pool.buff.orderNo[index] = -1 ∧ holder index ≠ none := Tracked.run hk.run hk.positive index _ hget
    rcases htracked with h0 | hpos | ⟨h1, hholder⟩
    · simp [isEmpty, isReady, hget, h0, List.getD_eq_getElem?_getD, hunheld]
    · have hne : s.pool.buff.orderNo[index] ≠ 0 := by omega
      have hne1 : s.pool.buff.orderNo[index] ≠ -1 := by omega
      simp [isEmpty, isReady, hget, hpos, hne, List.getD_eq_getElem?_getD, hunheld _ hne1]
    · obtain ⟨t, ht⟩ := Option.ne_none_iff_exists'.mp hholder
      have hmine : isHeld t tr index = true := (hk.holds t index).mp ht
      have hother : ∀ t', t' ≠ t → isHeld t' tr index = false := by
        intro t' hne
        refine Bool.eq_false_iff.mpr fun ht' => hne ?_
        exact Option.some.inj (((hk.holds t' index).mpr ht').symm.trans ht)
      cases t with
      | producer => simp [isEmpty, isReady, hget, h1, List.getD_eq_getElem?_getD, hmine, hother .consumer (by decide)]
      | consumer => simp [isEmpty, isReady, hget, h1, List.getD_eq_getElem?_getD, hmine, hother .producer (by decide)]
  refine ⟨hstatus, fun w hw => ?_, fun pre a post index htr ha => hk.givenBack htr ha, fun t index hmem => ?_, ?_⟩
  · obtain ⟨rest, hrun⟩ := hk.producer.blocks hw
    have hfresh := hk.fresh .producer
    refine ⟨(hrun.placed hfresh).inj, fun iK => ?_⟩
    have hheld := (hrun.held_iff hfresh _).mpr ⟨iK, rfl⟩
    exact ⟨hheld, hk.marked hheld⟩
  · exact hk.not_integrity t index (List.mem_filterMap.mpr ⟨_, hmem, rfl⟩)
  · have := countP_four (l := List.range nFileBuffers) fun x hx => hstatus x (List.mem_range.mp hx)
    rwa [List.length_range] at this

/-- The first calls of the worker find the slots 0 to 5. -/
theorem run_firstSlots {k : Nat} (hk : k ≤ nFileBuffersAtATime) :
    ∃ tr, Lts.Run (Step cfg u) (init fileBuff data dataLen) tr
      ⟨.fetched nFileBuffers data dataLen k, true, .fetching (List.range k), .test (.start fileBuff)⟩ := by
  induction k with
  | zero => exact ⟨[], .start⟩
  | succ k ih =>
    obtain ⟨tr, hr⟩ := ih (by omega)
    have hlt : k < nFileBuffers := Nat.lt_of_lt_of_le hk (by decide)
    refine ⟨tr ++ [.call (.fetchEmptyBuffer .producer k)], hr.next ?_⟩
    rw [List.range_succ]
    refine .producer (.fetchFirst ?_) (Pool.fetched_succ hlt data dataLen Side.producer)
    rw [List.length_range]
    exact hk

theorem run_start (data : Nat → Nat → UInt8) (dataLen : Nat → Nat) (cfg : Config) (u : Uninit) (fileBuff : FileBuff) :
    ∃ tr, Lts.Run (Step cfg u) (init fileBuff data dataLen) tr
      ⟨.fetched nFileBuffers data dataLen nFileBuffersAtATime, true,
        .running (.start cfg (firstSlots (List.range nFileBuffersAtATime)) u) [], .test (.start fileBuff)⟩ := by
  obtain ⟨tr, hr⟩ : ∃ tr, Lts.Run (Step cfg u) (init fileBuff data dataLen) tr _ := run_firstSlots (Nat.le_refl _)
  exact ⟨_, hr.next (.producer (.start List.length_range) rfl)⟩

theorem ownership_start : ∃ (tr : List (Label UdpBuffer)) (s : State), s.producer.blocks ≠ none ∧ Ownership tr s := by
  obtain ⟨tr, hr⟩ := run_start (fun _ _ => 0) (fun _ => 0) singleChannel zeroed oneAnt
  refine ⟨_, _, ?_, ownership hr⟩
  simp [WorkerAt.blocks]

end FilePool
end VoltRec
