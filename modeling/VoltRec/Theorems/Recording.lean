import VoltRec.Recording
import VoltRec.Theorems.FileContents
import VoltRec.Theorems.Processing

/-! The bytes of a recording. What the buffers hold, together with what the worker has still to write, is what its
    loop bodies compute, whatever the file writer does meanwhile. -/

namespace VoltRec

open Memory (store)

variable {cfg : Config} {u : Uninit} {w : Worker} {slots : Nat → Nat} {rest : List Instr} {i : Instr}

/-! ### Instructions and buffers -/

/-- An instruction that hands no block over leaves the buffers to its `memcpy`. -/
theorem Worker.exec_data_none (h : w.handsOver i = none) :
    (w.exec cfg slots i).data = store w.data (Recording.writesAfter cfg (.running w (i :: rest)) .silent) := by
  cases i with
  | packet p =>
    simp only [exec, packetStep, Recording.writesAfter, Recording.memcpyWrites]
    cases cfg.accepts w.antNumbers p.header with
    | none => rfl
    | some ac =>
      obtain ⟨a, c⟩ := ac
      simp only
      cases findStructIndex w.localStruct (getPacketFilter (getPcktNo p.header)) with
      | none => rfl
      | some structIndex => exact (Memory.store_copyWrites ..).symm
  | scan packets =>
    simp only [exec, firstScan, Recording.writesAfter, Memory.store_nil]
    split <;> rfl
  | startFlush => rfl
  | full iK =>
    rcases w.fullStep_cases cfg slots iK with ⟨h0, -⟩ | ⟨-, hs⟩
    · simp [handsOver, h0] at h
    · rw [exec, hs]
      rfl
  | checkStarted =>
    rw [exec]
    rcases w.checkStarted_cases with ⟨-, hs⟩ | ⟨-, hs⟩ <;> rw [hs] <;> rfl
  | earlier iK =>
    rcases w.earlierStep_cases cfg slots iK with ⟨h0, -⟩ | ⟨-, hs⟩
    · simp [handsOver, h0] at h
    · rw [exec, hs]
      rfl

/-- An instruction that hands a block over puts the next one in its place, on the slot that it was given. -/
theorem Worker.index_exec_some {iK : Fin 6} (h : w.handsOver i = some iK) :
    ((w.exec cfg slots i).localStruct iK).index = slots w.nextOrder := by
  cases i with
  | full jK =>
    rcases w.fullStep_cases cfg slots jK with ⟨h0, hs⟩ | ⟨h0, -⟩
    · simp only [handsOver, h0, if_true, Option.some.injEq] at h
      subst h
      rw [exec, hs, handOver_localStruct, Function.update_self]
      rfl
    · simp [handsOver, h0] at h
  | earlier jK =>
    rcases w.earlierStep_cases cfg slots jK with ⟨h0, n, hs⟩ | ⟨h0, -⟩
    · simp only [handsOver, h0, if_true, Option.some.injEq] at h
      subst h
      rw [exec, hs, handOver_localStruct, Function.update_self]
      rfl
    · simp [handsOver, h0] at h
  | scan | packet | startFlush | checkStarted => cases h

/-- It clears the buffer of the next block. -/
theorem Worker.exec_data_some {iK : Fin 6} (h : w.handsOver i = some iK) :
    (w.exec cfg slots i).data = store w.data (Recording.memsetWrites cfg (slots w.nextOrder)) := by
  rw [Recording.memsetWrites, Memory.store_fillWrites]
  cases i with
  | full jK =>
    rcases w.fullStep_cases cfg slots jK with ⟨-, hs⟩ | ⟨h0, -⟩
    · rw [exec, hs]
      rfl
    · simp [handsOver, h0] at h
  | earlier jK =>
    rcases w.earlierStep_cases cfg slots jK with ⟨-, n, hs⟩ | ⟨h0, -⟩
    · rw [exec, hs]
      rfl
    · simp [handsOver, h0] at h
  | scan | packet | startFlush | checkStarted => cases h

namespace Recording
open FilePool

variable {fileBuff : FileBuff} {dataLen : Nat → Nat} {tr : List (Label UdpBuffer)} {s s' : State}
  {l : Label UdpBuffer} {pos pos' : WorkerAt} {k k' : Bool}

/-! ### The file pool below -/

/-- The byte is one of a buffer that the worker has where it stands. -/
def Mine : WorkerAt → ByteWrite → Prop
  | .fetching slots, b => b.index ∈ slots
  | .running w _, b => ∃ iK, (w.localStruct iK).index = b.index
  | _, _ => False

theorem mem_memsetWrites {index : Nat} {b : ByteWrite} (h : b ∈ memsetWrites cfg index) : b.index = index := by
  obtain ⟨x, -, rfl⟩ := List.mem_map.mp h
  rfl

theorem mem_memcpyWrites {p : Packet} {b : ByteWrite} (h : b ∈ memcpyWrites cfg w p) :
    ∃ iK, (w.localStruct iK).index = b.index := by
  unfold memcpyWrites at h
  split at h
  · cases h
  · split at h
    · cases h
    · obtain ⟨j, -, rfl⟩ := List.mem_map.mp h
      exact ⟨_, rfl⟩

/-- The worker writes to buffers of its own. -/
theorem mine_of_turn (h : FilePool.WorkerTurn cfg u k pos l k' pos') (hswap : ∀ w i rest, pos = .swapping w i rest →
    w.handsOver i ≠ none) {b : ByteWrite} (hb : b ∈ writesAfter cfg pos l) : Mine pos' b := by
  cases h with
  | fetchFirst =>
    rw [Mine, mem_memsetWrites hb]
    simp
  | @instr _ w i rest hi slots =>
    cases i with
    | packet p =>
      obtain ⟨iK, hiK⟩ := mem_memcpyWrites hb
      exact ⟨iK, (Worker.packetStep_index cfg w p iK).trans hiK⟩
    | scan | startFlush | full | checkStarted | earlier => cases hb
  | @fetchNext _ w i rest index =>
    obtain ⟨iK, hi⟩ := Option.ne_none_iff_exists'.mp (hswap w i rest rfl)
    exact ⟨iK, (Worker.index_exec_some hi).trans (mem_memsetWrites hb).symm⟩
  | noFirst | writeFirst | start | goOn | leave | noBuffer | buffer | write | returnBuffer | integrity | ready |
    noNext | returnEmptyBuffer | closingIntegrity | closed => cases hb

/-- The worker waits for a slot only behind an instruction that hands a block over. -/
theorem swapping_handsOver {data : Nat → Nat → UInt8} {s : FilePool.State}
    (hr : Lts.Run (FilePool.Step cfg u) (FilePool.init fileBuff data dataLen) tr s) (w : Worker) (i : Instr)
    (rest : List Instr) (hpos : s.producer = .swapping w i rest) : w.handsOver i ≠ none := by
  obtain ⟨holder, hk⟩ := kept hr
  have hworks := hk.producer
  rw [hpos] at hworks
  obtain ⟨iK, -, hi, -⟩ := hworks
  simp [hi]

/-- What is still to be written is written to buffers of the worker, and the run is one of the file pool. -/
structure Below (cfg : Config) (u : Uninit) (fileBuff : FileBuff) (dataLen : Nat → Nat)
    (tr : List (Label UdpBuffer)) (s : State) : Prop where
  mine : ∀ b ∈ s.producer.pending, Mine s.producer.pos b
  run : Lts.Run (FilePool.Step cfg u) (FilePool.init fileBuff u.data dataLen) tr (filePool s)

theorem Below.step (h : Below cfg u fileBuff dataLen tr s) (hs : Step cfg u s l s') :
    Below cfg u fileBuff dataLen (tr ++ [l]) s' := by
  obtain ⟨p, k, ⟨pos, pending⟩, c⟩ := s
  cases hs with
  | interrupt => exact ⟨h.mine, h.run.next .interrupt⟩
  | consumer ht hp => exact ⟨h.mine, h.run.next (.consumer ht hp)⟩
  | producer ht hp =>
    cases ht with
    | @write _ _ b =>
      refine ⟨fun b' hb' => h.mine b' (List.mem_cons_of_mem _ hb'), h.run.next (.producer ?_ hp)⟩
      have hmine := h.mine b List.mem_cons_self
      cases pos with
      | fetching slots => exact .writeFirst hmine
      | running w rest =>
        obtain ⟨iK, hiK⟩ := hmine
        show FilePool.WorkerTurn cfg u k (.running w rest) (.call (.write .producer b.index b.x b.v)) k
          (.running w rest)
        rw [← hiK]
        exact .write
      | noSlot | waiting | returning | swapping | closing | returned => cases hmine
    | turn ht hw => exact ⟨fun b hb => mine_of_turn ht (swapping_handsOver h.run) hb, h.run.next (.producer ht hp)⟩

/-- A run with the bytes is one of the file pool, where they are left open. -/
theorem below (hr : Lts.Run (Step cfg u) (init u fileBuff dataLen) tr s) : Below cfg u fileBuff dataLen tr s :=
  hr.invariant (I := Below cfg u fileBuff dataLen) ⟨fun b hb => (by cases hb), .start⟩ fun _ _ _ _ _ ih hs =>
    ih.step hs

/-! ### Buffers -/

/-- The buffers as the worker computes them, by where it stands. -/
def contents (cfg : Config) (u : Uninit) : WorkerAt → Option (Nat → Nat → UInt8)
  | .fetching slots => some (slots.foldl (fun data index => store data (memsetWrites cfg index)) u.data)
  | .running w _ => some w.data
  | .waiting w => some w.data
  | .returning w _ _ => some w.data
  | .swapping w _ _ => some w.data
  | .closing w _ => some w.data
  | .noSlot => none
  | .returned => none

theorem start_data {slots : List Nat} (h : slots.length = nFileBuffersAtATime) :
    (Worker.start cfg (firstSlots slots) u).data =
      slots.foldl (fun data index => store data (memsetWrites cfg index)) u.data := by
  have hslots : slots = (List.finRange 6).map fun iK : Fin 6 => firstSlots slots (iK + 1) := by
    refine List.ext_getElem (by simpa [nFileBuffersAtATime] using h) fun k hk hk' => ?_
    simp [firstSlots, hk]
  conv_rhs => rw [hslots, List.foldl_map]
  simp only [Worker.start, memsetWrites, Memory.store_fillWrites]

/-- A turn of the worker changes what the buffers are to hold by what it then has to write. -/
theorem contents_turn (h : FilePool.WorkerTurn cfg u k pos l k' pos') (hw : l.isWrite = false)
    (hswap : ∀ w i rest, pos = .swapping w i rest → w.handsOver i ≠ none) {m' : Nat → Nat → UInt8}
    (hm' : contents cfg u pos' = some m') :
    ∃ m, contents cfg u pos = some m ∧ m' = store m (writesAfter cfg pos l) := by
  cases h with
  | fetchFirst =>
    cases hm'
    exact ⟨_, rfl, by rw [List.foldl_append]; rfl⟩
  | start all =>
    cases hm'
    exact ⟨_, rfl, start_data all⟩
  | @instr _ w i rest hi slots =>
    cases hm'
    exact ⟨_, rfl, Worker.exec_data_none hi⟩
  | @fetchNext _ w i rest index =>
    cases hm'
    obtain ⟨iK, hi⟩ := Option.ne_none_iff_exists'.mp (hswap w i rest rfl)
    exact ⟨_, rfl, Worker.exec_data_some hi⟩
  | writeFirst | write => cases hw
  | noFirst | closed => cases hm'
  | goOn | leave | noBuffer | buffer | returnBuffer | integrity | ready | noNext | returnEmptyBuffer |
    closingIntegrity =>
    cases hm'
    exact ⟨_, rfl, rfl⟩

/-- Once the bytes under way are written, the buffers are as the worker computes them. -/
def Written (cfg : Config) (u : Uninit) (s : State) : Prop :=
  ∀ m, contents cfg u s.producer.pos = some m → store s.pool.buff.data s.producer.pending = m

theorem WriterTurn.isWrite {c c' : WriterAt} (h : WriterTurn k c l k' c') : l.isWrite = false := by cases h <;> rfl

theorem Written.step (hb : Below cfg u fileBuff dataLen tr s) (h : Written cfg u s) (hs : Step cfg u s l s') :
    Written cfg u s' := by
  obtain ⟨p, k, ⟨pos, pending⟩, c⟩ := s
  intro m hm
  cases hs with
  | interrupt => exact h m hm
  | consumer ht hp =>
    rw [← h m hm]
    exact congrArg (store · pending) (onPool_data hp (WriterTurn.isWrite ht))
  | producer ht hp =>
    cases ht with
    | write =>
      rw [← h m hm]
      cases hp
      rfl
    | turn ht hw =>
      obtain ⟨m₀, hm₀, rfl⟩ := contents_turn ht hw (swapping_handsOver hb.run) hm
      have hdata : p.buff.data = m₀ := h m₀ hm₀
      rw [onPool_data hp hw, hdata]

theorem written (hr : Lts.Run (Step cfg u) (init u fileBuff dataLen) tr s) : Written cfg u s := by
  refine hr.invariant (I := fun _ s => Written cfg u s) ?_ fun _ _ _ _ hr ih hs => ih.step (below hr) hs
  rintro m ⟨⟩
  rfl

/-! ### The files -/

/-- The bytes of a block, cell by cell: the payload of the last of the packets that belong there, zeros where there
    is none. -/
structure CellsOf (cfg : Config) (antNumbers : List Nat) (packetNo : Nat) (packets : List Packet) (bytes : List UInt8) :
    Prop where
  length : bytes.length = cfg.dataLenOut
  cells : ∀ r a c, r < timeIntPerBuffer → a < cfg.nAnts → c < cfg.nchans → ∀ j : Fin rxDataLen,
    bytes[((r * cfg.nAnts + a) * cfg.nchans + c) * rxDataLen + j]? =
      some (cellByte cfg antNumbers packetNo packets r a c j)

theorem cellsOf_of_exact {antNumbers : List Nat} {packetNo : Nat} {packets : List Packet} {d : Nat → UInt8}
    (h : Exact cfg antNumbers packetNo packets d) :
    CellsOf cfg antNumbers packetNo packets (Memory.slice d 0 cfg.dataLenOut) where
  length := Memory.length_slice
  cells r a c hr ha hc j := by
    have hlt : ((r * cfg.nAnts + a) * cfg.nchans + c) * rxDataLen + j < cfg.dataLenOut := by
      rw [cfg.dataLenOut_eq]
      exact Radix.lt_mul (cfg.cell_lt hr ha hc) j.isLt
    rw [Memory.getElem?_slice hlt, Nat.zero_add]
    exact congrArg some (h r a c hr ha hc j)

/-- The antenna table that the worker sets up from its first packets. -/
def antNumbersOf (cfg : Config) (first : List Packet) : List Nat :=
  registerAntennas cfg (List.replicate maxNoAnts noAntenna) first

/-- A block in a file: the worker has handed it over, and it holds what the worker fetched while it was local. -/
def Recorded (cfg : Config) (tr : List (Label UdpBuffer)) (bl : Block) : Prop :=
  ∃ pre index n d post first, tr = pre ++ .call (.returnBufferData .producer index bl.order n d) :: post ∧
    firstBatch (inputs tr) = some first ∧
    CellsOf cfg (antNumbersOf cfg first) (blockNo (pktStart first) bl.order)
      ((buffersSince bl.order pre).flatMap UdpBuffer.packets) bl.bytes

/-- Where the worker hands a block over, its buffer is complete. -/
theorem handed_complete {index n : Nat} {order : Int} {d : Nat → UInt8}
    (hr : Lts.Run (Step cfg u) (init u fileBuff dataLen) tr s)
    (hs : Step cfg u s (.call (.returnBufferData .producer index order n d)) s') :
    ∃ w i rest iK, w.handsOver i = some iK ∧ Progress cfg u tr w (i :: rest) ∧ Answered w.log ∧
      order = (w.localStruct iK).order ∧ n = cfg.dataLenOut ∧ d = w.data (w.localStruct iK).index := by
  have hwritten := written hr
  have hbelow := (below hr).run
  have hprocesses := processes hbelow
  obtain ⟨p, k, ⟨pos, pending⟩, c⟩ := s
  cases hs with
  | consumer ht => cases ht
  | producer ht hp =>
    cases ht with
    | turn ht =>
      cases ht with
      | @returnBuffer _ w i rest iK _ hi =>
        obtain ⟨-, -, -, hans⟩ := blocks_answered hbelow (w := w) rfl
        have hdata : p.buff.data = w.data := hwritten w.data rfl
        refine ⟨w, i, rest, iK, hi, hprocesses, hans, rfl, rfl, ?_⟩
        rw [← hdata]
        cases hp
        rfl

theorem slotsGiven_le (tr : List (Label UdpBuffer)) (l : Label UdpBuffer) : slotsGiven tr ≤ slotsGiven (tr ++ [l]) := by
  cases hl : l.isIdle with
  | true => rw [slotsGiven, slotsGiven, tally_idle hl]
  | false =>
    cases l with
    | input b => simp
    | call a =>
      cases a with
      | fetchEmptyBuffer t =>
        cases t with
        | producer => simp
        | consumer => cases hl
      | _ => cases hl
    | silent | interrupt => cases hl

theorem slotsGiven_mono (pre post : List (Label UdpBuffer)) : slotsGiven pre ≤ slotsGiven (pre ++ post) := by
  induction post using List.reverseRecOn with
  | nil => rw [List.append_nil]
  | append_singleton post l ih =>
    rw [← List.append_assoc]
    exact ih.trans (slotsGiven_le _ l)

theorem firstBatch_append {bufs : List UdpBuffer} {first : List Packet} (h : firstBatch bufs = some first)
    (bufs' : List UdpBuffer) : firstBatch (bufs ++ bufs') = some first := by
  rw [firstBatch, List.map_append, List.find?_append, ← firstBatch, h]
  rfl

/-- The block that the worker hands over has its number and the packets that it fetched meanwhile. -/
theorem handed_exact {w : Worker} {iK : Fin 6} (h : Progress cfg u tr w (i :: rest)) (hans : Answered w.log)
    (hi : w.handsOver i = some iK) (hfew : slotsGiven tr < 2 ^ 31) :
    ∃ first, firstBatch (inputs tr) = some first ∧
      Exact cfg (antNumbersOf cfg first) (blockNo (pktStart first) (w.localStruct iK).order)
        ((buffersSince (w.localStruct iK).order tr).flatMap UdpBuffer.packets)
        (w.data (w.localStruct iK).index) := by
  obtain ⟨slots, is, hprog, hw⟩ := h.program
  have hflush := isFlush_of_handsOver hi
  have hr : Reached cfg slots u (inputs tr) w := ⟨is, ⟨i :: rest, hprog⟩, hw⟩
  have hgiven := h.given
  have halloc := hr.assembling.allocated
  have hexact := (hr.assembling.assembled ⟨hans.fresh, by omega⟩).exact iK
  have hsince := h.since (w.localStruct iK).order
  obtain ⟨packets, hs⟩ := h.iteration
  have hnone : i.packet? = none := by
    cases i with
    | packet => cases hflush
    | scan | startFlush | full | checkStarted | earlier => rfl
  rw [List.filterMap_cons, hnone, packets_of_flush hs hflush, List.append_nil] at hsince
  rcases program_cases (inputs tr) with ⟨-, hnil⟩ | ⟨first, js, hb, -, hscan⟩
  · rw [hnil] at hprog
    simp at hprog
  · have hne : is ≠ [] := by
      rintro rfl
      rw [hscan, List.nil_append] at hprog
      rw [(List.cons_eq_cons.mp hprog).1] at hflush
      cases hflush
    obtain ⟨hdone, hstart, hants⟩ := workerAfter_first cfg slots u hb ⟨i :: rest, hprog⟩ hne
    rw [← hw] at hdone hstart hants
    refine ⟨first, hb, ?_⟩
    rw [hsince, antNumbersOf, ← hants, ← hstart, ← (hr.numbered hdone).packetNo]
    exact hexact

/-! ### A run -/

section Run
variable {p : Pool Side} {c : WriterAt} {m : Nat → Nat → UInt8}

/-- The worker gets through with what it has to write. -/
theorem run_writes (pending : List ByteWrite)
    (hr : Lts.Run (Step cfg u) (init u fileBuff dataLen) tr ⟨p, k, ⟨pos, pending⟩, c⟩) (hidle : p.Idle .producer) :
    ∃ tr', Lts.Run (Step cfg u) (init u fileBuff dataLen) (tr ++ tr')
      ⟨{ p with buff := { p.buff with data := store p.buff.data pending } }, k, ⟨pos, []⟩, c⟩ := by
  induction pending generalizing tr p with
  | nil => exact ⟨[], by simpa using hr⟩
  | cons b pending ih =>
    obtain ⟨tr', hr'⟩ := ih (hr.next (.producer .write (.write hidle))) hidle
    rw [List.append_assoc] at hr'
    exact ⟨_, hr'⟩

theorem run_slots {n : Nat} (hn : n ≤ nFileBuffersAtATime) :
    ∃ tr m, Lts.Run (Step cfg u) (init u fileBuff dataLen) tr
      ⟨.fetched nFileBuffers m dataLen n, true, ⟨.fetching (List.range n), []⟩, .test (.start fileBuff)⟩ := by
  induction n with
  | zero => exact ⟨[], u.data, .start⟩
  | succ n ih =>
    obtain ⟨tr, m, hr⟩ := ih (by omega)
    have hlt : n < nFileBuffers := Nat.lt_of_lt_of_le hn (by decide)
    have hmore : (List.range n).length < nFileBuffersAtATime := by rwa [List.length_range]
    have hr₁ := hr.next (.producer (.turn (.fetchFirst hmore) rfl) (Pool.fetched_succ hlt m dataLen Side.producer))
    rw [← List.range_succ] at hr₁
    obtain ⟨tr', hr'⟩ := run_writes _ hr₁ (Pool.fetched_idle ..)
    exact ⟨_, _, hr'⟩

/-- The worker goes through instructions that hand no block over. -/
theorem run_instrs (is rest : List Instr) {n : Nat}
    (hr : Lts.Run (Step cfg u) (init u fileBuff dataLen) tr
      ⟨.fetched nFileBuffers m dataLen n, k, ⟨.running w (is ++ rest), []⟩, c⟩) (hq : quiet cfg w is = true) :
    ∃ tr' m', Lts.Run (Step cfg u) (init u fileBuff dataLen) (tr ++ tr')
      ⟨.fetched nFileBuffers m' dataLen n, k, ⟨.running (is.foldl (Worker.exec cfg fun _ => 0) w) rest, []⟩, c⟩ := by
  induction is generalizing tr w m with
  | nil => exact ⟨[], m, by simpa using hr⟩
  | cons i is ih =>
    obtain ⟨hi, hq⟩ := (Bool.and_eq_true _ _).mp hq
    obtain ⟨tr₁, hr₁⟩ := run_writes _
      (hr.next (.producer (.turn (.instr (Option.isNone_iff_eq_none.mp hi) fun _ => 0) rfl) rfl))
      (Pool.fetched_idle ..)
    obtain ⟨tr₂, m₂, hr₂⟩ := ih hr₁ hq
    exact ⟨_ :: (tr₁ ++ tr₂), m₂, by simpa using hr₂⟩

end Run

/-- A stale reference makes the worker hand block 1 over with packet 0 in it, and the file writer writes it. -/
theorem run_firstBlock : ∃ tr s,
    Lts.Run (Step singleChannel staleReference) (init staleReference oneAnt fun _ => 0) tr s ∧
      slotsGiven tr < 2 ^ 31 ∧ s.consumer.fileWriter.orders = [1] := by
  obtain ⟨tr₀, m₀, hr₀⟩ : ∃ tr m, Lts.Run (Step singleChannel staleReference) (init staleReference oneAnt fun _ => 0) tr
      ⟨_, true, ⟨.fetching _, []⟩, .test (.start oneAnt)⟩ := run_slots (Nat.le_refl _)
  have hr₁ := (hr₀.next (.producer (.turn (.start List.length_range) rfl) rfl)).next
    (.producer (.turn .goOn rfl) rfl)
  have hr₂ := hr₁.next (.producer (.turn (.buffer (b := firstPacket)) rfl) rfl)
  rw [packets_firstPacket] at hr₂
  obtain ⟨tr₃, m₃, hr₃⟩ := run_instrs (takeIn [.numbered 0] ++ sendFull)
    (.earlier 0 :: [1, 2, 3, 4, 5].map .earlier) hr₂ (by decide +kernel)
  generalize hw : (takeIn [.numbered 0] ++ sendFull).foldl (Worker.exec singleChannel fun _ => 0) _ = w at hr₃
  have hover : w.handsOver (.earlier 0) = some 0 := by subst hw; decide +kernel
  have hblock : (w.localStruct 0).index = 0 ∧ (w.localStruct 0).order = 1 ∧ w.nextOrder = 7 := by
    subst hw; decide +kernel
  obtain ⟨hindex, horder, hnext⟩ := hblock
  have hret : (Pool.fetched nFileBuffers m₃ (fun _ => 0) 6 : Pool Side).buff.returnBufferData (w.localStruct 0).index
      (w.localStruct 0).order singleChannel.dataLenOut =
      some ⟨m₃, Function.update (fun _ => 0) 0 singleChannel.dataLenOut,
        1 :: List.replicate 5 (-1) ++ List.replicate 14 0,
        0⟩ := by
    rw [hindex, horder]
    rfl
  have hr₄ := (hr₃.next (.producer (.turn (.returnBuffer hover) rfl)
    (.returnBufferData (Pool.fetched_idle ..) rfl hret))).next (.producer (.turn .ready rfl) (.returnBufferReady rfl))
  have hr₅ := (hr₄.next (.consumer .goOn rfl)).next (.consumer .fetchBufferWait (.fetchBufferWait ⟨nofun, nofun⟩ rfl))
  have hr₆ := hr₅.next (.consumer (.fetchBufferTake ⟨0, 1, singleChannel.dataLenOut, m₃ 0, Nat.one_pos⟩)
    (.fetchBufferTake (Finset.mem_insert_self ..) rfl rfl))
  have hr₇ := hr₆.next (.consumer (.returnEmptyBuffer rfl (.inl rfl)) (.returnEmptyBuffer ⟨nofun, ?_⟩ rfl rfl))
  · refine ⟨_, _, hr₇, ?_, rfl⟩
    have hgiven := (processes (below hr₇).run).2.given
    omega
  · simp

end Recording

namespace FilePool

variable {fileBuff : FileBuff} {data : Nat → Nat → UInt8} {dataLen : Nat → Nat} {tr : List (Label UdpBuffer)}
  {s : State}

/-- In every interleaving the files hold blocks that the worker has handed over, each once, in the order of their
    numbers and with the bytes that its buffer had then. -/
theorem recorded_unchanged (hr : Lts.Run (Step cfg u) (init fileBuff data dataLen) tr s) :
    s.consumer.fileWriter.orders.Pairwise (· < ·) ∧
      ∀ bl ∈ s.consumer.fileWriter.blocks, ∃ index n d,
        .call (.returnBufferData .producer index bl.order n d) ∈ tr ∧ bl.bytes = Memory.slice d 0 n := by
  refine ⟨(sequenced hr).sorted, fun bl hbl => ?_⟩
  obtain ⟨n, d, ⟨index, hmem⟩, heq⟩ := (faithful hr).files bl hbl
  exact ⟨index, n, d, hmem, heq⟩

theorem recorded_unchanged_firstBlock : ∃ (tr : List (Label UdpBuffer)) (s : State),
    s.consumer.fileWriter.orders = [1] ∧ s.consumer.fileWriter.orders.Pairwise (· < ·) ∧
      ∀ bl ∈ s.consumer.fileWriter.blocks, ∃ index n d,
        .call (.returnBufferData .producer index bl.order n d) ∈ tr ∧ bl.bytes = Memory.slice d 0 n := by
  obtain ⟨tr, s, hr, -, horders⟩ := Recording.run_firstBlock
  exact ⟨tr, Recording.filePool s, horders, recorded_unchanged (Recording.below hr).run⟩

end FilePool

namespace Recording
open FilePool

variable {fileBuff : FileBuff} {dataLen : Nat → Nat} {tr : List (Label UdpBuffer)} {s : State}

/-- Every block in a file is exact, whatever the order in which the threads take their steps and write their bytes,
    as long as the worker is given fewer than 2^31 slots. -/
theorem recorded_exact (hr : Lts.Run (Step cfg u) (init u fileBuff dataLen) tr s) (hfew : slotsGiven tr < 2 ^ 31) :
    ∀ bl ∈ s.consumer.fileWriter.blocks, Recorded cfg tr bl := by
  intro bl hbl
  obtain ⟨n, d, ⟨index, hmem⟩, hbytes⟩ := (faithful (below hr).run).files bl hbl
  obtain ⟨pre, post, rfl⟩ := List.append_of_mem hmem
  obtain ⟨s₁, s₂, hr₁, hs⟩ := hr.split
  obtain ⟨w, i, rest, iK, hi, hprogress, hans, horder, rfl, rfl⟩ := handed_complete hr₁ hs
  have horder' : bl.order = (w.localStruct iK).order := Int.ofNat_inj.mp horder
  obtain ⟨first, hfirst, hexact⟩ :=
    handed_exact hprogress hans hi (Nat.lt_of_le_of_lt (slotsGiven_mono pre _) hfew)
  refine ⟨pre, index, _, _, post, first, rfl, ?_, ?_⟩
  · rw [inputs, List.filterMap_append]
    exact firstBatch_append hfirst _
  · rw [hbytes, horder']
    exact cellsOf_of_exact hexact

theorem recorded_exact_firstBlock : ∃ (tr : List (Label UdpBuffer)) (s : State),
    s.consumer.fileWriter.orders = [1] ∧ ∀ bl ∈ s.consumer.fileWriter.blocks, Recorded singleChannel tr bl := by
  obtain ⟨tr, s, hr, hfew, horders⟩ := run_firstBlock
  exact ⟨tr, s, horders, recorded_exact hr hfew⟩

end Recording
end VoltRec
