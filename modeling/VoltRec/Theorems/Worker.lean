import VoltRec.ProcessingThread
import VoltRec.Lib.Transition

/-! What one instruction of the worker can do, and the induction over its runs. -/

namespace VoltRec

variable {cfg : Config} {slots : Nat → Nat} {u : Uninit} {w : Worker} {bufs : List UdpBuffer}

namespace Worker

/-! ### The packet loop -/

/-- A packet is only logged, or it is accepted and matches a local block, whose cell and count it updates. -/
theorem packetStep_cases (cfg : Config) (w : Worker) (p : Packet) :
    ((∀ a c, cfg.accepts w.antNumbers p.header = some (a, c) →
        findStructIndex w.localStruct (getPacketFilter (getPcktNo p.header)) = none) ∧
      w.packetStep cfg p = { w with log := w.log ++ [.packet p] }) ∨
    ∃ a c s, cfg.accepts w.antNumbers p.header = some (a, c) ∧
      findStructIndex w.localStruct (getPacketFilter (getPcktNo p.header)) = some s ∧
      w.packetStep cfg p =
        { w with
          data := Function.update w.data (w.localStruct s).index
            (Memory.copy (w.data (w.localStruct s).index)
              (cfg.offset (getPacketRest (getPcktNo p.header)) a c) p.payload)
          localStruct := Function.update w.localStruct s
            { w.localStruct s with nToFull := (w.localStruct s).nToFull - 1 }
          log := w.log ++ [.packet p] } := by
  cases ha : cfg.accepts w.antNumbers p.header with
  | none => exact Or.inl ⟨fun _ _ h => by simp at h, by simp [packetStep, ha]⟩
  | some ac =>
    obtain ⟨a, c⟩ := ac
    cases hs : findStructIndex w.localStruct (getPacketFilter (getPcktNo p.header)) with
    | none => exact Or.inl ⟨fun _ _ _ => rfl, by simp [packetStep, ha, hs]⟩
    | some s => exact Or.inr ⟨a, c, s, rfl, rfl, by simp [packetStep, ha, hs]⟩

theorem packetStep_localStruct (cfg : Config) (w : Worker) (p : Packet) (iK : Fin 6) :
    ∃ n, (w.packetStep cfg p).localStruct iK = { w.localStruct iK with nToFull := n } := by
  rcases packetStep_cases cfg w p with ⟨-, h⟩ | ⟨a, c, s, -, -, h⟩ <;> rw [h]
  · exact ⟨_, rfl⟩
  · by_cases hs : iK = s
    · subst hs
      exact ⟨_, Function.update_self ..⟩
    · exact ⟨_, Function.update_of_ne hs ..⟩

@[simp] theorem packetStep_order (cfg : Config) (w : Worker) (p : Packet) (iK : Fin 6) :
    ((w.packetStep cfg p).localStruct iK).order = (w.localStruct iK).order := by
  obtain ⟨n, h⟩ := packetStep_localStruct cfg w p iK
  rw [h]

@[simp] theorem packetStep_packetNo (cfg : Config) (w : Worker) (p : Packet) (iK : Fin 6) :
    ((w.packetStep cfg p).localStruct iK).packetNo = (w.localStruct iK).packetNo := by
  obtain ⟨n, h⟩ := packetStep_localStruct cfg w p iK
  rw [h]

@[simp] theorem packetStep_index (cfg : Config) (w : Worker) (p : Packet) (iK : Fin 6) :
    ((w.packetStep cfg p).localStruct iK).index = (w.localStruct iK).index := by
  obtain ⟨n, h⟩ := packetStep_localStruct cfg w p iK
  rw [h]

/-- What the packet loop leaves alone. -/
theorem packetStep_frame (cfg : Config) (w : Worker) (p : Packet) :
    (w.packetStep cfg p).nextOrder = w.nextOrder ∧ (w.packetStep cfg p).packetStart = w.packetStart ∧
      (w.packetStep cfg p).nextStructPacketNo = w.nextStructPacketNo ∧
      (w.packetStep cfg p).lastSentPacketNo = w.lastSentPacketNo ∧
      (w.packetStep cfg p).antNumbers = w.antNumbers ∧
      (w.packetStep cfg p).firstLoopDone = w.firstLoopDone ∧
      (w.packetStep cfg p).log = w.log ++ [.packet p] := by
  rcases packetStep_cases cfg w p with ⟨-, h⟩ | ⟨a, c, s, -, -, h⟩ <;> rw [h] <;> simp

/-! ### Handing a block over -/

section HandOver
variable (cfg slots w) (iK jK : Fin 6) (e : Handed → Event)

/-- The local block `iK` as `returnBuffer` passes it on. -/
def handed : Handed where
  packetNo := (w.localStruct iK).packetNo
  index := (w.localStruct iK).index
  order := (w.localStruct iK).order
  nToFull := (w.localStruct iK).nToFull
  dataLen := cfg.dataLenOut
  data := w.data (w.localStruct iK).index

/-- The block that takes the place of one handed over. -/
def fresh : WorkLocalStruct where
  packetNo := w.nextStructPacketNo
  index := slots w.nextOrder
  order := w.nextOrder
  nToFull := cfg.packetsPerBlock

@[simp] theorem handOver_localStruct :
    (w.handOver cfg slots iK e).localStruct = Function.update w.localStruct iK (w.fresh cfg slots) := rfl
@[simp] theorem handOver_nextOrder : (w.handOver cfg slots iK e).nextOrder = w.nextOrder + 1 := rfl
@[simp] theorem handOver_nextStructPacketNo :
    (w.handOver cfg slots iK e).nextStructPacketNo = (w.nextStructPacketNo + timeIntPerBuffer) % 2 ^ 38 :=
  and_pcktNoMask _
@[simp] theorem handOver_packetStart : (w.handOver cfg slots iK e).packetStart = w.packetStart := rfl
@[simp] theorem handOver_antNumbers : (w.handOver cfg slots iK e).antNumbers = w.antNumbers := rfl
@[simp] theorem handOver_lastSentPacketNo :
    (w.handOver cfg slots iK e).lastSentPacketNo = w.lastSentPacketNo := rfl
@[simp] theorem handOver_nStarted : (w.handOver cfg slots iK e).nStarted = w.nStarted := rfl
@[simp] theorem handOver_firstLoopDone : (w.handOver cfg slots iK e).firstLoopDone = w.firstLoopDone := rfl
@[simp] theorem handOver_data :
    (w.handOver cfg slots iK e).data = Function.update w.data (slots w.nextOrder)
      (Memory.fill (w.data (slots w.nextOrder)) 0 cfg.dataLenOut 0) := rfl
@[simp] theorem handOver_log :
    (w.handOver cfg slots iK e).log =
      w.log ++ [e (w.handed cfg iK), .alloc w.nextOrder (slots w.nextOrder)] := rfl

end HandOver

theorem fullStep_cases (cfg : Config) (slots : Nat → Nat) (w : Worker) (iK : Fin 6) :
    ((w.localStruct iK).nToFull = 0 ∧ w.fullStep cfg slots iK =
      { w with lastSentPacketNo := (w.localStruct iK).packetNo }.handOver cfg slots iK .full) ∨
    ((w.localStruct iK).nToFull ≠ 0 ∧ w.fullStep cfg slots iK =
      { w with nStarted := w.nStarted + if (w.localStruct iK).nToFull < cfg.packetsPerBlock then 1 else 0 }) := by
  unfold fullStep
  split
  · rename_i h
    exact Or.inl ⟨h, rfl⟩
  · rename_i h
    refine Or.inr ⟨h, ?_⟩
    split <;> rfl

theorem earlierStep_cases (cfg : Config) (slots : Nat → Nat) (w : Worker) (iK : Fin 6) :
    (isEarlier w.lastSentPacketNo (w.localStruct iK).packetNo = true ∧ ∃ n, w.earlierStep cfg slots iK =
      { w with noMissing := n }.handOver cfg slots iK .early) ∨
    (isEarlier w.lastSentPacketNo (w.localStruct iK).packetNo = false ∧ w.earlierStep cfg slots iK = w) := by
  unfold earlierStep
  cases h : isEarlier w.lastSentPacketNo (w.localStruct iK).packetNo
  · exact Or.inr ⟨rfl, rfl⟩
  · exact Or.inl ⟨rfl, _, rfl⟩

theorem checkStarted_cases (w : Worker) :
    (nFileBuffersAtATime - 2 < w.nStarted ∧ w.checkStarted =
      { w with
        lastSentPacketNo := ((w.nextStructPacketNo + (2 ^ 64 - 384)) % 2 ^ 38 : Nat)
        log := w.log ++ [.mostlyStarted w.nextOrder] }) ∨
    (w.nStarted ≤ nFileBuffersAtATime - 2 ∧ w.checkStarted = w) := by
  unfold checkStarted
  split
  · rename_i h
    refine Or.inl ⟨h, ?_⟩
    rw [and_pcktNoMask]
    have : timeIntPerBuffer * nFileBuffersAtATime / 2 = 384 := rfl
    rw [this, Nat.mod_mod_of_dvd _ (by decide : (2 ^ 38 : Nat) ∣ 2 ^ 64)]
  · rename_i h
    exact Or.inr ⟨Nat.le_of_not_lt h, rfl⟩

end Worker

/-- The order of the block that an event hands over. -/
def Event.handedOrder : Event → Option Nat
  | .full b => some b.order
  | .early b => some b.order
  | _ => none

/-- The orders of the blocks handed over so far. -/
def handedOrders (log : List Event) : List Nat := log.filterMap Event.handedOrder

namespace Worker

/-! ### Runs -/

/-- The same blocks in the same places; counts, contents, reference and log may differ. -/
structure SameBlocks (w w' : Worker) : Prop where
  packetNo : ∀ iK, (w'.localStruct iK).packetNo = (w.localStruct iK).packetNo
  order : ∀ iK, (w'.localStruct iK).order = (w.localStruct iK).order
  nextOrder : w'.nextOrder = w.nextOrder
  nextStructPacketNo : w'.nextStructPacketNo = w.nextStructPacketNo
  packetStart : w'.packetStart = w.packetStart
  firstLoopDone : w'.firstLoopDone = w.firstLoopDone
  handed : handedOrders w'.log = handedOrders w.log

theorem sameBlocks_packetStep (cfg : Config) (w : Worker) (p : Packet) : SameBlocks w (w.packetStep cfg p) := by
  obtain ⟨h1, h2, h3, -, -, h4, h5⟩ := packetStep_frame cfg w p
  exact ⟨packetStep_packetNo cfg w p, packetStep_order cfg w p, h1, h3, h2, h4,
    by simp [h5, handedOrders, Event.handedOrder]⟩

theorem sameBlocks_checkStarted (w : Worker) : SameBlocks w w.checkStarted := by
  rcases checkStarted_cases w with ⟨-, h⟩ | ⟨-, h⟩ <;> rw [h]
  · exact ⟨fun _ => rfl, fun _ => rfl, rfl, rfl, rfl, rfl, by simp [handedOrders, Event.handedOrder]⟩
  · exact ⟨fun _ => rfl, fun _ => rfl, rfl, rfl, rfl, rfl, rfl⟩

variable (cfg slots) in
theorem exec_firstLoopDone (h : w.firstLoopDone = true) (i : Instr) :
    (w.exec cfg slots i).firstLoopDone = true ∧ (w.exec cfg slots i).packetStart = w.packetStart ∧
      (w.exec cfg slots i).antNumbers = w.antNumbers := by
  cases i with
  | scan packets => simp [exec, firstScan, h]
  | packet p =>
    obtain ⟨-, h1, -, -, h2, h3, -⟩ := packetStep_frame cfg w p
    exact ⟨h3.trans h, h1, h2⟩
  | startFlush => exact ⟨h, rfl, rfl⟩
  | full iK =>
    simp only [exec, fullStep]
    split
    · exact ⟨h, rfl, rfl⟩
    · split <;> exact ⟨h, rfl, rfl⟩
  | checkStarted =>
    simp only [exec, checkStarted]
    split <;> exact ⟨h, rfl, rfl⟩
  | earlier iK =>
    simp only [exec, earlierStep]
    split <;> exact ⟨h, rfl, rfl⟩

theorem firstScan_firstLoopDone (cfg : Config) (w : Worker) (packets : List Packet) :
    (w.firstScan cfg packets).firstLoopDone = true := by
  unfold firstScan
  split
  · assumption
  · rfl

variable (cfg slots) in
/-- The first scan is the last. -/
theorem foldl_firstLoopDone (h : w.firstLoopDone = true) (is : List Instr) :
    (is.foldl (exec cfg slots) w).firstLoopDone = true ∧
      (is.foldl (exec cfg slots) w).packetStart = w.packetStart ∧
      (is.foldl (exec cfg slots) w).antNumbers = w.antNumbers := by
  induction is generalizing w with
  | nil => exact ⟨h, rfl, rfl⟩
  | cons i is ih =>
    obtain ⟨h1, h2, h3⟩ := exec_firstLoopDone cfg slots h i
    obtain ⟨ih1, ih2, ih3⟩ := ih h1
    exact ⟨ih1, ih2.trans h2, ih3.trans h3⟩

end Worker

/-- The packets of the first buffer that holds a packet. -/
def firstBatch (bufs : List UdpBuffer) : Option (List Packet) :=
  (bufs.map UdpBuffer.packets).find? (· ≠ [])

theorem program_cases (bufs : List UdpBuffer) :
    (firstBatch bufs = none ∧ program bufs = []) ∨
    ∃ packets is, firstBatch bufs = some packets ∧ packets ≠ [] ∧ program bufs = .scan packets :: is := by
  induction bufs with
  | nil => exact Or.inl ⟨rfl, rfl⟩
  | cons b bufs ih =>
    by_cases hb : b.packets = []
    · have hfirst : firstBatch (b :: bufs) = firstBatch bufs := by simp [firstBatch, hb]
      have hprog : program (b :: bufs) = program bufs := by simp [program, iteration, hb]
      rwa [hfirst, hprog]
    · exact Or.inr ⟨b.packets, _, by simp [firstBatch, hb], hb, by simp [program, iteration, takeIn, hb]; rfl⟩

theorem scan_mem_program {packets : List Packet} (h : Instr.scan packets ∈ program bufs) : packets ≠ [] := by
  simp only [program, List.mem_flatMap] at h
  obtain ⟨b, -, hb⟩ := h
  by_cases hnil : b.packets = []
  · simp [iteration, hnil] at hb
  · simp only [iteration, hnil, if_false, takeIn, sendFull, sendEarlier, List.cons_append, List.mem_cons,
      List.mem_append, List.mem_map, Instr.scan.injEq, reduceCtorEq, and_false, exists_false, or_false,
      List.not_mem_nil] at hb
    exact hb ▸ hnil

theorem workerAfter_append (is js : List Instr) :
    workerAfter cfg slots u (is ++ js) = js.foldl (Worker.exec cfg slots) (workerAfter cfg slots u is) :=
  List.foldl_append

theorem workerAfter_snoc (is : List Instr) (i : Instr) :
    workerAfter cfg slots u (is ++ [i]) = (workerAfter cfg slots u is).exec cfg slots i := by
  rw [workerAfter_append, List.foldl_cons, List.foldl_nil]

variable (cfg slots u) in
/-- After its first instruction the thread keeps the start and the antenna table of the first buffer. -/
theorem workerAfter_first {packets : List Packet} (hb : firstBatch bufs = some packets) {is : List Instr}
    (hp : is <+: program bufs) (hne : is ≠ []) :
    (workerAfter cfg slots u is).firstLoopDone = true ∧ (workerAfter cfg slots u is).packetStart = pktStart packets ∧
      (workerAfter cfg slots u is).antNumbers =
        registerAntennas cfg (List.replicate maxNoAnts noAntenna) packets := by
  rcases program_cases bufs with ⟨h, -⟩ | ⟨packets', js, h, -, hprog⟩
  · rw [h] at hb
    cases hb
  · obtain rfl : packets' = packets := Option.some.inj (h.symm.trans hb)
    rw [hprog] at hp
    obtain ⟨is, rfl⟩ : ∃ is', is = .scan packets' :: is' := by
      cases is with
      | nil => exact absurd rfl hne
      | cons i is => exact ⟨is, by rw [(List.cons_prefix_cons.mp hp).1]⟩
    clear hp hne
    induction is using List.reverseRecOn with
    | nil => simp [workerAfter, Worker.exec, Worker.firstScan, Worker.start]
    | append_singleton is i ih =>
      rw [← List.cons_append, workerAfter_append]
      obtain ⟨h1, h2, h3⟩ := Worker.exec_firstLoopDone cfg slots ih.1 i
      exact ⟨h1, h2.trans ih.2.1, h3.trans ih.2.2⟩

/-- Every instruction but a scan runs after the first scan. -/
theorem workerAfter_done {is : List Instr} {i : Instr} (hp : is ++ [i] <+: program bufs)
    (hi : ∀ packets, i ≠ .scan packets) : (workerAfter cfg slots u is).firstLoopDone = true := by
  rcases program_cases bufs with ⟨-, hnil⟩ | ⟨packets, js, hb, -, hprog⟩
  · simp [hnil] at hp
  · refine (workerAfter_first cfg slots u hb ((List.prefix_append is [i]).trans hp) fun hnil => ?_).1
    rw [hnil, hprog] at hp
    exact hi packets (List.cons_prefix_cons.mp hp).1

/-- A state of the thread on the buffers `bufs`, between two instructions. -/
def Reached (cfg : Config) (slots : Nat → Nat) (u : Uninit) (bufs : List UdpBuffer) (w : Worker) : Prop :=
  ∃ is, is <+: program bufs ∧ w = workerAfter cfg slots u is

theorem Reached.start : Reached cfg slots u bufs (.start cfg slots u) := ⟨[], List.nil_prefix, rfl⟩

/-- The induction over the states of the thread. Every instruction but a scan runs after the first scan. -/
theorem Reached.induction {I : Worker → Prop} (start : I (.start cfg slots u))
    (scan : ∀ w packets, Reached cfg slots u bufs w → packets ≠ [] → w.firstLoopDone = false → I w →
      I (w.firstScan cfg packets))
    (packet : ∀ w p, Reached cfg slots u bufs w → w.firstLoopDone = true → I w → I (w.packetStep cfg p))
    (startFlush : ∀ w, Reached cfg slots u bufs w → w.firstLoopDone = true → I w → I { w with nStarted := 0 })
    (full : ∀ w iK, Reached cfg slots u bufs w → w.firstLoopDone = true → I w → I (w.fullStep cfg slots iK))
    (checkStarted : ∀ w, Reached cfg slots u bufs w → w.firstLoopDone = true → I w → I w.checkStarted)
    (earlier : ∀ w iK, Reached cfg slots u bufs w → w.firstLoopDone = true → I w → I (w.earlierStep cfg slots iK))
    (hw : Reached cfg slots u bufs w) : I w := by
  obtain ⟨is, hp, rfl⟩ := hw
  refine Lts.foldl_upTo start (fun pre i hpre hI => ?_) hp
  have hr : Reached cfg slots u bufs (workerAfter cfg slots u pre) :=
    ⟨pre, (List.prefix_append pre [i]).trans hpre, rfl⟩
  have done : (∀ packets, i ≠ .scan packets) → (workerAfter cfg slots u pre).firstLoopDone = true :=
    workerAfter_done hpre
  cases i with
  | scan packets =>
    cases hd : (workerAfter cfg slots u pre).firstLoopDone
    · exact scan _ packets hr (scan_mem_program (hpre.subset (by simp))) hd hI
    · have : (workerAfter cfg slots u pre).exec cfg slots (.scan packets) = workerAfter cfg slots u pre := by
        simp [Worker.exec, Worker.firstScan, hd]
      exact this ▸ hI
  | packet p => exact packet _ p hr (done (by simp)) hI
  | startFlush => exact startFlush _ hr (done (by simp)) hI
  | full iK => exact full _ iK hr (done (by simp)) hI
  | checkStarted => exact checkStarted _ hr (done (by simp)) hI
  | earlier iK => exact earlier _ iK hr (done (by simp)) hI

/-- The induction for what depends on the blocks only: they change in the first scan and when one of them
    is handed over. -/
theorem Reached.blocks {I : Worker → Prop} (start : I (.start cfg slots u))
    (scan : ∀ w packets, Reached cfg slots u bufs w → packets ≠ [] → w.firstLoopDone = false → I w →
      I (w.firstScan cfg packets))
    (same : ∀ w w', w.SameBlocks w' → I w → I w')
    (handOver : ∀ w iK e, (∀ b, (e b).handedOrder = some b.order) → w.firstLoopDone = true → I w →
      I (w.handOver cfg slots iK e))
    (hw : Reached cfg slots u bufs w) : I w := by
  refine Reached.induction start scan ?_ ?_ ?_ ?_ ?_ hw
  · exact fun w p _ _ h => same w _ (w.sameBlocks_packetStep cfg p) h
  · exact fun w _ _ h => same w _ ⟨fun _ => rfl, fun _ => rfl, rfl, rfl, rfl, rfl, rfl⟩ h
  · intro w iK _ hd h
    rcases w.fullStep_cases cfg slots iK with ⟨-, hs⟩ | ⟨-, hs⟩ <;> rw [hs]
    · exact handOver _ iK _ (fun _ => rfl) hd (same w _ ⟨fun _ => rfl, fun _ => rfl, rfl, rfl, rfl, rfl, rfl⟩ h)
    · exact same w _ ⟨fun _ => rfl, fun _ => rfl, rfl, rfl, rfl, rfl, rfl⟩ h
  · exact fun w _ _ h => same w _ w.sameBlocks_checkStarted h
  · intro w iK _ hd h
    rcases w.earlierStep_cases cfg slots iK with ⟨-, n, hs⟩ | ⟨-, hs⟩ <;> rw [hs]
    · exact handOver _ iK _ (fun _ => rfl) hd (same w _ ⟨fun _ => rfl, fun _ => rfl, rfl, rfl, rfl, rfl, rfl⟩ h)
    · exact h

end VoltRec
