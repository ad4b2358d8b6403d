import VoltRec.Theorems.Recorder

/-! No thread writes or reads behind a buffer, in any run: not even where an empty datagram makes the receiver
    publish a buffer twice. -/

namespace VoltRec

/-! ### The network pool -/

namespace Reception

variable {n : Nat} {data : Nat → Nat → UInt8} {dataLen : Nat → Nat} {tr : List (Label RecvResult)} {s s' : State}
  {l : Label RecvResult}

/-- A pass of the read loop adds one datagram at most. -/
def ReceiverAt.InBuffer (n : Nat) : ReceiverAt → Prop
  | .reading index iK dataSize => index < n ∧ iK ≤ nReadsDefault ∧ dataSize ≤ iK * rxMsgLen
  | .copying index iK dataSize _ _ => index < n ∧ iK < nReadsDefault ∧ dataSize ≤ iK * rxMsgLen
  | .zero index dataSize => index < n ∧ dataSize ≤ nReadsDefault * rxMsgLen
  | .zeroReturning index dataSize => index < n ∧ dataSize ≤ nReadsDefault * rxMsgLen
  | .zeroReturned index dataSize => index < n ∧ dataSize ≤ nReadsDefault * rxMsgLen
  | .leaving index dataSize => index < n ∧ dataSize ≤ nReadsDefault * rxMsgLen
  | .test => True
  | .fetching => True
  | .returning => True
  | .returned => True

structure InBuffer (n : Nat) (s : State) : Prop where
  receiver : s.producer.pos.InBuffer n
  length : s.pool.buff.orderNo.length = n
  ready : ∀ (i : Nat) (o : Int), s.pool.buff.orderNo[i]? = some o → 0 < o →
    s.pool.buff.dataLen i ≤ nReadsDefault * rxMsgLen

theorem readAll_le {iK dataSize : Nat} (hle : iK ≤ nReadsDefault) (hsize : dataSize ≤ iK * rxMsgLen) :
    dataSize ≤ nReadsDefault * rxMsgLen := hsize.trans (Nat.mul_le_mul_right _ hle)

/-- The lengths of the published buffers after a step that publishes `dataSize` bytes at most. -/
theorem InBuffer.pool {p' : Pool Side} (h : InBuffer n s) (hp : l.OnPool s.pool p')
    (hpub : ∀ t i o m d, l = .call (.returnBufferData t i o m d) → m ≤ nReadsDefault * rxMsgLen) :
    p'.buff.orderNo.length = n ∧ ∀ (i : Nat) (o : Int), p'.buff.orderNo[i]? = some o → 0 < o →
      p'.buff.dataLen i ≤ nReadsDefault * rxMsgLen := by
  rcases onPool_of_act hp with ⟨a, rfl, he⟩ | ⟨-, rfl⟩
  · refine ⟨?_, fun i o hi ho => ?_⟩
    · rcases he.mark_cases with ⟨-, hsame⟩ | ⟨index, old, new, -, -, hset⟩
      · rw [hsame]
        exact h.length
      · rw [hset, List.length_set]
        exact h.length
    · rcases he.ready_cases ho hi with ⟨hold, hlen⟩ | ⟨t, rfl⟩
      · rw [hlen]
        exact h.ready i o hold ho
      · exact hpub _ _ _ _ _ rfl
  · exact ⟨h.length, h.ready⟩

/-- A step of the receiver. -/
theorem InBuffer.turn {k k' : Bool} {t t' : RecvThread} (ht : RecvTurn k t l k' t') {p p' : Pool Side}
    (hp : l.OnPool p p') (hlen : p.buff.orderNo.length = n) (h : t.pos.InBuffer n) :
    t'.pos.InBuffer n ∧ ∀ t i o m d, l = .call (.returnBufferData t i o m d) → m ≤ nReadsDefault * rxMsgLen := by
  obtain ⟨order, pos⟩ := t
  cases ht with
  | fetchEmptyBuffer hat =>
    cases hat
    refine ⟨⟨?_, Nat.zero_le _, Nat.zero_le _⟩, nofun⟩
    cases hp with
    | fetchEmptyBuffer _ _ hf => exact hlen ▸ (List.getElem?_eq_some_iff.mp (UdpBuff.fetchEmptyBuffer_spec hf).1).1
  | datagram hat more =>
    cases hat
    exact ⟨⟨h.1, more, h.2.2⟩, nofun⟩
  | @copied _ _ index iK dataSize d hat =>
    cases hat
    refine ⟨⟨h.1, h.2.1, ?_⟩, nofun⟩
    calc dataSize + d.len ≤ iK * rxMsgLen + rxMsgLen := Nat.add_le_add h.2.2 d.le
      _ = (iK + 1) * rxMsgLen := (Nat.succ_mul iK rxMsgLen).symm
  | write hat =>
    cases hat
    exact ⟨h, nofun⟩
  | wrongSize hat | zero hat | error hat =>
    cases hat
    exact ⟨⟨h.1, readAll_le h.2.1 h.2.2⟩, nofun⟩
  | readAll hat =>
    cases hat
    exact ⟨⟨h.1, h.2.2⟩, nofun⟩
  | zeroReturn hat | returnBuffer hat =>
    cases hat
    refine ⟨by first | exact h | trivial, ?_⟩
    rintro _ _ _ _ _ ⟨⟩
    exact h.2
  | zeroReady hat | stop hat | zeroIntegrity hat | integrity hat =>
    cases hat
    exact ⟨h, nofun⟩
  | goOn hat | leave hat | noEmpty hat | ready hat =>
    cases hat
    exact ⟨trivial, nofun⟩

theorem inBuffer (hr : Lts.Run Step (init n data dataLen) tr s) : InBuffer n s := by
  refine hr.invariant (I := fun _ s => InBuffer n s) ?_ ?_
  · refine ⟨trivial, List.length_replicate .., fun i o hi ho => ?_⟩
    obtain rfl := List.eq_of_mem_replicate (List.mem_of_getElem? hi)
    contradiction
  · rintro tr ⟨p, k, t, c⟩ l s' - ih hs
    cases hs with
    | interrupt => exact ⟨ih.receiver, ih.length, ih.ready⟩
    | producer ht hp =>
      obtain ⟨hpos, hpub⟩ := InBuffer.turn ht hp ih.length ih.receiver
      obtain ⟨hlen, hready⟩ := ih.pool hp hpub
      exact ⟨hpos, hlen, hready⟩
    | consumer ht hp =>
      obtain ⟨hlen, hready⟩ := ih.pool hp (by rintro _ _ _ _ _ rfl; cases ht)
      exact ⟨ih.receiver, hlen, hready⟩

theorem readAll_fits : nReadsDefault * rxMsgLen ≤ udpBufferSize := by decide

theorem write_inBuffer (hr : Lts.Run Step (init n data dataLen) tr s) {t : Side} {index x : Nat} {v : UInt8}
    (h : .call (.write t index x v) ∈ tr) : index < n ∧ x < udpBufferSize := by
  obtain ⟨pre, post, rfl⟩ := List.append_of_mem h
  obtain ⟨⟨p, k, th, c⟩, s₂, hr₁, hs⟩ := hr.split
  have hin := (inBuffer hr₁).receiver
  cases hs with
  | consumer ht => cases ht
  | producer ht =>
    obtain ⟨order, pos⟩ := th
    cases ht with
    | @write _ _ index iK dataSize j d hat more =>
      cases hat
      obtain ⟨hindex, hiK, hsize⟩ := hin
      refine ⟨hindex, ?_⟩
      have hlen := d.le
      calc dataSize + j < iK * rxMsgLen + rxMsgLen := by omega
        _ = (iK + 1) * rxMsgLen := (Nat.succ_mul iK rxMsgLen).symm
        _ ≤ nReadsDefault * rxMsgLen := Nat.mul_le_mul_right _ hiK
        _ ≤ udpBufferSize := readAll_fits

end Reception

/-! ### The file pool -/

namespace Recording
open FilePool

variable {cfg : Config} {u : Uninit} {fileBuff : FileBuff} {dataLen : Nat → Nat} {tr : List (Label UdpBuffer)}
  {s s' : State} {l : Label UdpBuffer}

theorem mem_memcpyWrites_lt {w : Worker} {p : Packet} {b : ByteWrite} (ht : Table w.antNumbers)
    (h : b ∈ memcpyWrites cfg w p) : b.x < cfg.dataLenOut := by
  unfold memcpyWrites at h
  split at h
  · cases h
  · rename_i a c hacc
    split at h
    · cases h
    · obtain ⟨j, -, rfl⟩ := List.mem_map.mp h
      obtain ⟨-, ha, -, -, -, hc⟩ := (accepts_iff cfg ht p.header a c).mp hacc
      have hr := getPacketRest_lt (getPcktNo p.header)
      rw [cfg.offset_eq hr ha hc, cfg.dataLenOut_eq]
      exact Radix.lt_mul (cfg.cell_lt hr ha hc) j.isLt

theorem mem_writesAfter_lt {pos pos' : WorkerAt} {k k' : Bool} (h : Processes cfg u tr pos)
    (ht : FilePool.WorkerTurn cfg u k pos l k' pos') {b : ByteWrite} (hb : b ∈ writesAfter cfg pos l) :
    b.x < cfg.dataLenOut := by
  have hset : ∀ {index : Nat}, b ∈ memsetWrites cfg index → b.x < cfg.dataLenOut := by
    intro index hb
    obtain ⟨x, hx, rfl⟩ := List.mem_map.mp hb
    exact List.mem_range.mp hx
  cases ht with
  | fetchFirst | fetchNext => exact hset hb
  | @instr _ w i rest hi =>
    cases i with
    | packet p =>
      obtain ⟨slots, is, hprog, hw⟩ := Progress.program h
      have hreached : Reached cfg slots u (inputs tr) w := ⟨is, ⟨_, hprog⟩, hw⟩
      exact mem_memcpyWrites_lt hreached.assembling.table hb
    | scan | startFlush | full | checkStarted | earlier => cases hb
  | noFirst | writeFirst | start | goOn | leave | noBuffer | buffer | write | returnBuffer | integrity | ready |
    noNext | returnEmptyBuffer | closingIntegrity | closed => cases hb

theorem pending_lt (hr : Lts.Run (Step cfg u) (init u fileBuff dataLen) tr s) :
    ∀ b ∈ s.producer.pending, b.x < cfg.dataLenOut := by
  refine hr.invariant (I := fun _ s => ∀ b ∈ s.producer.pending, b.x < cfg.dataLenOut) (fun b hb => by cases hb) ?_
  rintro tr ⟨p, k, ⟨pos, pending⟩, c⟩ l s' hr ih hs b hb
  cases hs with
  | interrupt | consumer => exact ih b hb
  | producer ht =>
    cases ht with
    | write => exact ih b (List.mem_cons_of_mem _ hb)
    | turn ht => exact mem_writesAfter_lt (processes (below hr).run) ht hb

theorem write_inBuffer (hr : Lts.Run (Step cfg u) (init u fileBuff dataLen) tr s) {t : Side} {index x : Nat} {v : UInt8}
    (h : .call (.write t index x v) ∈ tr) : index < nFileBuffers ∧ x < fileBufferSize := by
  obtain ⟨pre, post, rfl⟩ := List.append_of_mem h
  obtain ⟨⟨p, k, ⟨pos, pending⟩, c⟩, s₂, hr₁, hs⟩ := hr.split
  obtain ⟨t₁, t₂, hr₂, hs₂⟩ := (below (hr₁.next hs)).run.split
  obtain ⟨holder, hk⟩ := kept hr₂
  have hmarked := hk.marked (held_of_write hr₂ hs₂)
  have hlen : t₁.pool.buff.orderNo.length = nFileBuffers := length_orderNo hk.run
  refine ⟨hlen ▸ (List.getElem?_eq_some_iff.mp hmarked).1, ?_⟩
  cases hs with
  | consumer ht => cases ht
  | producer ht =>
    cases ht with
    | write => exact Nat.lt_of_lt_of_le (pending_lt hr₁ _ List.mem_cons_self) cfg.dataLenOut_le
    | turn _ hw => cases hw

end Recording

/-! ### Both pools -/

namespace Recorder
open FilePool

variable {cfg : Config} {u : Uninit} {fileBuff : FileBuff} {networkData : Nat → Nat → UInt8}
  {networkLen fileLen : Nat → Nat} {tr : List Event} {s : State}

/-- Whatever `recvfrom` returns, every byte that the receiver and the worker write lies in its buffer, and so does
    all that the worker can fetch and the file writer has written to a file. -/
theorem inBounds (hr : Lts.Run (Step cfg u) (init u fileBuff networkData networkLen fileLen) tr s) :
    (∀ t index x v, .call (.write t index x v) ∈ networkTrace tr → index < nUdpBuffers ∧ x < udpBufferSize) ∧
    (∀ t index x v, .call (.write t index x v) ∈ fileTrace tr → index < nFileBuffers ∧ x < fileBufferSize) ∧
    (∀ (i : Nat) (o : Int), s.network.buff.orderNo[i]? = some o → 0 < o →
      s.network.buff.dataLen i ≤ udpBufferSize) ∧
    ∀ bl ∈ s.writer.fileWriter.blocks, bl.bytes.length = cfg.dataLenOut ∧ cfg.dataLenOut ≤ fileBufferSize := by
  refine ⟨fun t index x v h => Reception.write_inBuffer (run_network hr) h,
    fun t index x v h => Recording.write_inBuffer (run_file hr) h, fun i o hi ho => ?_, fun bl hbl => ?_⟩
  · exact ((Reception.inBuffer (run_network hr)).ready i o hi ho).trans Reception.readAll_fits
  · obtain ⟨n, d, ⟨index, hmem⟩, hbytes⟩ := (faithful (Recording.below (run_file hr)).run).files bl hbl
    obtain ⟨pre, post, heq⟩ := List.append_of_mem hmem
    have hrun := run_file hr
    rw [heq] at hrun
    obtain ⟨s₁, s₂, hr₁, hs⟩ := hrun.split
    obtain ⟨w, i, rest, iK, -, -, -, -, rfl, -⟩ := Recording.handed_complete hr₁ hs
    exact ⟨by rw [hbytes, Memory.length_slice], cfg.dataLenOut_le⟩

theorem inBounds_firstDatagram : ∃ (tr : List Event) (s : State), s.writer.fileWriter.orders = [1] ∧
    (∀ t index x v, .call (.write t index x v) ∈ networkTrace tr → index < nUdpBuffers ∧ x < udpBufferSize) ∧
    (∀ t index x v, .call (.write t index x v) ∈ fileTrace tr → index < nFileBuffers ∧ x < fileBufferSize) ∧
    (∀ (i : Nat) (o : Int), s.network.buff.orderNo[i]? = some o → 0 < o →
      s.network.buff.dataLen i ≤ udpBufferSize) ∧
    ∀ bl ∈ s.writer.fileWriter.blocks, bl.bytes.length = singleChannel.dataLenOut ∧
      singleChannel.dataLenOut ≤ fileBufferSize := by
  obtain ⟨tr, s, hr, -, -, horders⟩ := run_recorded oneAnt
  exact ⟨tr, s, horders, inBounds hr⟩

end Recorder
end VoltRec
