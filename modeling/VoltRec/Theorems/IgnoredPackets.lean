import VoltRec.Theorems.Registration

/-! Two runs of the worker on network buffers that differ only in packets that the packet loop ignores. Past
    the first scan such a packet changes nothing but the log, so the runs stay in the same blocks with the
    same contents, in slots of the file pool that may differ. The first scan takes every packet into account. -/

namespace VoltRec

variable {cfg : Config} {slots slots' : Nat → Nat} {u : Uninit} {w w' : Worker} {bufs bufs' : List UdpBuffer}

/-! ### Streams -/

/-- A packet that the packet loop passes over whatever the antenna table is. -/
def Packet.Ignored (cfg : Config) (p : Packet) : Prop := ¬(isVersionVolt p.header = true ∧ InRange cfg p)

instance (cfg : Config) (p : Packet) : Decidable (p.Ignored cfg) :=
  inferInstanceAs (Decidable ¬(_ ∧ _ ∧ _))

/-- Two buffers, neither of them empty, with the same packets but for ignored ones. -/
structure SameKept (cfg : Config) (b b' : UdpBuffer) : Prop where
  ne_nil : b.packets ≠ []
  ne_nil' : b'.packets ≠ []
  kept : b.packets.filter (¬Packet.Ignored cfg ·) = b'.packets.filter (¬Packet.Ignored cfg ·)

/-- What the first scan takes from two batches is the same: the block of the lowest packet number and the
    first antenna ids, as many as are configured. -/
structure SameStart (cfg : Config) (packets packets' : List Packet) : Prop where
  block : (packets.map fun p => getPcktNo p.header).min?.map (· / timeIntPerBuffer) =
    (packets'.map fun p => getPcktNo p.header).min?.map (· / timeIntPerBuffer)
  antennas : (antennaIds packets).take cfg.nAnts = (antennaIds packets').take cfg.nAnts

/-- The instructions of two runs, with ignored packets in one or the other. -/
inductive SameInstrs (cfg : Config) : List Instr → List Instr → Prop
  | nil : SameInstrs cfg [] []
  | scan {is is' : List Instr} (packets packets' : List Packet) (h : SameInstrs cfg is is') :
      SameInstrs cfg (.scan packets :: is) (.scan packets' :: is')
  | same {is is' : List Instr} (i : Instr) (h : SameInstrs cfg is is') : SameInstrs cfg (i :: is) (i :: is')
  | left {is is' : List Instr} {p : Packet} (hp : p.Ignored cfg) (h : SameInstrs cfg is is') :
      SameInstrs cfg (.packet p :: is) is'
  | right {is is' : List Instr} {p : Packet} (hp : p.Ignored cfg) (h : SameInstrs cfg is is') :
      SameInstrs cfg is (.packet p :: is')

theorem SameInstrs.append_left {is is' : List Instr} (h : SameInstrs cfg is is') (js : List Instr) :
    SameInstrs cfg (js ++ is) (js ++ is') := by
  induction js with
  | nil => exact h
  | cons i js ih => exact ih.same i

theorem SameInstrs.packets {is is' : List Instr} (h : SameInstrs cfg is is') {packets packets' : List Packet}
    (hkept : packets.filter (¬Packet.Ignored cfg ·) = packets'.filter (¬Packet.Ignored cfg ·)) :
    SameInstrs cfg (packets.map .packet ++ is) (packets'.map .packet ++ is') := by
  induction packets generalizing packets' with
  | nil =>
    induction packets' with
    | nil => exact h
    | cons p packets' ih =>
      by_cases hp : p.Ignored cfg
      · exact (ih (by simpa [hp] using hkept)).right hp
      · simp [hp] at hkept
  | cons p packets ih =>
    by_cases hp : p.Ignored cfg
    · exact (ih (by simpa [hp] using hkept)).left hp
    · induction packets' with
      | nil => simp [hp] at hkept
      | cons p' packets' ih' =>
        by_cases hp' : p'.Ignored cfg
        · exact (ih' (by simpa [hp'] using hkept)).right hp'
        · simp only [hp, hp', not_false_eq_true, decide_true, List.filter_cons_of_pos, List.cons.injEq] at hkept
          obtain ⟨rfl, hkept⟩ := hkept
          exact (ih hkept).same _

theorem program_cons {b : UdpBuffer} (h : b.packets ≠ []) (bufs : List UdpBuffer) :
    program (b :: bufs) = .scan b.packets :: (b.packets.map .packet ++ (sendFull ++ sendEarlier ++ program bufs)) := by
  simp [program, iteration, takeIn, h]

theorem SameKept.instrs {b b' : UdpBuffer} (h : SameKept cfg b b')
    (ha : SameInstrs cfg (program bufs) (program bufs')) :
    SameInstrs cfg (b.packets.map .packet ++ (sendFull ++ sendEarlier ++ program bufs))
      (b'.packets.map .packet ++ (sendFull ++ sendEarlier ++ program bufs')) :=
  (ha.append_left _).packets h.kept

theorem sameInstrs_program (h : List.Forall₂ (SameKept cfg) bufs bufs') :
    SameInstrs cfg (program bufs) (program bufs') := by
  induction h with
  | nil => exact .nil
  | @cons b b' bufs bufs' hb _ ih =>
    rw [program_cons hb.ne_nil, program_cons hb.ne_nil']
    exact (hb.instrs ih).scan _ _

/-! ### Blocks that agree -/

/-- What `returnBuffer` shows of a block, apart from its slot. -/
def Handed.shown (b : Handed) : Nat × Nat × Int × List UInt8 :=
  (b.packetNo, b.order, b.nToFull, Memory.slice b.data 0 b.dataLen)

/-- The blocks handed over, in order. -/
def publishedBlocks (log : List Event) : List (Nat × Nat × Int × List UInt8) :=
  log.filterMap fun e => e.handed?.map Handed.shown

/-- Two local blocks with the same counts and contents. -/
structure Alike (dataLen : Nat) (m m' : Nat → Nat → UInt8) (ls ls' : WorkLocalStruct) : Prop where
  packetNo : ls'.packetNo = ls.packetNo
  order : ls'.order = ls.order
  nToFull : ls'.nToFull = ls.nToFull
  data : ∀ x, x < dataLen → m' ls'.index x = m ls.index x

/-- Two states that differ only in their slots, in what lies past the end of a block and in the log of
    packets and slots. -/
structure Agree (cfg : Config) (w w' : Worker) : Prop where
  packetStart : w'.packetStart = w.packetStart
  fileAntNumbers : w'.fileAntNumbers = w.fileAntNumbers
  antNumbers : w'.antNumbers = w.antNumbers
  localStruct : ∀ iK, Alike cfg.dataLenOut w.data w'.data (w.localStruct iK) (w'.localStruct iK)
  nextOrder : w'.nextOrder = w.nextOrder
  nextStructPacketNo : w'.nextStructPacketNo = w.nextStructPacketNo
  lastSentPacketNo : w'.lastSentPacketNo = w.lastSentPacketNo
  nStarted : w'.nStarted = w.nStarted
  firstLoopDone : w'.firstLoopDone = w.firstLoopDone
  published : publishedBlocks w'.log = publishedBlocks w.log

theorem publishedBlocks_of_none {log : List Event} {e : Event} (h : e.handed? = none) :
    publishedBlocks (log ++ [e]) = publishedBlocks log := by
  simp [publishedBlocks, h]

theorem publishedBlocks_handOver {iK : Fin 6} {e : Handed → Event} (he : ∀ b, (e b).handed? = some b) :
    publishedBlocks (w.handOver cfg slots iK e).log = publishedBlocks w.log ++ [(w.handed cfg iK).shown] := by
  have hlog : ∀ (l : List Event) (a b : Event), l ++ [a, b] = l ++ [a] ++ [b] := by simp
  rw [Worker.handOver_log, hlog, publishedBlocks_of_none (e := .alloc _ _) rfl, publishedBlocks, List.filterMap_append]
  simp [publishedBlocks, he]

theorem Agree.symm (h : Agree cfg w w') : Agree cfg w' w where
  packetStart := h.packetStart.symm
  fileAntNumbers := h.fileAntNumbers.symm
  antNumbers := h.antNumbers.symm
  localStruct iK :=
    have hl := h.localStruct iK
    ⟨hl.packetNo.symm, hl.order.symm, hl.nToFull.symm, fun x hx => (hl.data x hx).symm⟩
  nextOrder := h.nextOrder.symm
  nextStructPacketNo := h.nextStructPacketNo.symm
  lastSentPacketNo := h.lastSentPacketNo.symm
  nStarted := h.nStarted.symm
  firstLoopDone := h.firstLoopDone.symm
  published := h.published.symm

/-! ### One instruction -/

/-- An ignored packet is only logged. -/
theorem packetStep_ignored (ht : Table w.antNumbers) {p : Packet} (hp : p.Ignored cfg) :
    w.packetStep cfg p = { w with log := w.log ++ [.packet p] } := by
  rcases w.packetStep_cases cfg p with ⟨-, h⟩ | ⟨a, c, s, hacc, -, -⟩
  · exact h
  · obtain ⟨hv, -, -, hfirst, rfl, hc⟩ := (accepts_iff cfg ht p.header a c).mp hacc
    exact absurd ⟨hv, hfirst, hc⟩ hp

theorem Agree.ignored (h : Agree cfg w w') (ht : Table w.antNumbers) {p : Packet} (hp : p.Ignored cfg) :
    Agree cfg (w.packetStep cfg p) w' := by
  rw [packetStep_ignored ht hp]
  exact { h with published := h.published.trans (publishedBlocks_of_none rfl).symm }

theorem Agree.find (h : Agree cfg w w') (n : Nat) :
    findStructIndex w'.localStruct n = findStructIndex w.localStruct n := by
  simp only [findStructIndex, (h.localStruct _).packetNo]

theorem Agree.packetStep (h : Agree cfg w w') (hp : Placed w) (hp' : Placed w') (p : Packet) :
    Agree cfg (w.packetStep cfg p) (w'.packetStep cfg p) := by
  have hpub : publishedBlocks (w'.log ++ [.packet p]) = publishedBlocks (w.log ++ [.packet p]) := by
    rw [publishedBlocks_of_none rfl, publishedBlocks_of_none rfl, h.published]
  rcases w.packetStep_cases cfg p with ⟨hno, hs⟩ | ⟨a, c, s, hacc, hfind, hs⟩
  · rcases w'.packetStep_cases cfg p with ⟨-, hs'⟩ | ⟨a, c, s, hacc, hfind, -⟩
    · rw [hs, hs']
      exact { h with published := hpub }
    · rw [h.antNumbers] at hacc
      rw [h.find, hno a c hacc] at hfind
      cases hfind
  · rcases w'.packetStep_cases cfg p with ⟨hno, -⟩ | ⟨a', c', s', hacc', hfind', hs'⟩
    · rw [h.antNumbers, h.find] at hno
      rw [hno a c hacc] at hfind
      cases hfind
    · rw [h.antNumbers, hacc] at hacc'
      rw [h.find, hfind] at hfind'
      cases hacc'
      cases hfind'
      rw [hs, hs']
      refine { h with localStruct := fun iK => ?_, published := hpub }
      have hl := h.localStruct iK
      by_cases hi : iK = s
      · subst hi
        simp only [Function.update_self]
        refine ⟨hl.packetNo, hl.order, by rw [hl.nToFull], fun x hx => ?_⟩
        rw [Function.update_self, Function.update_self, Memory.copy_congr (hl.data x hx)]
      · simp only [Function.update_of_ne hi]
        refine ⟨hl.packetNo, hl.order, hl.nToFull, fun x hx => ?_⟩
        rw [Function.update_of_ne (fun heq => hi (hp'.inj heq)), Function.update_of_ne (fun heq => hi (hp.inj heq))]
        exact hl.data x hx

theorem Agree.handOver (h : Agree cfg w w') {iK : Fin 6} {e : Handed → Event} (he : ∀ b, (e b).handed? = some b)
    (hne : ∀ jK, jK ≠ iK → (w.localStruct jK).index ≠ slots w.nextOrder)
    (hne' : ∀ jK, jK ≠ iK → (w'.localStruct jK).index ≠ slots' w'.nextOrder) :
    Agree cfg (w.handOver cfg slots iK e) (w'.handOver cfg slots' iK e) where
  packetStart := h.packetStart
  fileAntNumbers := h.fileAntNumbers
  antNumbers := h.antNumbers
  localStruct jK := by
    simp only [Worker.handOver_localStruct, Worker.handOver_data]
    by_cases hj : jK = iK
    · subst hj
      simp only [Function.update_self]
      refine ⟨h.nextStructPacketNo, h.nextOrder, rfl, fun x hx => ?_⟩
      simp only [Worker.fresh, Function.update_self, Memory.fill_of_lt hx]
    · have hl := h.localStruct jK
      simp only [Function.update_of_ne hj]
      refine ⟨hl.packetNo, hl.order, hl.nToFull, fun x hx => ?_⟩
      rw [Function.update_of_ne (hne' jK hj), Function.update_of_ne (hne jK hj)]
      exact hl.data x hx
  nextOrder := congrArg (· + 1) h.nextOrder
  nextStructPacketNo := by simp [h.nextStructPacketNo]
  lastSentPacketNo := h.lastSentPacketNo
  nStarted := h.nStarted
  firstLoopDone := h.firstLoopDone
  published := by
    have hl := h.localStruct iK
    have hshown : (w'.handed cfg iK).shown = (w.handed cfg iK).shown := by
      simp only [Handed.shown, Worker.handed, hl.packetNo, hl.order, hl.nToFull, Memory.slice_congr hl.data]
    rw [publishedBlocks_handOver he, publishedBlocks_handOver he, h.published, hshown]

theorem Agree.start (cfg : Config) (slots slots' : Nat → Nat) (u : Uninit) :
    Agree cfg (.start cfg slots u) (.start cfg slots' u) where
  packetStart := rfl
  fileAntNumbers := rfl
  antNumbers := rfl
  localStruct iK := by
    refine ⟨rfl, rfl, rfl, fun x hx => ?_⟩
    have hzero : ∀ slots : Nat → Nat, (Worker.start cfg slots u).data (slots (iK + 1)) x = 0 := by
      intro slots
      obtain ⟨m, hm⟩ := foldl_fill (fun iK : Fin 6 => slots (iK.val + 1)) cfg.dataLenOut u.data (List.finRange 6)
        (List.mem_finRange iK)
      exact (congrFun hm x).trans (Memory.fill_of_lt hx)
    exact (hzero slots').trans (hzero slots).symm
  nextOrder := rfl
  nextStructPacketNo := rfl
  lastSentPacketNo := rfl
  nStarted := rfl
  firstLoopDone := rfl
  published := by
    have hnone : ∀ slots : Nat → Nat, publishedBlocks (Worker.start cfg slots u).log = [] := by
      intro slots
      simp [publishedBlocks, Worker.start, Event.handed?]
    rw [hnone, hnone]

theorem Agree.firstScan (h : Agree cfg w w') (hd : w.firstLoopDone = false) {packets packets' : List Packet}
    (hs : pktStart packets' = pktStart packets)
    (ha : registerAntennas cfg w.antNumbers packets' = registerAntennas cfg w.antNumbers packets) :
    Agree cfg (w.firstScan cfg packets) (w'.firstScan cfg packets') := by
  simp only [Worker.firstScan, hd, h.firstLoopDone, Bool.false_eq_true, if_false, h.antNumbers, hs, ha]
  refine { h with packetStart := rfl, antNumbers := rfl, fileAntNumbers := rfl, localStruct := fun iK => ?_,
                  nextStructPacketNo := rfl, firstLoopDone := rfl }
  have hl := h.localStruct iK
  exact ⟨rfl, hl.order, hl.nToFull, hl.data⟩

theorem Agree.exec (h : Agree cfg w w') (hd : w.firstLoopDone = true) (hp : Placed w) (hp' : Placed w') (i : Instr)
    (hf : Fresh (w.exec cfg slots i).log) (hf' : Fresh (w'.exec cfg slots' i).log) :
    Agree cfg (w.exec cfg slots i) (w'.exec cfg slots' i) := by
  cases i with
  | scan packets =>
    simp only [Worker.exec, Worker.firstScan, hd, h.firstLoopDone, if_true]
    exact h
  | packet p => exact h.packetStep hp hp' p
  | startFlush => exact { h with nStarted := rfl }
  | full iK =>
    have hl := h.localStruct iK
    simp only [Worker.exec] at hf hf' ⊢
    rcases w.fullStep_cases cfg slots iK with ⟨h0, hs⟩ | ⟨h0, hs⟩ <;>
      rcases w'.fullStep_cases cfg slots' iK with ⟨h0', hs'⟩ | ⟨h0', hs'⟩
    · rw [hs] at hf ⊢
      rw [hs'] at hf' ⊢
      have hq : Agree cfg { w with lastSentPacketNo := (w.localStruct iK).packetNo }
          { w' with lastSentPacketNo := (w'.localStruct iK).packetNo } :=
        { h with lastSentPacketNo := congrArg Nat.cast hl.packetNo }
      exact hq.handOver (fun _ => rfl) (Placed.handOver ⟨hp.held, hp.inj⟩ (fun _ => rfl) (heldIn_of_fresh hf)).1
        (Placed.handOver ⟨hp'.held, hp'.inj⟩ (fun _ => rfl) (heldIn_of_fresh hf')).1
    · exact absurd (hl.nToFull.trans h0) h0'
    · exact absurd (hl.nToFull.symm.trans h0') h0
    · rw [hs, hs', hl.nToFull, h.nStarted]
      exact { h with nStarted := rfl }
  | checkStarted =>
    simp only [Worker.exec, Worker.checkStarted, h.nStarted, h.nextStructPacketNo, h.nextOrder]
    split
    · refine { h with
        lastSentPacketNo := rfl, published := ?_, nextOrder := rfl, nextStructPacketNo := rfl,
        nStarted := rfl }
      rw [publishedBlocks_of_none rfl, publishedBlocks_of_none rfl, h.published]
    · exact h
  | earlier iK =>
    have hl := h.localStruct iK
    simp only [Worker.exec] at hf hf' ⊢
    rcases w.earlierStep_cases cfg slots iK with ⟨h0, n, hs⟩ | ⟨h0, hs⟩ <;>
      rcases w'.earlierStep_cases cfg slots' iK with ⟨h0', n', hs'⟩ | ⟨h0', hs'⟩
    · rw [hs] at hf ⊢
      rw [hs'] at hf' ⊢
      have hq : Agree cfg { w with noMissing := n } { w' with noMissing := n' } := { h with }
      exact hq.handOver (fun _ => rfl) (Placed.handOver ⟨hp.held, hp.inj⟩ (fun _ => rfl) (heldIn_of_fresh hf)).1
        (Placed.handOver ⟨hp'.held, hp'.inj⟩ (fun _ => rfl) (heldIn_of_fresh hf')).1
    · rw [h.lastSentPacketNo, hl.packetNo, h0] at h0'
      cases h0'
    · rw [h.lastSentPacketNo, hl.packetNo, h0] at h0'
      cases h0'
    · rw [hs, hs']
      exact h

/-! ### Two runs -/

/-- A complete run has done `is` and has `rest` before it, with sound answers from the pool to its end. -/
structure Running (cfg : Config) (slots : Nat → Nat) (u : Uninit) (bufs : List UdpBuffer) (is rest : List Instr) :
    Prop where
  split : is ++ rest = program bufs
  fresh : Fresh (workerWork cfg slots u bufs).log

section Running
variable {is rest : List Instr} {i : Instr}

theorem Running.next (h : Running cfg slots u bufs is (i :: rest)) : Running cfg slots u bufs (is ++ [i]) rest :=
  ⟨by rw [List.append_assoc]; exact h.split, h.fresh⟩

theorem Running.reached (h : Running cfg slots u bufs is rest) :
    Reached cfg slots u bufs (workerAfter cfg slots u is) :=
  ⟨is, ⟨rest, h.split⟩, rfl⟩

theorem Running.fresh_log (h : Running cfg slots u bufs is rest) : Fresh (workerAfter cfg slots u is).log := by
  obtain ⟨es, hes⟩ := Worker.log_foldl cfg slots (workerAfter cfg slots u is) rest
  rw [← workerAfter_append, h.split] at hes
  exact Fresh.of_append (hes ▸ h.fresh)

theorem Running.placed (h : Running cfg slots u bufs is rest) : Placed (workerAfter cfg slots u is) :=
  h.reached.placed h.fresh_log

end Running

/-- Past the first scan, runs that agree go on to agree whatever ignored packets come in between. -/
theorem SameInstrs.agree {rest rest' : List Instr} (ha : SameInstrs cfg rest rest') :
    ∀ {is is' : List Instr}, Running cfg slots u bufs is rest → Running cfg slots' u bufs' is' rest' →
      (workerAfter cfg slots u is).firstLoopDone = true →
      Agree cfg (workerAfter cfg slots u is) (workerAfter cfg slots' u is') →
      Agree cfg (workerWork cfg slots u bufs) (workerWork cfg slots' u bufs') := by
  induction ha with
  | nil =>
    intro is is' h h' _ hag
    have hs := h.split
    have hs' := h'.split
    rw [List.append_nil] at hs hs'
    rw [workerWork, workerWork, ← hs, ← hs']
    exact hag
  | scan packets packets' _ ih =>
    intro is is' h h' hd hag
    have hscan : ∀ {cfg slots w} (packets : List Packet), w.firstLoopDone = true →
        Worker.exec cfg slots w (.scan packets) = w := by
      intro cfg slots w packets hd
      simp [Worker.exec, Worker.firstScan, hd]
    have hd' := hag.firstLoopDone.trans hd
    refine ih h.next h'.next ?_ ?_
    · rw [workerAfter_snoc, hscan _ hd]
      exact hd
    · rw [workerAfter_snoc, workerAfter_snoc, hscan _ hd, hscan _ hd']
      exact hag
  | same i _ ih =>
    intro is is' h h' hd hag
    refine ih h.next h'.next ?_ ?_
    · rw [workerAfter_snoc]
      exact (Worker.exec_firstLoopDone cfg slots hd i).1
    · have hf := h.next.fresh_log
      have hf' := h'.next.fresh_log
      rw [workerAfter_snoc] at hf hf' ⊢
      rw [workerAfter_snoc]
      exact hag.exec hd h.placed h'.placed i hf hf'
  | left hp _ ih =>
    intro is is' h h' hd hag
    refine ih h.next h' ?_ ?_
    · rw [workerAfter_snoc]
      exact (Worker.exec_firstLoopDone cfg slots hd _).1
    · rw [workerAfter_snoc]
      exact hag.ignored h.reached.assembling.table hp
  | right hp _ ih =>
    intro is is' h h' hd hag
    refine ih h h'.next hd ?_
    rw [workerAfter_snoc]
    exact (hag.symm.ignored h'.reached.assembling.table hp).symm

/-! ### What the first scan takes from a batch -/

theorem pktStart_eq {packets : List Packet} (h : packets ≠ []) :
    ∃ n, (packets.map fun p => getPcktNo p.header).min? = some n ∧
      pktStart packets = n / timeIntPerBuffer * timeIntPerBuffer := by
  cases packets with
  | nil => exact absurd rfl h
  | cons p packets =>
    have hfold : (p :: packets).foldl (fun pktStart p => min pktStart (getPcktNo p.header)) longMax =
        (packets.map fun p => getPcktNo p.header).foldl min (getPcktNo p.header) := by
      have hle : min longMax (getPcktNo p.header) = getPcktNo p.header := by
        have := getPcktNo_lt p.header
        simp only [longMax]
        omega
      rw [List.foldl_cons, hle, List.foldl_map]
    refine ⟨_, by rw [List.map_cons, List.min?_cons'], ?_⟩
    rw [pktStart, hfold, getPacketFilter_eq]
    have hle : (packets.map fun p => getPcktNo p.header).foldl min (getPcktNo p.header) ≤ getPcktNo p.header :=
      (foldl_min_le (fun n : Nat => n) _ _).1
    have := getPcktNo_lt p.header
    omega

theorem registerAntennas_inj (cfg : Config) (packets packets' : List Packet) :
    registerAntennas cfg (List.replicate maxNoAnts noAntenna) packets =
        registerAntennas cfg (List.replicate maxNoAnts noAntenna) packets' ↔
      (antennaIds packets).take cfg.nAnts = (antennaIds packets').take cfg.nAnts := by
  rw [registerAntennas_eq, registerAntennas_eq]
  constructor
  · have hids : ∀ (packets : List Packet) (n : Nat),
        ((antennaIds packets).take cfg.nAnts ++ List.replicate n noAntenna).filter (· ≠ noAntenna) =
          (antennaIds packets).take cfg.nAnts := by
      intro packets n
      have hne : ∀ x ∈ (antennaIds packets).take cfg.nAnts, x ≠ noAntenna :=
        fun x hx => antennaIds_ne (List.mem_of_mem_take hx)
      rw [List.filter_append, List.filter_eq_self.mpr (by simpa using hne)]
      simp
    intro h
    rw [← hids packets, h, hids]
  · intro h
    rw [h]

theorem sameStart_iff (cfg : Config) {packets packets' : List Packet} (hne : packets ≠ []) (hne' : packets' ≠ []) :
    SameStart cfg packets packets' ↔ pktStart packets = pktStart packets' ∧
      registerAntennas cfg (List.replicate maxNoAnts noAntenna) packets =
        registerAntennas cfg (List.replicate maxNoAnts noAntenna) packets' := by
  obtain ⟨n, hn, hstart⟩ := pktStart_eq hne
  obtain ⟨n', hn', hstart'⟩ := pktStart_eq hne'
  rw [registerAntennas_inj, hstart, hstart']
  have hiff : n / timeIntPerBuffer * timeIntPerBuffer = n' / timeIntPerBuffer * timeIntPerBuffer ↔
      n / timeIntPerBuffer = n' / timeIntPerBuffer := Nat.mul_left_inj (by decide)
  rw [hiff]
  constructor
  · intro h
    have hb := h.block
    rw [hn, hn'] at hb
    exact ⟨Option.some.inj hb, h.antennas⟩
  · intro h
    exact ⟨by rw [hn, hn', Option.map_some, Option.map_some, h.1], h.2⟩

/-! ### Outcomes -/

/-- The same antennas in the same order, the same start, and the same blocks handed over in the same order. -/
structure SameOutcome (w w' : Worker) : Prop where
  antNumbers : w.antNumbers = w'.antNumbers
  fileAntNumbers : w.fileAntNumbers = w'.fileAntNumbers
  packetStart : w.packetStart = w'.packetStart
  published : publishedBlocks w.log = publishedBlocks w'.log

theorem answered_fetches {log : List Event} (h : log.filterMap Event.call = (List.range 6).map .fetchEmptyBuffer) :
    Answered log := by
  obtain ⟨tr, hr, hcalls⟩ := run_fetches (by decide : 6 ≤ nFileBuffers) (fun _ _ => 0) fun _ => 0
  exact ⟨Unit, inferInstance, (), _, _, tr, _, hr, hcalls.trans h.symm⟩

/-- Ignored packets have no influence on what the worker registers and publishes if and only if they have
    none on the start and the antennas of the first batch. -/
theorem ignored_iff (cfg : Config) (slots slots' : Nat → Nat) (u : Uninit) {bufs bufs' : List UdpBuffer}
    (hsame : List.Forall₂ (SameKept cfg) bufs bufs') (hans : Answered (workerWork cfg slots u bufs).log)
    (hans' : Answered (workerWork cfg slots' u bufs').log) :
    SameOutcome (workerWork cfg slots u bufs) (workerWork cfg slots' u bufs') ↔
      ∀ packets packets', firstBatch bufs = some packets → firstBatch bufs' = some packets' →
        SameStart cfg packets packets' := by
  have hrun : Running cfg slots u bufs [] (program bufs) := ⟨rfl, hans.fresh⟩
  have hrun' : Running cfg slots' u bufs' [] (program bufs') := ⟨rfl, hans'.fresh⟩
  cases hsame with
  | nil =>
    refine iff_of_true ?_ fun packets packets' h => by cases h
    have hag := Agree.start cfg slots slots' u
    exact ⟨hag.antNumbers.symm, hag.fileAntNumbers.symm, hag.packetStart.symm, hag.published.symm⟩
  | @cons b b' bufs bufs' hb hsame =>
    have hfirst : firstBatch (b :: bufs) = some b.packets := by simp [firstBatch, hb.ne_nil]
    have hfirst' : firstBatch (b' :: bufs') = some b'.packets := by simp [firstBatch, hb.ne_nil']
    have hne : program (b :: bufs) ≠ [] := by simp [program_cons hb.ne_nil]
    have hne' : program (b' :: bufs') ≠ [] := by simp [program_cons hb.ne_nil']
    rw [hfirst, hfirst']
    constructor
    · rintro ho packets packets' ⟨⟩ ⟨⟩
      obtain ⟨-, hs, ha⟩ := workerAfter_first cfg slots u hfirst List.prefix_rfl hne
      obtain ⟨-, hs', ha'⟩ := workerAfter_first cfg slots' u hfirst' List.prefix_rfl hne'
      exact (sameStart_iff cfg hb.ne_nil hb.ne_nil').mpr
        ⟨hs.symm.trans (ho.packetStart.trans hs'), ha.symm.trans (ho.antNumbers.trans ha')⟩
    · intro h
      obtain ⟨hs, ha⟩ := (sameStart_iff cfg hb.ne_nil hb.ne_nil').mp (h _ _ rfl rfl)
      rw [program_cons hb.ne_nil] at hrun
      rw [program_cons hb.ne_nil'] at hrun'
      have hscan : ∀ slots packets, workerAfter cfg slots u ([] ++ [.scan packets]) =
          (Worker.start cfg slots u).firstScan cfg packets := fun slots packets => rfl
      have hag := (hb.instrs (sameInstrs_program hsame)).agree hrun.next hrun'.next
        (by rw [hscan]; exact Worker.firstScan_firstLoopDone cfg _ _)
        (by rw [hscan, hscan]; exact (Agree.start cfg slots slots' u).firstScan rfl hs.symm ha.symm)
      exact ⟨hag.antNumbers.symm, hag.fileAntNumbers.symm, hag.packetStart.symm, hag.published.symm⟩

/-- A packet with the voltage bit clear. -/
def Packet.otherVersion (pckt : Nat) : Packet := .ofHeader (VoltRec.header 0 0 pckt 65)

/-- A lone packet with number `n`, and the same packet after an ignored one with number 0. -/
def lone (n : Nat) : UdpBuffer := .ofPackets [.numbered n] (by simp; decide)
def preceded (n : Nat) : UdpBuffer := .ofPackets [.otherVersion 0, .numbered n] (by simp; decide)

section Preceded
variable {n : Nat} (hn : (Packet.numbered n).header < 2 ^ 64)
include hn

theorem packets_lone : (lone n).packets = [.numbered n] := UdpBuffer.packets_ofPackets _ (by simpa using hn)

theorem packets_preceded : (preceded n).packets = [.otherVersion 0, .numbered n] :=
  UdpBuffer.packets_ofPackets _ (by simpa using ⟨by decide, hn⟩)

theorem sameKept_preceded : SameKept singleChannel (lone n) (preceded n) where
  ne_nil := by simp [packets_lone hn]
  ne_nil' := by simp [packets_preceded hn]
  kept := by
    have hother : (Packet.otherVersion 0).Ignored singleChannel := fun h => absurd h.1 (by decide)
    rw [packets_lone hn, packets_preceded hn,
      List.filter_cons_of_neg (a := Packet.otherVersion 0) (by simpa using hother)]

end Preceded

/-- As long as no block is full, six slots are all that the worker asks for. -/
theorem answered_single {b : UdpBuffer} {packets : List Packet} (hb : b.packets = packets)
    (h : (workerAfter singleChannel (· - 1) zeroed (iteration packets)).log.filterMap Event.call =
      (List.range 6).map .fetchEmptyBuffer) :
    Answered (workerWork singleChannel (· - 1) zeroed [b]).log := by
  refine answered_fetches ?_
  rw [workerWork, program, List.flatMap_singleton, hb]
  exact h

theorem ignored_preceded : SameOutcome (workerWork singleChannel (· - 1) zeroed [lone 0])
      (workerWork singleChannel (· - 1) zeroed [preceded 0]) ↔
    ∀ packets packets', firstBatch [lone 0] = some packets → firstBatch [preceded 0] = some packets' →
      SameStart singleChannel packets packets' :=
  ignored_iff singleChannel (· - 1) (· - 1) zeroed (.cons (sameKept_preceded (by decide)) .nil)
    (answered_single (packets_lone (by decide)) (by decide +kernel))
    (answered_single (packets_preceded (by decide)) (by decide +kernel))

/-- An ignored packet of an earlier block moves the start of the recording. -/
theorem ignored_moves_start :
    ¬∀ (cfg : Config) (slots slots' : Nat → Nat) (u : Uninit) (bufs bufs' : List UdpBuffer),
      List.Forall₂ (SameKept cfg) bufs bufs' → Answered (workerWork cfg slots u bufs).log →
      Answered (workerWork cfg slots' u bufs').log →
      SameOutcome (workerWork cfg slots u bufs) (workerWork cfg slots' u bufs') := by
  intro h
  have ho := (h singleChannel (· - 1) (· - 1) zeroed [lone 128] [preceded 128]
    (.cons (sameKept_preceded (by decide)) .nil)
    (answered_single (packets_lone (by decide)) (by decide +kernel))
    (answered_single (packets_preceded (by decide)) (by decide +kernel))).packetStart
  have hprog : ∀ {b : UdpBuffer} {packets : List Packet}, b.packets = packets →
      workerWork singleChannel (· - 1) zeroed [b] = workerAfter singleChannel (· - 1) zeroed (iteration packets) := by
    intro b packets hb
    rw [workerWork, program, List.flatMap_singleton, hb]
  rw [hprog (packets_lone (by decide)), hprog (packets_preceded (by decide))] at ho
  revert ho
  decide +kernel

end VoltRec
