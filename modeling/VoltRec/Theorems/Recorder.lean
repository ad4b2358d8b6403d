import VoltRec.Recorder
import VoltRec.Theorems.Arrivals
import VoltRec.Theorems.Recording

/-! The whole recorder. Each pool with its two threads runs by itself, so what holds of the receiver and the network
    pool, and of the worker and the files, holds together; the buffers that the worker fetches join the two. -/

namespace VoltRec.Recorder
open FilePool Recording

variable {cfg : Config} {u : Uninit} {fileBuff : FileBuff} {networkData : Nat → Nat → UInt8}
  {networkLen fileLen : Nat → Nat} {tr : List Event} {s s' : State} {ev : Event}

/-! ### The two pools -/

/-- `keep_going` is never set again. -/
theorem recvTurn_keepGoing {k : Bool} {t t' : Reception.RecvThread} {l : Label RecvResult}
    (h : Reception.RecvTurn k t l true t') : k = true := by
  cases h <;> rfl

/-- What a turn of the worker is on the network pool. -/
theorem WorkerTurn.network {k : Bool} {w w' : WorkerOnBoth} {n : Option (Label RecvResult)}
    {f : Option (Label UdpBuffer)} (h : WorkerTurn cfg u k w n f w') :
    (∃ l, n = some l ∧ Reception.EmptierTurn k w.emptier l k w'.emptier) ∨ n = none ∧ w'.emptier = w.emptier := by
  cases h with
  | write | own => exact Or.inr ⟨rfl, rfl⟩
  | goOn => exact Or.inl ⟨_, rfl, .goOn⟩
  | leave => exact Or.inl ⟨_, rfl, .leave⟩
  | fetchBufferWait => exact Or.inl ⟨_, rfl, .fetchBufferWait⟩
  | waitOn => exact Or.inl ⟨_, rfl, .waitOn⟩
  | shut => exact Or.inl ⟨_, rfl, .shut⟩
  | takeNone => exact Or.inl ⟨_, rfl, .takeNone⟩
  | fetchBufferTake => exact Or.inl ⟨_, rfl, .fetchBufferTake⟩
  | returnEmptyBuffer => exact Or.inl ⟨_, rfl, .returnEmptyBuffer⟩
  | integrity => exact Or.inl ⟨_, rfl, .integrity⟩

/-- What a turn of the worker is on the file pool. -/
theorem WorkerTurn.file {k : Bool} {w w' : WorkerOnBoth} {n : Option (Label RecvResult)}
    {f : Option (Label UdpBuffer)} (h : WorkerTurn cfg u k w n f w') :
    (∃ l, f = some l ∧ Recording.WorkerTurn cfg u k w.writing l k w'.writing) ∨
      f = none ∧ w'.writing = w.writing := by
  cases h with
  | write => exact Or.inl ⟨_, rfl, .write⟩
  | own h hw => exact Or.inl ⟨_, rfl, .turn h hw⟩
  | goOn => exact Or.inl ⟨_, rfl, .turn .goOn rfl⟩
  | leave => exact Or.inl ⟨_, rfl, .turn .leave rfl⟩
  | shut | takeNone => exact Or.inl ⟨_, rfl, .turn .noBuffer rfl⟩
  | fetchBufferTake => exact Or.inl ⟨_, rfl, .turn .buffer rfl⟩
  | fetchBufferWait | waitOn | returnEmptyBuffer | integrity => exact Or.inr ⟨rfl, rfl⟩

theorem projects_network :
    Lts.Run.Projects (Step cfg u) Reception.Step State.reception Event.network := by
  rintro ⟨p, q, k, t, w, c⟩ ev s' hs
  cases hs with
  | receiver h hp => exact Or.inl ⟨_, rfl, Reception.Step.producer h hp⟩
  | interrupt => exact Or.inl ⟨_, rfl, .interrupt⟩
  | writer => exact Or.inr ⟨rfl, rfl⟩
  | worker h hn =>
    rcases h.network with ⟨l, rfl, ht⟩ | ⟨rfl, hsame⟩
    · exact Or.inl ⟨l, rfl, Reception.Step.consumer ht hn⟩
    · cases hn
      exact Or.inr ⟨rfl, by simp [State.reception, hsame]⟩

theorem projects_file : Lts.Run.Projects (Step cfg u) (Recording.Step cfg u) State.recording Event.file := by
  rintro ⟨p, q, k, t, w, c⟩ ev s' hs
  cases hs with
  | @receiver _ keepGoing _ _ h =>
    cases keepGoing with
    | false => exact Or.inl ⟨_, rfl, .interrupt⟩
    | true =>
      obtain rfl : k = true := recvTurn_keepGoing h
      exact Or.inr ⟨rfl, rfl⟩
  | interrupt => exact Or.inl ⟨_, rfl, .interrupt⟩
  | writer h hp => exact Or.inl ⟨_, rfl, .consumer h hp⟩
  | worker h _ hf =>
    rcases h.file with ⟨l, rfl, ht⟩ | ⟨rfl, hsame⟩
    · exact Or.inl ⟨l, rfl, .producer ht hf⟩
    · cases hf
      exact Or.inr ⟨rfl, by simp [State.recording, hsame]⟩

theorem inputs_filterMap {ε : Type} (f : Event → Option (Label ε)) (tr : List Event) (ev : Event) :
    inputs ((tr ++ [ev]).filterMap f) = inputs (tr.filterMap f) ++ ((f ev).bind Label.input?).toList := by
  rw [List.filterMap_append]
  cases h : f ev with
  | none => simp [h]
  | some l => simp [h, inputs_append]

theorem inputs_networkTrace (tr : List Event) (ev : Event) : inputs (networkTrace (tr ++ [ev])) =
    inputs (networkTrace tr) ++ (ev.network.bind Label.input?).toList := inputs_filterMap ..

theorem inputs_fileTrace (tr : List Event) (ev : Event) : inputs (fileTrace (tr ++ [ev])) =
    inputs (fileTrace tr) ++ (ev.file.bind Label.input?).toList := inputs_filterMap ..

section Run
variable (hr : Lts.Run (Step cfg u) (init u fileBuff networkData networkLen fileLen) tr s)
include hr

/-- The receiver and the worker run on the network pool as if there were no other. -/
theorem run_network : Lts.Run Reception.Step (Reception.init nUdpBuffers networkData networkLen) (networkTrace tr)
    s.reception := Lts.Run.project projects_network hr

/-- So do the worker and the file writer on the file pool. -/
theorem run_file : Lts.Run (Recording.Step cfg u) (Recording.init u fileBuff fileLen) (fileTrace tr) s.recording :=
  Lts.Run.project projects_file hr

/-- The buffers that the worker processes are those that it has fetched from the network pool. -/
theorem inputs_received :
    (inputs (fileTrace tr)).map (fun b => (b.dataLen, b.data)) =
      (received (acts (networkTrace tr))).map fun m => (m.2.1, m.2.2) := by
  refine hr.invariant (I := fun tr _ => (inputs (fileTrace tr)).map (fun b => (b.dataLen, b.data)) =
    (received (acts (networkTrace tr))).map fun m => (m.2.1, m.2.2)) rfl ?_
  rintro tr ⟨p, q, k, t, w, c⟩ ev s' - ih hs
  have hsnoc : ∀ (n : Option (Label RecvResult)) (f : Option (Label UdpBuffer)), ev.network = n → ev.file = f →
      inputs (fileTrace (tr ++ [ev])) = inputs (fileTrace tr) ++ (f.bind Label.input?).toList ∧
      received (acts (networkTrace (tr ++ [ev]))) = received (acts (networkTrace tr)) ++
        ((n.bind Label.act?).bind Act.received).toList := by
    rintro n f rfl rfl
    refine ⟨inputs_fileTrace .., ?_⟩
    rw [networkTrace, List.filterMap_append, ← networkTrace]
    cases hn : ev.network with
    | none => simp [hn]
    | some l =>
      simp only [List.filterMap_cons, hn, List.filterMap_nil, acts_append, Option.bind_some]
      cases l.act? with
      | none => simp
      | some a => simp [Network.received_append]
  have hquiet : ∀ (n : Option (Label RecvResult)) (f : Option (Label UdpBuffer)), ev.network = n → ev.file = f →
      f.bind Label.input? = none → (n.bind Label.act?).bind Act.received = none →
      (inputs (fileTrace (tr ++ [ev]))).map (fun b => (b.dataLen, b.data)) =
        (received (acts (networkTrace (tr ++ [ev])))).map fun m => (m.2.1, m.2.2) := by
    intro n f hn hf hin hrecv
    obtain ⟨h1, h2⟩ := hsnoc n f hn hf
    rw [h1, h2, hin, hrecv]
    simpa using ih
  cases hs with
  | receiver h =>
    refine hquiet _ _ rfl rfl ?_ ?_
    · simp only [Event.file]
      split <;> rfl
    · cases h <;> rfl
  | interrupt => exact hquiet _ _ rfl rfl rfl rfl
  | writer h => exact hquiet _ _ rfl rfl (by cases h <;> rfl) rfl
  | worker h =>
    cases h with
    | fetchBufferTake b =>
      obtain ⟨h1, h2⟩ := hsnoc _ _ rfl rfl
      rw [h1, h2, List.map_append, List.map_append, ih]
      rfl
    | own h hw he =>
      refine hquiet _ _ rfl rfl ?_ rfl
      cases h with
      | buffer => cases he
      | _ => rfl
    | write | goOn | leave | fetchBufferWait | waitOn | shut | takeNone | returnEmptyBuffer | integrity =>
      exact hquiet _ _ rfl rfl rfl rfl

end Run

/-! ### A run -/

/-- A run reaches the state after `recvfrom` has returned `results`. -/
def Reaches (cfg : Config) (u : Uninit) (fileBuff : FileBuff) (results : List RecvResult) (s : State) : Prop :=
  ∃ tr, Lts.Run (Step cfg u) (init u fileBuff (fun _ _ => 0) (fun _ => 0) fun _ => 0) tr s ∧
    inputs (networkTrace tr) = results

section Run
variable {p q : Pool Side} {k : Bool} {t : Reception.RecvThread} {e : Reception.EmptierAt} {pos : WorkerAt}
  {w : Worker} {rest : List Instr} {c : WriterAt} {m : Nat → Nat → UInt8} {results : List RecvResult}

theorem Reaches.hear (h : Reaches cfg u fileBuff results s) (hs : Step cfg u s ev s') {r : RecvResult}
    (hr : ev.network.bind Label.input? = some r) : Reaches cfg u fileBuff (results ++ [r]) s' := by
  obtain ⟨tr, hrun, rfl⟩ := h
  exact ⟨_, hrun.next hs, by rw [inputs_networkTrace, hr]; rfl⟩

theorem Reaches.next (h : Reaches cfg u fileBuff results s) (hs : Step cfg u s ev s')
    (hr : ev.network.bind Label.input? = none) : Reaches cfg u fileBuff results s' := by
  obtain ⟨tr, hrun, rfl⟩ := h
  exact ⟨_, hrun.next hs, by rw [inputs_networkTrace, hr]; exact List.append_nil _⟩

/-- The worker gets through with what it has to write. -/
theorem run_writes (pending : List ByteWrite) (h : Reaches cfg u fileBuff results ⟨p, q, k, t, ⟨e, ⟨pos, pending⟩⟩, c⟩)
    (hidle : q.Idle .producer) :
    Reaches cfg u fileBuff results
      ⟨p, { q with buff := { q.buff with data := Memory.store q.buff.data pending } }, k, t, ⟨e, ⟨pos, []⟩⟩, c⟩ := by
  induction pending generalizing q with
  | nil => exact h
  | cons b pending ih => exact ih (h.next (.worker .write rfl (.write hidle)) rfl) hidle

theorem run_slots {n : Nat} (hn : n ≤ nFileBuffersAtATime) :
    ∃ m, Reaches cfg u fileBuff []
      ⟨.fetched nUdpBuffers (fun _ _ => 0) (fun _ => 0) 0, .fetched nFileBuffers m (fun _ => 0) n, true,
        { order := 1, pos := .test }, ⟨.test, ⟨.fetching (List.range n), []⟩⟩, .test (.start fileBuff)⟩ := by
  induction n with
  | zero => exact ⟨u.data, [], .start, rfl⟩
  | succ n ih =>
    obtain ⟨m, h⟩ := ih (by omega)
    have hlt : n < nFileBuffers := Nat.lt_of_lt_of_le hn (by decide)
    have hmore : (List.range n).length < nFileBuffersAtATime := by rwa [List.length_range]
    have h₁ := h.next (.worker (.own (.fetchFirst hmore) rfl rfl) rfl
      (Pool.fetched_succ hlt m (fun _ => 0) Side.producer)) rfl
    rw [← List.range_succ] at h₁
    exact ⟨_, run_writes _ h₁ (Pool.fetched_idle ..)⟩

/-- The worker goes through instructions that hand no block over. -/
theorem run_instrs (is : List Instr) {n : Nat} (he : ∀ i ∈ is, ∀ w rest, beside (.running w (i :: rest)) e = true)
    (h : Reaches cfg u fileBuff results
      ⟨p, .fetched nFileBuffers m (fun _ => 0) n, k, t, ⟨e, ⟨.running w (is ++ rest), []⟩⟩, c⟩)
    (hq : quiet cfg w is = true) :
    ∃ m', Reaches cfg u fileBuff results
      ⟨p, .fetched nFileBuffers m' (fun _ => 0) n, k, t,
        ⟨e, ⟨.running (is.foldl (Worker.exec cfg fun _ => 0) w) rest, []⟩⟩, c⟩ := by
  induction is generalizing w m with
  | nil => exact ⟨m, h⟩
  | cons i is ih =>
    obtain ⟨hi, hq⟩ := (Bool.and_eq_true _ _).mp hq
    have h₁ := h.next (.worker (.own (.instr (Option.isNone_iff_eq_none.mp hi) fun _ => 0) rfl
      (he i List.mem_cons_self _ _)) rfl rfl) rfl
    exact ih (fun j hj => he j (List.mem_cons_of_mem _ hj)) (run_writes _ h₁ (Pool.fetched_idle ..)) hq

/-- The receiver copies a datagram. -/
theorem run_copy {d : Datagram} {index iK dataSize j n : Nat} (hj : j ≤ d.len)
    (h : Reaches cfg u fileBuff results ⟨.fetched nUdpBuffers m (fun _ => 0) n, q, k,
      ⟨1, .copying index iK dataSize d 0⟩, ⟨e, ⟨pos, []⟩⟩, c⟩) :
    ∃ m', (∀ i < j, m' index (dataSize + i) = d.bytes i) ∧
      Reaches cfg u fileBuff results ⟨.fetched nUdpBuffers m' (fun _ => 0) n, q, k,
        ⟨1, .copying index iK dataSize d j⟩, ⟨e, ⟨pos, []⟩⟩, c⟩ := by
  induction j with
  | zero => exact ⟨m, fun i hi => absurd hi (Nat.not_lt_zero i), h⟩
  | succ j ih =>
    obtain ⟨m', hbytes, h'⟩ := ih (by omega)
    refine ⟨_, fun i hi => ?_, h'.next (.receiver (.write rfl hj) (.write (Pool.fetched_idle ..))) rfl⟩
    simp only [Pool.fetched, Function.update_self]
    rcases Nat.lt_succ_iff_lt_or_eq.mp hi with hi | rfl
    · rw [Function.update_of_ne (by omega), hbytes i hi]
    · rw [Function.update_self]

/-- Packet 0 as a datagram. -/
def firstDatagram : Datagram := ⟨rxMsgLen, firstPacket.data, rxMsgLen_pos, Nat.le_refl _⟩

theorem packet_firstDatagram : firstDatagram.packet = .numbered 0 := by
  have h := packets_firstPacket
  rw [UdpBuffer.packets, show firstPacket.nOfPackets = 1 from rfl] at h
  have h0 : firstPacket.packet 0 = .numbered 0 := by simpa using h
  rw [← h0, Datagram.packet, UdpBuffer.packet, Nat.zero_mul]
  simp only [Nat.zero_add]
  rfl

/-- The network pool with one buffer published. -/
def published (m : Nat → Nat → UInt8) : Pool Side where
  buff := ⟨m, Function.update (fun _ => 0) 0 rxMsgLen, 1 :: List.replicate 9 0, 1⟩
  publishing := none
  claimed := ∅

/-- The receiver reads packet 0 and publishes it. -/
theorem run_received (h : Reaches cfg u fileBuff [] ⟨.fetched nUdpBuffers (fun _ _ => 0) (fun _ => 0) 0, q, k,
      ⟨1, .fetching⟩, ⟨e, ⟨pos, []⟩⟩, c⟩) :
    ∃ m, Reception.cut rxMsgLen (m 0) = [.numbered 0] ∧
      Reaches cfg u fileBuff [.datagram firstDatagram, .error] ⟨published m, q, k, ⟨2, .test⟩, ⟨e, ⟨pos, []⟩⟩, c⟩ := by
  have hturn : Reception.RecvTurn k ⟨1, .fetching⟩ (.call (.fetchEmptyBuffer .producer 0)) k ⟨1, .reading 0 0 0⟩ :=
    .fetchEmptyBuffer rfl
  have h₁ := h.next (.receiver hturn (Pool.fetched_succ (k := 0) (by decide) ..)) rfl
  have h₂ := h₁.hear (.receiver (.datagram (d := firstDatagram) rfl (by decide) (.inl ⟨rfl, rfl⟩)) rfl) rfl
  obtain ⟨m, hbytes, h₃⟩ := run_copy (Nat.le_refl _) h₂
  have h₄ := (h₃.next (.receiver (.copied rfl) rfl) rfl).hear (.receiver (.error rfl (by decide)) rfl) rfl
  have h₅ := h₄.next (.receiver (.returnBuffer rfl) (.returnBufferData (Pool.fetched_idle ..) rfl rfl)) rfl
  refine ⟨m, ?_, h₅.next (.receiver (.ready rfl) (.returnBufferReady rfl)) rfl⟩
  have ha := Reception.aligned_copied (aligned_nil (m 0)) (d := firstDatagram) rfl hbytes
  have hcut := Reception.cut_of_aligned ha (by decide)
  rw [List.nil_append, List.map_singleton, packet_firstDatagram] at hcut
  rwa [Nat.zero_add] at hcut

/-- A stale reference makes the worker hand the block of packet 0 over, and the datagram is in a file. -/
theorem run_recorded (fileBuff : FileBuff) : ∃ tr s,
    Lts.Run (Step singleChannel staleReference)
      (init staleReference fileBuff (fun _ _ => 0) (fun _ => 0) fun _ => 0) tr s ∧
      inputs (networkTrace tr) = [.datagram firstDatagram, .error] ∧ slotsGiven (fileTrace tr) < 2 ^ 31 ∧
      s.writer.fileWriter.orders = [1] := by
  obtain ⟨m₀, h₀⟩ : ∃ m, Reaches singleChannel staleReference fileBuff []
      ⟨.fetched nUdpBuffers (fun _ _ => 0) (fun _ => 0) 0, .fetched nFileBuffers m (fun _ => 0) 6, true,
        { order := 1, pos := .test }, ⟨.test, ⟨.fetching (List.range 6), []⟩⟩, .test (.start fileBuff)⟩ :=
    run_slots (Nat.le_refl _)
  have h₁ := (h₀.next (.worker (.own (.start List.length_range) rfl rfl) rfl rfl) rfl).next
    (.receiver (.goOn rfl) rfl) rfl
  obtain ⟨m₁, hcut, h₂⟩ := run_received h₁
  -- the worker
  have h₃ := (h₂.next (.worker .goOn rfl rfl) rfl).next
    (.worker .fetchBufferWait (.fetchBufferWait (Pool.idle_of_free rfl (Finset.notMem_empty _)) rfl) rfl) rfl
  have h₄ := h₃.next (.worker (.fetchBufferTake ⟨m₁ 0, rxMsgLen, by decide⟩)
    (.fetchBufferTake (Finset.mem_insert_self ..) rfl rfl) rfl) rfl
  have hiter : iteration (UdpBuffer.packets ⟨m₁ 0, rxMsgLen, by decide⟩) =
      takeIn [.numbered 0] ++ (sendFull ++ .earlier 0 :: [1, 2, 3, 4, 5].map .earlier) := by
    rw [Reception.packets_eq_cut, hcut]
    rfl
  rw [hiter] at h₄
  obtain ⟨m₅, h₅⟩ := run_instrs (takeIn [.numbered 0]) (by simp [takeIn, beside]) h₄ (by decide +kernel)
  have h₆ := h₅.next (.worker (.returnEmptyBuffer rfl)
    (.returnEmptyBuffer (Pool.idle_of_free rfl (by simp)) rfl rfl) rfl) rfl
  obtain ⟨m₇, h₇⟩ := run_instrs sendFull (by simp [sendFull, beside, List.finRange]) h₆ (by decide +kernel)
  generalize hw : sendFull.foldl (Worker.exec singleChannel fun _ => 0) _ = w at h₇
  have hover : w.handsOver (.earlier 0) = some 0 := by subst hw; decide +kernel
  have hblock : (w.localStruct 0).index = 0 ∧ (w.localStruct 0).order = 1 ∧ w.nextOrder = 7 := by
    subst hw; decide +kernel
  obtain ⟨hindex, horder, hnext⟩ := hblock
  have hret : (Pool.fetched nFileBuffers m₇ (fun _ => 0) 6 : Pool Side).buff.returnBufferData (w.localStruct 0).index
      (w.localStruct 0).order singleChannel.dataLenOut =
      some ⟨m₇, Function.update (fun _ => 0) 0 singleChannel.dataLenOut,
        1 :: List.replicate 5 (-1) ++ List.replicate 14 0,
        0⟩ := by
    rw [hindex, horder]
    rfl
  have h₈ := (h₇.next (.worker (.own (.returnBuffer hover) rfl rfl) rfl
    (.returnBufferData (Pool.fetched_idle ..) rfl hret)) rfl).next
    (.worker (.own .ready rfl rfl) rfl (.returnBufferReady rfl)) rfl
  -- the file writer
  have h₉ := (h₈.next (.writer .goOn rfl) rfl).next
    (.writer .fetchBufferWait (.fetchBufferWait (Pool.idle_of_free rfl (Finset.notMem_empty _)) rfl)) rfl
  have h₁₀ := h₉.next (.writer (.fetchBufferTake ⟨0, 1, singleChannel.dataLenOut, m₇ 0, Nat.one_pos⟩)
    (.fetchBufferTake (Finset.mem_insert_self ..) rfl rfl)) rfl
  obtain ⟨tr, hr, hinputs⟩ :=
    h₁₀.next (.writer (.returnEmptyBuffer rfl (.inl rfl))
      (.returnEmptyBuffer (Pool.idle_of_free rfl (by simp)) rfl rfl)) rfl
  refine ⟨tr, _, hr, hinputs, ?_, rfl⟩
  have hgiven : slotsGiven (fileTrace tr) + 1 = w.nextOrder := (processes (below (run_file hr)).run).2.given
  omega

end Run

/-! ### End to end -/

/-- What `recvfrom` returns in a run: no datagram is empty, and the first has the right size. -/
structure Regular (tr : List Event) : Prop where
  notZero : ∀ l ∈ networkTrace tr, l ≠ .input .zero
  firstSized : Reception.FirstSized (networkTrace tr)

theorem regular_firstDatagram {tr : List Event} (h : inputs (networkTrace tr) = [.datagram firstDatagram, .error]) :
    Regular tr where
  notZero l hl := by
    rintro rfl
    have hmem : RecvResult.zero ∈ inputs (networkTrace tr) := List.mem_filterMap.mpr ⟨_, hl, rfl⟩
    simp [h] at hmem
  firstSized d hd := by
    rw [h] at hd
    cases hd
    rfl

/-- The packets that the worker processes are the first ones of those that arrive. -/
theorem processed_of_arrivals (hr : Lts.Run (Step cfg u) (init u fileBuff networkData networkLen fileLen) tr s)
    (h : Regular tr) :
    (inputs (fileTrace tr)).flatMap UdpBuffer.packets <+: Reception.arrivals (networkTrace tr) := by
  have hprefix := Reception.received_prefix (run_network hr) h.notZero h.firstSized
  have hflat : (inputs (fileTrace tr)).flatMap UdpBuffer.packets =
      ((inputs (fileTrace tr)).map fun b => (b.dataLen, b.data)).flatMap fun m => Reception.cut m.1 m.2 := by
    rw [List.flatMap_map]
    rfl
  rwa [hflat, inputs_received hr, List.flatMap_map]

/-- From `recvfrom` to the files: whatever the order of the steps of the three threads, every recorded block holds,
    cell by cell, the last datagram that belongs there of those that the worker fetched while the block was local,
    and what the worker fetches is what has arrived, in order, from the first datagram on. -/
theorem recorded_arrivals (hr : Lts.Run (Step cfg u) (init u fileBuff networkData networkLen fileLen) tr s)
    (h : Regular tr) (hfew : slotsGiven (fileTrace tr) < 2 ^ 31) :
    ((inputs (fileTrace tr)).flatMap UdpBuffer.packets <+: Reception.arrivals (networkTrace tr)) ∧
      s.writer.fileWriter.orders.Pairwise (· < ·) ∧
      ∀ bl ∈ s.writer.fileWriter.blocks, Recorded cfg (fileTrace tr) bl :=
  ⟨processed_of_arrivals hr h, (sequenced (below (run_file hr)).run).sorted, recorded_exact (run_file hr) hfew⟩

theorem recorded_arrivals_firstDatagram : ∃ (tr : List Event) (s : State),
    inputs (networkTrace tr) = [.datagram firstDatagram, .error] ∧ s.writer.fileWriter.orders = [1] ∧
      ((inputs (fileTrace tr)).flatMap UdpBuffer.packets <+: Reception.arrivals (networkTrace tr)) ∧
      s.writer.fileWriter.orders.Pairwise (· < ·) ∧
      ∀ bl ∈ s.writer.fileWriter.blocks, Recorded singleChannel (fileTrace tr) bl := by
  obtain ⟨tr, s, hr, hinputs, hfew, horders⟩ := run_recorded oneAnt
  exact ⟨tr, s, hinputs, horders, recorded_arrivals hr (regular_firstDatagram hinputs) hfew⟩

end VoltRec.Recorder
