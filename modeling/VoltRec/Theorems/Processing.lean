import VoltRec.Recording
import VoltRec.Theorems.Accounting
import VoltRec.Theorems.Shutdown

/-! Which packets the worker has put into its blocks. A block is local from the call that gives its slot to the call
    that hands it over, and it takes the packets of the network buffers that the worker fetches between the two. -/

namespace VoltRec

variable {cfg : Config} {u : Uninit} {w : Worker} {slots : Nat → Nat} {rest : List Instr} {i : Instr}

/-! ### Instructions and packets -/

/-- Behind an instruction that may hand a block over, an iteration takes no packet. -/
theorem packets_of_flush {packets : List Packet} (h : i :: rest <:+ iteration packets) (hi : i.isFlush = true) :
    rest.filterMap Instr.packet? = [] := by
  have hflush : ∀ {is : List Instr}, i :: rest <:+ is → (∀ j ∈ is, j.packet? = none) →
      rest.filterMap Instr.packet? = [] := fun hs hnone =>
    List.filterMap_eq_nil_iff.mpr fun j hj => hnone j (hs.subset (List.mem_cons_of_mem i hj))
  have hnone : ∀ j ∈ sendFull ++ sendEarlier, j.packet? = none := by
    intro j hj
    simp only [sendFull, sendEarlier, List.mem_append, List.mem_cons, List.mem_map, List.not_mem_nil, or_false] at hj
    rcases hj with (⟨rfl | ⟨iK, -, rfl⟩⟩ | rfl) | ⟨iK, -, rfl⟩ <;> rfl
  unfold iteration at h
  split at h
  · exact absurd (List.suffix_nil.mp h) (List.cons_ne_nil i rest)
  · rw [List.append_assoc] at h
    -- The suffix starts behind the packets, as it starts with such an instruction.
    obtain ⟨pre, hpre⟩ := h
    rcases List.append_eq_append_iff.mp hpre with ⟨as, hle, hrest⟩ | ⟨as, -, hrest⟩
    · cases as with
      | nil => exact hflush ⟨[], by simpa using hrest⟩ hnone
      | cons j as =>
        obtain ⟨rfl, -⟩ := List.cons_eq_cons.mp hrest
        have hmem : i ∈ takeIn packets := hle ▸ by simp
        simp only [takeIn, List.mem_cons, List.mem_map] at hmem
        rcases hmem with rfl | ⟨p, -, rfl⟩ <;> cases hi
    · exact hflush ⟨as, hrest.symm⟩ hnone

theorem isFlush_of_handsOver {iK : Fin 6} (h : w.handsOver i = some iK) : i.isFlush = true := by
  cases i with
  | full | earlier => rfl
  | scan | packet | startFlush | checkStarted => cases h

/-- An instruction that hands no block over takes in its packet, if it has one. -/
theorem Worker.packetsSince_exec_none (h : w.handsOver i = none) (k : Nat) :
    packetsSince k (w.exec cfg slots i).log = packetsSince k w.log ++ i.packet?.toList := by
  cases i with
  | packet p => simp [exec, (w.packetStep_frame cfg p).2.2.2.2.2.2, Instr.packet?]
  | scan packets =>
    simp only [exec, firstScan, Instr.packet?, Option.toList_none, List.append_nil]
    split <;> rfl
  | startFlush => simp [exec, Instr.packet?]
  | full iK =>
    rcases w.fullStep_cases cfg slots iK with ⟨h0, -⟩ | ⟨-, hs⟩
    · simp [handsOver, h0] at h
    · simp [exec, hs, Instr.packet?]
  | checkStarted =>
    simp only [exec, Instr.packet?, Option.toList_none, List.append_nil]
    rcases w.checkStarted_cases with ⟨-, hs⟩ | ⟨-, hs⟩
    · rw [hs, packetsSince_mostlyStarted]
    · rw [hs]
  | earlier iK =>
    rcases w.earlierStep_cases cfg slots iK with ⟨h0, -⟩ | ⟨-, hs⟩
    · simp [handsOver, h0] at h
    · simp [exec, hs, Instr.packet?]

theorem Worker.packetsSince_exec_some {iK : Fin 6} (h : w.handsOver i = some iK) (k : Nat) :
    packetsSince k (w.exec cfg slots i).log = if w.nextOrder = k then [] else packetsSince k w.log := by
  have hlog : ∀ a b : Event, w.log ++ [a, b] = w.log ++ [a] ++ [b] := by simp
  cases i with
  | full jK =>
    rcases w.fullStep_cases cfg slots jK with ⟨-, hs⟩ | ⟨h0, -⟩
    · simp only [exec, hs, handOver_log, hlog, packetsSince_alloc]
      rw [packetsSince_handed k w.log (b := Worker.handed cfg _ jK) rfl]
    · simp [handsOver, h0] at h
  | earlier jK =>
    rcases w.earlierStep_cases cfg slots jK with ⟨-, n, hs⟩ | ⟨h0, -⟩
    · simp only [exec, hs, handOver_log, hlog, packetsSince_alloc]
      rw [packetsSince_handed k w.log (b := Worker.handed cfg _ jK) rfl]
    · simp [handsOver, h0] at h
  | scan | packet | startFlush | checkStarted => cases h

/-! ### Buffers and blocks -/

/-- The slots that the worker has been given and the buffers that it has fetched since it got slot number `k`. -/
def tally (k : Nat) (tr : List (Label UdpBuffer)) : Nat × List UdpBuffer :=
  tr.foldl (fun (n, bufs) l =>
    match l with
    | .call (.fetchEmptyBuffer .producer _) => (n + 1, if n + 1 = k then [] else bufs)
    | .input b => (n, bufs ++ [b])
    | _ => (n, bufs)) (0, [])

/-- The number of slots that the worker has been given. -/
def slotsGiven (tr : List (Label UdpBuffer)) : Nat := (tally 0 tr).1

/-- The buffers that the worker has fetched while block `k` was local. -/
def buffersSince (k : Nat) (tr : List (Label UdpBuffer)) : List UdpBuffer := (tally k tr).2

section Tally
variable (k : Nat) (tr : List (Label UdpBuffer))

theorem tally_fst : (tally k tr).1 = slotsGiven tr := by
  induction tr using List.reverseRecOn with
  | nil => rfl
  | append_singleton tr l ih =>
    rw [slotsGiven, tally, tally, List.foldl_append, List.foldl_append]
    rw [slotsGiven, tally, tally] at ih
    simp only [List.foldl_cons, List.foldl_nil, ih]
    split <;> rfl

@[simp] theorem slotsGiven_fetch (index : Nat) :
    slotsGiven (tr ++ [.call (.fetchEmptyBuffer .producer index)]) = slotsGiven tr + 1 := by
  simp [slotsGiven, tally]
@[simp] theorem buffersSince_fetch (index : Nat) :
    buffersSince k (tr ++ [.call (.fetchEmptyBuffer .producer index)]) =
      if slotsGiven tr + 1 = k then [] else buffersSince k tr := by
  rw [← tally_fst k tr]
  simp [buffersSince, tally]
@[simp] theorem slotsGiven_input (b : UdpBuffer) : slotsGiven (tr ++ [.input b]) = slotsGiven tr := by
  simp [slotsGiven, tally]
@[simp] theorem buffersSince_input (b : UdpBuffer) :
    buffersSince k (tr ++ [.input b]) = buffersSince k tr ++ [b] := by
  simp [buffersSince, tally]

end Tally

/-- The step gives the worker neither a slot nor a buffer. -/
def Label.isIdle : Label UdpBuffer → Bool
  | .call (.fetchEmptyBuffer .producer _) => false
  | .input _ => false
  | _ => true

section Idle
variable {l : Label UdpBuffer} (h : l.isIdle = true) (tr : List (Label UdpBuffer))
include h

theorem tally_idle (k : Nat) : tally k (tr ++ [l]) = tally k tr := by
  simp only [tally, List.foldl_append, List.foldl_cons, List.foldl_nil]
  cases l with
  | input => cases h
  | call a =>
    cases a with
    | fetchEmptyBuffer t =>
      cases t with
      | producer => cases h
      | consumer => rfl
    | _ => rfl
  | silent | interrupt => rfl

theorem inputs_idle : inputs (tr ++ [l]) = inputs tr := by
  rw [inputs_append]
  cases l with
  | input => cases h
  | call | silent | interrupt => exact List.append_nil _

end Idle

namespace FilePool

variable {fileBuff : FileBuff} {data : Nat → Nat → UInt8} {dataLen : Nat → Nat} {tr : List (Label UdpBuffer)}
  {s s' : State} {l : Label UdpBuffer}

/-! ### The worker on its buffers -/

/-- The worker has run its program on the buffers of the run but for the instructions `rest`. -/
structure Progress (cfg : Config) (u : Uninit) (tr : List (Label UdpBuffer)) (w : Worker) (rest : List Instr) :
    Prop where
  program : ∃ slots is, is ++ rest = program (inputs tr) ∧ w = workerAfter cfg slots u is
  iteration : ∃ packets, rest <:+ iteration packets
  given : slotsGiven tr + 1 = w.nextOrder
  since : ∀ k, (buffersSince k tr).flatMap UdpBuffer.packets = packetsSince k w.log ++ rest.filterMap Instr.packet?

theorem Progress.idle (h : Progress cfg u tr w rest) (hl : l.isIdle = true) : Progress cfg u (tr ++ [l]) w rest where
  program := inputs_idle hl tr ▸ h.program
  iteration := h.iteration
  given := by
    rw [slotsGiven, tally_idle hl]
    exact h.given
  since k := by
    rw [buffersSince, tally_idle hl]
    exact h.since k

theorem Progress.buffer (h : Progress cfg u tr w []) (b : UdpBuffer) :
    Progress cfg u (tr ++ [.input b]) w (VoltRec.iteration b.packets) where
  program := by
    obtain ⟨slots, is, hprog, hw⟩ := h.program
    refine ⟨slots, is, ?_, hw⟩
    rw [List.append_nil] at hprog
    rw [inputs_append, hprog, VoltRec.program, VoltRec.program, List.flatMap_append]
    exact congrArg _ (List.flatMap_singleton ..).symm
  iteration := ⟨b.packets, List.suffix_rfl⟩
  given := by
    rw [slotsGiven_input]
    exact h.given
  since k := by
    have hk := h.since k
    rw [List.filterMap_nil, List.append_nil] at hk
    rw [buffersSince_input, List.flatMap_append, hk, List.flatMap_singleton, packets_iteration]

theorem Progress.instr (h : Progress cfg u tr w (i :: rest)) (hi : w.handsOver i = none) (slots' : Nat → Nat) :
    Progress cfg u tr (w.exec cfg slots' i) rest where
  program := by
    obtain ⟨slots, is, hprog, hw⟩ := h.program
    refine ⟨slots, is ++ [i], by simpa using hprog, ?_⟩
    rw [workerAfter_snoc, ← hw]
    exact Worker.exec_congr fun hne => absurd hi hne
  iteration := by
    obtain ⟨packets, hs⟩ := h.iteration
    exact ⟨packets, (List.suffix_cons i rest).trans hs⟩
  given := (Worker.exec_none hi).1.symm ▸ h.given
  since k := by
    rw [Worker.packetsSince_exec_none hi, h.since k, List.filterMap_cons]
    cases i.packet? <;> simp

theorem Progress.swap (h : Progress cfg u tr w (i :: rest)) {iK : Fin 6} (hi : w.handsOver i = some iK)
    (index : Nat) :
    Progress cfg u (tr ++ [.call (.fetchEmptyBuffer .producer index)]) (w.exec cfg (fun _ => index) i) rest where
  program := by
    obtain ⟨slots, is, hprog, hw⟩ := h.program
    refine ⟨Function.update slots w.nextOrder index, is ++ [i], ?_, ?_⟩
    · rw [inputs_append]
      simpa [Label.input?] using hprog
    · have hsame : workerAfter cfg (Function.update slots w.nextOrder index) u is = w := by
        rw [hw]
        refine (workerAfter_congr fun k hk => ?_).symm
        rw [Function.update_of_ne (Nat.ne_of_lt hk)]
      rw [workerAfter_snoc, hsame]
      exact Worker.exec_congr fun _ => by simp
  iteration := by
    obtain ⟨packets, hs⟩ := h.iteration
    exact ⟨packets, (List.suffix_cons i rest).trans hs⟩
  given := by
    rw [slotsGiven_fetch, (Worker.exec_some hi).1, h.given]
  since k := by
    obtain ⟨packets, hs⟩ := h.iteration
    have hflush := isFlush_of_handsOver hi
    have hrest := packets_of_flush hs hflush
    have hk := h.since k
    have hnone : i.packet? = none := by
      cases i with
      | packet => cases hflush
      | scan | startFlush | full | checkStarted | earlier => rfl
    rw [List.filterMap_cons, hnone, hrest, List.append_nil] at hk
    rw [buffersSince_fetch, Worker.packetsSince_exec_some hi, hrest, List.append_nil, h.given]
    split
    · rfl
    · exact hk

/-- What the worker has done fits where it stands. -/
def Processes (cfg : Config) (u : Uninit) (tr : List (Label UdpBuffer)) : WorkerAt → Prop
  | .fetching slots => inputs tr = [] ∧ slotsGiven tr = slots.length ∧ ∀ k, buffersSince k tr = []
  | .running w rest => Progress cfg u tr w rest
  | .waiting w => Progress cfg u tr w []
  | .returning w i rest => w.handsOver i ≠ none ∧ Progress cfg u tr w (i :: rest)
  | .swapping w i rest => w.handsOver i ≠ none ∧ Progress cfg u tr w (i :: rest)
  | .closing w _ => Progress cfg u tr w []
  | .noSlot => True
  | .returned => True

theorem Processes.idle {pos : WorkerAt} (h : Processes cfg u tr pos) (hl : l.isIdle = true) :
    Processes cfg u (tr ++ [l]) pos := by
  cases pos with
  | fetching slots =>
    obtain ⟨hin, hgiven, hsince⟩ := h
    refine ⟨(inputs_idle hl tr).trans hin, ?_, fun k => ?_⟩
    · rw [slotsGiven, tally_idle hl]
      exact hgiven
    · rw [buffersSince, tally_idle hl]
      exact hsince k
  | running | waiting | closing => exact Progress.idle h hl
  | returning | swapping => exact ⟨h.1, h.2.idle hl⟩
  | noSlot | returned => trivial

theorem progress_start {slots : List Nat} (h : Processes cfg u tr (.fetching slots))
    (hlen : slots.length = nFileBuffersAtATime) : Progress cfg u tr (.start cfg (firstSlots slots) u) [] where
  program := ⟨_, [], by rw [h.1]; rfl, rfl⟩
  iteration := ⟨[], List.nil_suffix⟩
  given := by
    rw [h.2.1, hlen]
    rfl
  since k := by
    rw [h.2.2 k, List.filterMap_nil, List.append_nil]
    exact (packetsSince_allocs _ _ k _).symm

theorem Processes.turn {pos pos' : WorkerAt} {k k' : Bool} (h : Processes cfg u tr pos)
    (ht : WorkerTurn cfg u k pos l k' pos') : Processes cfg u (tr ++ [l]) pos' := by
  cases ht with
  | fetchFirst =>
    obtain ⟨hin, hgiven, hsince⟩ := h
    refine ⟨by rw [inputs_append, hin]; rfl, by rw [slotsGiven_fetch, hgiven, List.length_append]; rfl, fun k => ?_⟩
    rw [buffersSince_fetch, hsince k]
    split <;> rfl
  | start all => exact (progress_start h all).idle rfl
  | buffer => exact Progress.buffer h _
  | instr hi slots => exact (Progress.instr h hi slots).idle rfl
  | returnBuffer hi => exact ⟨by simp [hi], Progress.idle h rfl⟩
  | ready => exact ⟨h.1, h.2.idle rfl⟩
  | fetchNext =>
    obtain ⟨iK, hi⟩ := Option.ne_none_iff_exists'.mp h.1
    exact h.2.swap hi _
  | noFirst | closed => trivial
  | writeFirst | goOn | leave | noBuffer | write | integrity | noNext | returnEmptyBuffer | closingIntegrity =>
    exact h.idle rfl

theorem writer_isIdle {c c' : WriterAt} {k k' : Bool} (h : WriterTurn k c l k' c') : l.isIdle = true := by
  cases h <;> rfl

theorem processes (hr : Lts.Run (Step cfg u) (init fileBuff data dataLen) tr s) : Processes cfg u tr s.producer := by
  refine hr.invariant (I := fun tr s => Processes cfg u tr s.producer) ?_ ?_
  · exact ⟨rfl, rfl, fun _ => rfl⟩
  · rintro tr ⟨p, k, wk, wr⟩ l s' - ih hs
    cases hs with
    | interrupt => exact ih.idle rfl
    | producer ht => exact ih.turn ht
    | consumer ht => exact ih.idle (writer_isIdle ht)

end FilePool
end VoltRec
