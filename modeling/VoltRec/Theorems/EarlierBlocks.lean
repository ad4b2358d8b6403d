import VoltRec.Theorems.InStep

/-! When the loop over earlier blocks hands an unfinished block over. Its reference is the packet number in
    `lastSentPacketNo`: that of the last block found full, or the middle of the window when most blocks
    were started. A block is handed over too soon when that variable was never set, or when the counter
    wrapped between the reference and a newer block. -/

namespace VoltRec

variable {cfg : Config} {slots : Nat → Nat} {u : Uninit} {w : Worker} {bufs : List UdpBuffer}

/-! ### The reference -/

/-- The order that an event makes the reference. -/
def Event.reference : Event → Option Nat
  | .full b => some b.order
  | .mostlyStarted nextOrder => some (nextOrder - nFileBuffersAtATime / 2)
  | _ => none

/-- The reference block of `lastSentPacketNo`, if the variable was ever set. -/
def reference (log : List Event) : Option Nat := (log.filterMap Event.reference).getLast?

/-- Block `k` is older than a block found full, or than the middle of a window with most blocks started. -/
def Superseded (log : List Event) (k : Nat) : Prop :=
  (∃ f, .full f ∈ log ∧ k < f.order) ∨ ∃ n, .mostlyStarted n ∈ log ∧ k < n - nFileBuffersAtATime / 2

/-- Every block that the loop over earlier blocks handed over was superseded by then. -/
def NonePremature (log : List Event) : Prop :=
  ∀ pre b suf, log = pre ++ .early b :: suf → Superseded pre b.order

theorem reference_append_of_none {log : List Event} {es : List Event} (h : ∀ e ∈ es, e.reference = none) :
    reference (log ++ es) = reference log := by
  have : es.filterMap Event.reference = [] := by simpa [List.filterMap_eq_nil_iff] using h
  simp [reference, this]

theorem reference_append_of_some {log : List Event} {e : Event} {r : Nat} (h : e.reference = some r) :
    reference (log ++ [e]) = some r := by
  simp [reference, h]

theorem reference_append_handed {log : List Event} {e e' : Event} {r : Nat} (h : e.reference = some r)
    (h' : e'.reference = none) : reference (log ++ [e, e']) = some r := by
  simp [reference, h, h']

theorem superseded_of_reference {log : List Event} {r k : Nat} (h : reference log = some r) (hk : k < r) :
    Superseded log k := by
  obtain ⟨e, he, hr⟩ := List.mem_filterMap.mp (List.mem_of_getLast? h)
  cases e with
  | full b =>
    cases hr
    exact Or.inl ⟨b, he, hk⟩
  | mostlyStarted n =>
    cases hr
    exact Or.inr ⟨n, he, hk⟩
  | packet | alloc | early => cases hr

theorem Superseded.append {log es : List Event} {k : Nat} (h : Superseded log k) : Superseded (log ++ es) k := by
  rcases h with ⟨f, hf, hk⟩ | ⟨n, hn, hk⟩
  · exact Or.inl ⟨f, List.mem_append_left _ hf, hk⟩
  · exact Or.inr ⟨n, List.mem_append_left _ hn, hk⟩

theorem NonePremature.append {log : List Event} {e : Event} (h : NonePremature log)
    (he : ∀ b, e = .early b → Superseded log b.order) : NonePremature (log ++ [e]) := by
  intro pre b suf heq
  rcases List.eq_nil_or_concat suf with rfl | ⟨suf, e', rfl⟩
  · obtain ⟨rfl, hb⟩ := List.append_inj' heq rfl
    exact he b (List.head_eq_of_cons_eq hb)
  · have heq' : log ++ [e] = (pre ++ .early b :: suf) ++ [e'] := by simpa using heq
    exact h pre b suf (List.append_inj' heq' rfl).1

/-- `lastSentPacketNo` holds the packet number of the reference block: as that block has it, or reduced to
    38 bits where it was computed as the middle of the window. -/
def Referenced (w : Worker) : Prop :=
  ∀ r, reference w.log = some r → 1 ≤ r ∧
    (w.lastSentPacketNo = blockNo w.packetStart r ∨
      w.lastSentPacketNo = ((w.packetStart + (r - 1) * timeIntPerBuffer) % 2 ^ 38 : Nat))

theorem Referenced.of_log {w' : Worker} (h : Referenced w) {es : List Event} (hlog : w'.log = w.log ++ es)
    (hes : ∀ e ∈ es, e.reference = none) (hlast : w'.lastSentPacketNo = w.lastSentPacketNo)
    (hstart : w'.packetStart = w.packetStart) : Referenced w' := by
  intro r hr
  rw [hlog, reference_append_of_none hes] at hr
  rw [hlast, hstart]
  exact h r hr

theorem Referenced.checkStarted (h : Referenced w) (ho : Ordered w) (hn : Numbered w) :
    Referenced w.checkStarted := by
  rcases w.checkStarted_cases with ⟨-, hs⟩ | ⟨-, hs⟩ <;> rw [hs]
  · intro r hr
    rw [reference_append_of_some (r := w.nextOrder - 3) rfl] at hr
    cases hr
    have h7 := ho.next
    refine ⟨by omega, Or.inr (congrArg (Nat.cast (R := Int)) ?_)⟩
    have := hn.next
    simp only [timeIntPerBuffer] at this ⊢
    omega
  · exact h

theorem Referenced.fullStep (h : Referenced w) (ho : Ordered w) (hn : Numbered w) (iK : Fin 6) :
    Referenced (w.fullStep cfg slots iK) := by
  rcases w.fullStep_cases cfg slots iK with ⟨-, hs⟩ | ⟨-, hs⟩ <;> rw [hs]
  · intro r hr
    rw [Worker.handOver_log, reference_append_handed (r := (w.localStruct iK).order) rfl rfl] at hr
    cases hr
    exact ⟨ho.pos iK, Or.inl (congrArg _ (hn.packetNo iK))⟩
  · exact h

theorem Referenced.earlierStep (h : Referenced w) (iK : Fin 6) : Referenced (w.earlierStep cfg slots iK) := by
  rcases w.earlierStep_cases cfg slots iK with ⟨-, n, hs⟩ | ⟨-, hs⟩ <;> rw [hs]
  · exact h.of_log rfl (by simp [Event.reference]) rfl rfl
  · exact h

theorem Reached.referenced (hw : Reached cfg slots u bufs w) : Referenced w := by
  have start : reference (Worker.start cfg slots u).log = none := by
    simp [reference, Worker.start, Event.reference]
  suffices h : (w.firstLoopDone = false → reference w.log = none) ∧ Referenced w from h.2
  refine hw.induction (I := fun w => (w.firstLoopDone = false → reference w.log = none) ∧ Referenced w)
    ⟨fun _ => start, fun r hr => by rw [start] at hr; cases hr⟩ ?_ ?_ ?_ ?_ ?_ ?_
  · rintro w packets - - hd ⟨h, -⟩
    have hlog : (w.firstScan cfg packets).log = w.log := by simp [Worker.firstScan, hd]
    exact ⟨fun _ => hlog ▸ h hd, fun r hr => by rw [hlog, h hd] at hr; cases hr⟩
  · rintro w p - hd ⟨-, h⟩
    obtain ⟨-, h1, -, h2, -, h3, h4⟩ := w.packetStep_frame cfg p
    exact ⟨fun h => by simp [h3, hd] at h, h.of_log h4 (by simp [Event.reference]) h2 h1⟩
  · rintro w - hd ⟨-, h⟩
    exact ⟨fun h => by simp [hd] at h, h⟩
  · rintro w iK hr hd ⟨-, h⟩
    exact ⟨fun h' => absurd (h'.symm.trans (Worker.exec_firstLoopDone cfg slots hd (.full iK)).1)
      Bool.false_ne_true, h.fullStep hr.ordered (hr.numbered hd) iK⟩
  · rintro w hr hd ⟨-, h⟩
    exact ⟨fun h' => absurd (h'.symm.trans (Worker.exec_firstLoopDone cfg slots hd .checkStarted).1)
      Bool.false_ne_true,
      h.checkStarted hr.ordered (hr.numbered hd)⟩
  · rintro w iK - hd ⟨-, h⟩
    exact ⟨fun h' => absurd (h'.symm.trans (Worker.exec_firstLoopDone cfg slots hd (.earlier iK)).1)
      Bool.false_ne_true, h.earlierStep iK⟩

/-! ### The comparison with the reference -/

/-- The whole periods of the counter that the thread took off the packet number of block `k`. -/
def periods (packetStart k : Nat) : Nat :=
  if k ≤ nFileBuffersAtATime then 0 else (packetStart + (k - 1) * timeIntPerBuffer) / 2 ^ 38

theorem blockNo_add_periods (packetStart k : Nat) :
    blockNo packetStart k + periods packetStart k * 2 ^ 38 = packetStart + (k - 1) * 128 := by
  rcases Nat.lt_or_ge 6 k with h | h
  · have hper : periods packetStart k = (packetStart + (k - 1) * 128) / 2 ^ 38 := if_neg (Nat.not_le_of_lt h)
    rw [blockNo_of_lt h, hper]
    exact Nat.mod_add_div' _ _
  · have hper : periods packetStart k = 0 := if_pos h
    rw [blockNo_of_le h, hper, Nat.zero_mul, Nat.add_zero]

/-- The test on numbers that are not negative, in the two cases of the source. -/
theorem isEarlier_iff {r p : Nat} (hr : r < 2 ^ 40) :
    isEarlier r p = true ↔ (3 < r ∧ p < r) ∨ (r ≤ 3 ∧ 2 ^ 37 ≤ p ∧ p < 2 ^ 38 - 4 + r) := by
  have hmask : ((pcktNoMask : Nat) : Int) = 2 ^ 38 - 1 := by decide
  have hhalf : pcktNoMask >>> 1 = 2 ^ 37 - 1 := by decide
  have hthree : ((nFileBuffersAtATime : Nat) : Int) / 2 = 3 := by decide
  simp only [isEarlier, hmask, hhalf, hthree, Bool.or_eq_true, Bool.and_eq_true, decide_eq_true_eq]
  omega

/-- A block that is not older than the reference, with no wrap of the counter between the two, is not
    taken for an earlier one. -/
theorem not_isEarlier {S r k : Nat} {L : Int} (hmod : S % timeIntPerBuffer = 0) (hS : S < 2 ^ 38) (hr : 1 ≤ r)
    (hk : r ≤ k) (hlt : k < r + 2 ^ 30) (hper : periods S k = periods S r)
    (hL : L = blockNo S r ∨ L = ((S + (r - 1) * timeIntPerBuffer) % 2 ^ 38 : Nat)) :
    isEarlier L (blockNo S k) = false := by
  have h1 := blockNo_add_periods S k
  have h2 := blockNo_add_periods S r
  rw [hper] at h1
  simp only [timeIntPerBuffer] at hmod hL
  have hsmall : blockNo S r < 2 ^ 39 := by
    rcases Nat.lt_or_ge 6 r with h | h
    · rw [blockNo_of_lt h]
      omega
    · rw [blockNo_of_le h]
      omega
  rw [Bool.eq_false_iff]
  intro h
  rcases hL with rfl | rfl
  · rw [isEarlier_iff (by omega)] at h
    omega
  · rw [isEarlier_iff (by omega)] at h
    omega

/-- The reference can be relied on for the six local blocks: it was set, and no block that is not older
    lies behind a wrap of the counter; or it was not set yet and selects nothing. -/
def Reliable (w : Worker) : Prop :=
  match reference w.log with
  | none => ∀ iK, isEarlier w.lastSentPacketNo (w.localStruct iK).packetNo = false
  | some r => ∀ iK, r ≤ (w.localStruct iK).order →
      (w.localStruct iK).order < r + 2 ^ 30 ∧ periods w.packetStart (w.localStruct iK).order = periods w.packetStart r

theorem Reliable.superseded (h : Reliable w) (hn : Numbered w) (href : Referenced w) {iK : Fin 6}
    (he : isEarlier w.lastSentPacketNo (w.localStruct iK).packetNo = true) :
    Superseded w.log (w.localStruct iK).order := by
  unfold Reliable at h
  cases hr : reference w.log with
  | none =>
    simp only [hr] at h
    simp [h iK] at he
  | some r =>
    simp only [hr] at h
    rcases Nat.lt_or_ge (w.localStruct iK).order r with hlt | hge
    · exact superseded_of_reference hr hlt
    · obtain ⟨h1, h2⟩ := h iK hge
      obtain ⟨h3, h4⟩ := href r hr
      rw [hn.packetNo, not_isEarlier hn.start_mod hn.start_lt h3 hge h1 h2 h4] at he
      cases he

/-! ### Runs -/

/-- The loop over earlier blocks visits each local block as it was when the loop started. -/
theorem nonePremature_sendEarlier (l : List (Fin 6)) (hl : l.Nodup) (h : NonePremature w.log)
    (hs : ∀ iK ∈ l, isEarlier w.lastSentPacketNo (w.localStruct iK).packetNo = true →
      Superseded w.log (w.localStruct iK).order) :
    NonePremature ((l.map Instr.earlier).foldl (Worker.exec cfg slots) w).log := by
  induction l generalizing w with
  | nil => exact h
  | cons iK l ih =>
    obtain ⟨hnot, hl⟩ := List.nodup_cons.mp hl
    simp only [List.map_cons, List.foldl_cons]
    show NonePremature ((l.map Instr.earlier).foldl (Worker.exec cfg slots) (w.earlierStep cfg slots iK)).log
    rcases w.earlierStep_cases cfg slots iK with ⟨he, n, hstep⟩ | ⟨-, hstep⟩ <;> rw [hstep]
    · refine ih hl ?_ fun jK hj hej => ?_
      · have hb := hs iK List.mem_cons_self he
        rw [Worker.handOver_log, show ∀ a b : Event, w.log ++ [a, b] = (w.log ++ [a]) ++ [b] by simp]
        refine (h.append fun b hb' => ?_).append fun b hb' => by cases hb'
        cases hb'
        exact hb
      · have hne : jK ≠ iK := fun heq => hnot (heq ▸ hj)
        rw [Worker.handOver_localStruct, Function.update_of_ne hne] at hej ⊢
        exact (hs jK (List.mem_cons_of_mem _ hj) hej).append
    · exact ih hl h fun jK hj => hs jK (List.mem_cons_of_mem _ hj)

/-- Only the loop over earlier blocks hands over blocks that may be unfinished. -/
theorem NonePremature.exec (h : NonePremature w.log) {i : Instr} (hi : ∀ iK, i ≠ .earlier iK) :
    NonePremature (w.exec cfg slots i).log := by
  have keep : ∀ {e : Event}, (∀ b, e ≠ .early b) → NonePremature (w.log ++ [e]) :=
    fun he => h.append fun b hb => absurd hb (he b)
  cases i with
  | scan packets =>
    simp only [Worker.exec, Worker.firstScan]
    split <;> exact h
  | packet p =>
    show NonePremature (w.packetStep cfg p).log
    rw [(w.packetStep_frame cfg p).2.2.2.2.2.2]
    exact keep (by simp)
  | startFlush => exact h
  | full iK =>
    show NonePremature (w.fullStep cfg slots iK).log
    rcases w.fullStep_cases cfg slots iK with ⟨-, hs⟩ | ⟨-, hs⟩ <;> rw [hs]
    · rw [Worker.handOver_log, show ∀ a b : Event, w.log ++ [a, b] = (w.log ++ [a]) ++ [b] by simp]
      exact (keep (by simp)).append fun b hb => by cases hb
    · exact h
  | checkStarted =>
    show NonePremature w.checkStarted.log
    rcases w.checkStarted_cases with ⟨-, hs⟩ | ⟨-, hs⟩ <;> rw [hs]
    · exact keep (by simp)
    · exact h
  | earlier iK => exact absurd rfl (hi iK)

theorem NonePremature.foldl {is : List Instr} (h : NonePremature w.log) (hi : ∀ iK, Instr.earlier iK ∉ is) :
    NonePremature (is.foldl (Worker.exec cfg slots) w).log := by
  induction is generalizing w with
  | nil => exact h
  | cons i is ih =>
    exact ih (h.exec fun iK heq => hi iK (heq ▸ List.mem_cons_self)) fun iK hm => hi iK (List.mem_cons_of_mem _ hm)

/-- The thread before the loop over earlier blocks of the iteration on `b`. -/
def beforeEarlier (cfg : Config) (slots : Nat → Nat) (u : Uninit) (pre : List UdpBuffer) (b : UdpBuffer) : Worker :=
  workerAfter cfg slots u (program pre ++ takeIn b.packets ++ sendFull)

theorem beforeEarlier_firstLoopDone (cfg : Config) (slots : Nat → Nat) (u : Uninit) (pre : List UdpBuffer)
    (b : UdpBuffer) : (beforeEarlier cfg slots u pre b).firstLoopDone = true := by
  rw [beforeEarlier, List.append_assoc, workerAfter_append]
  exact (Worker.foldl_firstLoopDone cfg slots (Worker.firstScan_firstLoopDone ..) _).1

theorem program_append (bufs bufs' : List UdpBuffer) : program (bufs ++ bufs') = program bufs ++ program bufs' :=
  List.flatMap_append

theorem program_singleton {b : UdpBuffer} (h : b.packets ≠ []) :
    program [b] = takeIn b.packets ++ sendFull ++ sendEarlier := by
  simp [program, iteration, h]

/-- No block is handed over too soon in a run whose every iteration finds the reference reliable. -/
theorem nonePremature_of_reliable (cfg : Config) (slots : Nat → Nat) (u : Uninit) (bufs : List UdpBuffer)
    (h : ∀ pre b post, bufs = pre ++ b :: post → b.packets ≠ [] → Reliable (beforeEarlier cfg slots u pre b)) :
    NonePremature (workerWork cfg slots u bufs).log := by
  induction bufs using List.reverseRecOn with
  | nil =>
    intro pre b suf heq
    have : Event.early b ∈ (Worker.start cfg slots u).log := by
      have hlog : (workerWork cfg slots u []).log = (Worker.start cfg slots u).log := rfl
      rw [← hlog, heq]
      simp
    simp [Worker.start] at this
  | append_singleton bufs b ih =>
    have ih := ih fun pre c post heq => h pre c (post ++ [b]) (by simp [heq])
    rw [workerWork, program_append]
    by_cases hb : b.packets = []
    · have hnil : program [b] = [] := by simp [program, iteration, hb]
      rw [hnil, List.append_nil]
      exact ih
    · have hr : Reached cfg slots u (bufs ++ [b]) (beforeEarlier cfg slots u bufs b) := by
        refine ⟨_, ?_, rfl⟩
        rw [program_append, program_singleton hb, List.append_assoc]
        exact (List.prefix_append_right_inj _).mpr (List.prefix_append _ _)
      have hfull : NonePremature (beforeEarlier cfg slots u bufs b).log := by
        rw [beforeEarlier, List.append_assoc, workerAfter_append]
        exact ih.foldl (by simp [takeIn, sendFull])
      rw [program_singleton hb, ← List.append_assoc, ← List.append_assoc, workerAfter_append]
      refine nonePremature_sendEarlier _ (List.nodup_finRange 6) hfull fun iK _ he => ?_
      exact (h bufs b [] rfl hb).superseded (hr.numbered (beforeEarlier_firstLoopDone ..)) hr.referenced he

def Event.isEarly : Event → Bool
  | .early _ => true
  | _ => false

theorem reliable_fiveStarted : Reliable (workerAfter singleChannel id zeroed (takeIn fivePackets ++ sendFull)) := by
  have hsome : reference (workerAfter singleChannel id zeroed (takeIn fivePackets ++ sendFull)).log = some 4 := by
    decide +kernel
  simp only [Reliable, hsome]
  decide +kernel

/-- The check for mostly started blocks sets the reference, and three blocks are handed over. -/
theorem nonePremature_of_reliable_fiveStarted :
    (workerWork singleChannel id zeroed [fiveStarted]).log.countP Event.isEarly = 3 ∧
      NonePremature (workerWork singleChannel id zeroed [fiveStarted]).log := by
  refine ⟨?_, nonePremature_of_reliable singleChannel id zeroed [fiveStarted] fun pre b post heq _ => ?_⟩
  · rw [workerWork, program_fiveStarted]
    decide +kernel
  · obtain ⟨rfl, rfl⟩ := singleton_split heq
    rw [beforeEarlier, packets_fiveStarted]
    exact reliable_fiveStarted

/-! ### An unset reference -/

theorem Superseded.exists_reference {log : List Event} {k : Nat} (h : Superseded log k) :
    ∃ e ∈ log, e.reference.isSome = true := by
  rcases h with ⟨f, hf, -⟩ | ⟨n, hn, -⟩
  · exact ⟨_, hf, rfl⟩
  · exact ⟨_, hn, rfl⟩

/-- The first iteration then hands over all six blocks, just allocated, with nothing found full. -/
theorem staleReference_premature : ¬NonePremature (workerWork singleChannel id staleReference [firstPacket]).log := by
  intro h
  rw [workerWork, program_firstPacket] at h
  -- Six allocations and a packet come first, then the first block is handed over as an earlier one.
  have hseven :
      (workerAfter singleChannel id staleReference (iteration [.numbered 0])).log[7]?.any Event.isEarly = true := by
    decide +kernel
  have hpre : ((workerAfter singleChannel id staleReference (iteration [.numbered 0])).log.take 7).all
      (fun e => !e.reference.isSome) = true := by
    decide +kernel
  obtain ⟨e, he, hearly⟩ := Option.any_eq_true _ _ |>.mp hseven
  cases e with
  | early b =>
    obtain ⟨hlt, hget⟩ := List.getElem?_eq_some_iff.mp he
    have hsplit := List.take_append_drop 7 (workerAfter singleChannel id staleReference (iteration [.numbered 0])).log
    rw [List.drop_eq_getElem_cons hlt, hget] at hsplit
    obtain ⟨e, hmem, hsome⟩ := (h _ b _ hsplit.symm).exists_reference
    have := List.all_eq_true.mp hpre e hmem
    simp [hsome] at this
  | packet | alloc | full | mostlyStarted => cases hearly

end VoltRec
