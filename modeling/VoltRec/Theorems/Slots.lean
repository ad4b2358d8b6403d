import VoltRec.Theorems.Processing
import VoltRec.Theorems.Shutdown

/-! The slots of the file pool, counted. The worker has six of them, and five while it asks for the next one, so it
    finds none empty only while the other fifteen are with the file writer or wait for it. Once that has left its
    loop, no more than twelve blocks come. -/

namespace VoltRec

/-! ### One action on the pool -/

section Exec
variable {T : Type} [DecidableEq T] {p p' : Pool T} {a : Act T}

/-- An action changes one mark at most. -/
theorem Pool.Exec.countP_orderNo (he : p.Exec a p') (q : Int → Bool) :
    p'.buff.orderNo.countP q + a.mark.elim 0 (fun m => (q m.2.1).toNat) =
      p.buff.orderNo.countP q + a.mark.elim 0 fun m => (q m.2.2).toNat := by
  rcases he.mark_cases with ⟨hnone, hsame⟩ | ⟨index, old, new, hmark, hold, hset⟩
  · rw [hnone, hsame]
    rfl
  · obtain ⟨hlt, rfl⟩ := List.getElem?_eq_some_iff.mp hold
    have hpos : (q p.buff.orderNo[index]).toNat ≤ p.buff.orderNo.countP q := by
      cases hq : q p.buff.orderNo[index] with
      | false => exact Nat.zero_le _
      | true => exact List.countP_pos_iff.mpr ⟨_, List.getElem_mem hlt, hq⟩
    have hcount := List.countP_set (p := q) (a := new) hlt
    rw [hmark, hset, hcount]
    simp only [Option.elim_some, Bool.toNat, Bool.cond_eq_ite] at hpos ⊢
    omega

end Exec

/-- A slot is empty, published or in use. -/
theorem countP_marks {no : List Int} (h : ∀ o ∈ no, o = 0 ∨ 0 < o ∨ o = -1) :
    no.countP (· = 0) + readySlots no + no.countP (· = -1) = no.length := by
  induction no with
  | nil => rfl
  | cons o no ih =>
    have ih := ih fun o' ho' => h o' (List.mem_cons_of_mem _ ho')
    rw [readySlots] at ih ⊢
    rcases h o List.mem_cons_self with rfl | hpos | rfl
    · simp
      omega
    · have h0 : o ≠ 0 := by omega
      have h1 : o ≠ -1 := by omega
      simp [hpos, h0, h1]
      omega
    · simp
      omega

/-- Whether a step puts a mark of the kind `q`, and whether it overwrites one. -/
def Label.marking {ε : Type} (q : Int → Bool) (l : Label ε) : Nat :=
  (l.act?.bind Act.mark).elim 0 fun m => (q m.2.2).toNat
def Label.unmarking {ε : Type} (q : Int → Bool) (l : Label ε) : Nat :=
  (l.act?.bind Act.mark).elim 0 fun m => (q m.2.1).toNat

theorem onPool_countP {ε : Type} {l : Label ε} {p p' : Pool Side} (h : l.OnPool p p') (q : Int → Bool) :
    p'.buff.orderNo.countP q + l.unmarking q = p.buff.orderNo.countP q + l.marking q := by
  rcases onPool_of_act h with ⟨a, rfl, he⟩ | ⟨hnone, rfl⟩
  · exact he.countP_orderNo q
  · rw [Label.unmarking, Label.marking, hnone]
    rfl

namespace FilePool

variable {cfg : Config} {u : Uninit} {fileBuff : FileBuff} {data : Nat → Nat → UInt8} {dataLen : Nat → Nat}
  {tr : List (Label UdpBuffer)} {s s' : State} {l : Label UdpBuffer} {k k' : Bool}

/-! ### Slots in use -/

/-- The number of slots that the worker has; it never stands where a first call has failed. -/
def WorkerAt.slotsHeld : WorkerAt → Nat
  | .fetching slots => slots.length
  | .noSlot => 0
  | .running _ _ => 6
  | .waiting _ => 6
  | .returning _ _ _ => 5
  | .swapping _ _ _ => 5
  | .closing _ iK => 6 - iK
  | .returned => 0

def WriterAt.slotsHeld : WriterAt → Nat
  | .holding _ _ => 1
  | _ => 0

theorem WorkerTurn.slotsHeld {pos pos' : WorkerAt} (h : WorkerTurn cfg u k pos l k' pos') (hno : pos' ≠ .noSlot) :
    pos'.slotsHeld + l.unmarking (· = -1) = pos.slotsHeld + l.marking (· = -1) := by
  cases h with
  | fetchFirst => simp [WorkerAt.slotsHeld, Label.marking, Label.unmarking, Label.act?, Act.mark]
  | noFirst => exact absurd rfl hno
  | start all =>
    simpa [WorkerAt.slotsHeld, Label.marking, Label.unmarking, Label.act?, nFileBuffersAtATime] using all.symm
  | returnBuffer => simp [WorkerAt.slotsHeld, Label.marking, Label.unmarking, Label.act?, Act.mark]
  | returnEmptyBuffer =>
    simp [WorkerAt.slotsHeld, Label.marking, Label.unmarking, Label.act?, Act.mark]
    omega
  | fetchNext => simp [WorkerAt.slotsHeld, Label.marking, Label.unmarking, Label.act?, Act.mark]
  | closed => rfl
  | writeFirst | goOn | leave | noBuffer | buffer | instr | write | integrity | ready | noNext | closingIntegrity => rfl

theorem WriterTurn.slotsHeld {pos pos' : WriterAt} (h : WriterTurn k pos l k' pos') :
    pos'.slotsHeld + l.unmarking (· = -1) = pos.slotsHeld + l.marking (· = -1) := by
  cases h with
  | fetchBufferTake b | returnBuffer | returnEmptyBuffer =>
    simp [WriterAt.slotsHeld, Label.marking, Label.unmarking, Label.act?, Act.mark]
    try omega
  | goOn | stopped | anyFull | leave | fetchBufferWait | waitOn | shut | takeNone | integrity | ready => rfl

/-- The slots in use are those of the two threads. -/
theorem inUse (hr : Lts.Run (Step cfg u) (init fileBuff data dataLen) tr s) :
    s.pool.buff.orderNo.countP (· = -1) = s.producer.slotsHeld + s.consumer.slotsHeld := by
  refine hr.invariant
    (I := fun _ s => s.pool.buff.orderNo.countP (· = -1) = s.producer.slotsHeld + s.consumer.slotsHeld) ?_ ?_
  · simp [init, Threads.init, Pool.init, initUdpBuff, WorkerAt.slotsHeld, WriterAt.slotsHeld, List.countP_replicate]
  · intro tr s l s' hr ih hs
    have hno := noSlot_unreached (hr.next hs)
    cases hs with
    | interrupt => exact ih
    | producer ht hp =>
      have h₁ := onPool_countP hp (· = -1)
      have h₂ := WorkerTurn.slotsHeld ht hno
      simp only at h₁ h₂ ih ⊢
      omega
    | consumer ht hp =>
      have h₁ := onPool_countP hp (· = -1)
      have h₂ := WriterTurn.slotsHeld ht
      simp only at h₁ h₂ ih ⊢
      omega

theorem countP_orderNo (hr : Lts.Run (Step cfg u) (init fileBuff data dataLen) tr s) :
    s.pool.buff.orderNo.countP (· = 0) + readySlots s.pool.buff.orderNo + s.pool.buff.orderNo.countP (· = -1) =
      nFileBuffers := by
  obtain ⟨holder, hk⟩ := kept hr
  have hlen : s.pool.buff.orderNo.length = nFileBuffers := length_orderNo hk.run
  rw [← hlen]
  refine countP_marks fun o ho => ?_
  obtain ⟨index, hlt, rfl⟩ := List.getElem_of_mem ho
  rcases Tracked.run hk.run hk.positive index _ (List.getElem?_eq_getElem hlt) with h | h | ⟨h, -⟩
  · exact Or.inl h
  · exact Or.inr (Or.inl h)
  · exact Or.inr (Or.inr h)

/-- The worker is left without a slot only while all others are published or with the file writer. -/
theorem ready_of_noEmpty (hr : Lts.Run (Step cfg u) (init fileBuff data dataLen) tr s)
    (hs : Step cfg u s (.call (.noEmpty .producer)) s') :
    readySlots s.pool.buff.orderNo + s.consumer.slotsHeld = nFileBuffers - 5 := by
  have hcount := countP_orderNo hr
  have hused := inUse hr
  have hno := noSlot_unreached (hr.next hs)
  obtain ⟨p, k, wk, wr⟩ := s
  obtain ⟨hnone, hheld⟩ : p.buff.fetchEmptyBuffer = none ∧ wk.slotsHeld = 5 := by
    cases hs with
    | consumer ht => cases ht
    | producer ht hp =>
      refine ⟨by cases hp; assumption, ?_⟩
      cases ht with
      | noFirst => exact absurd rfl hno
      | noNext => rfl
  have hzero : p.buff.orderNo.countP (· = 0) = 0 := by
    by_contra hne
    obtain ⟨b', index, hf, -⟩ := fetchEmptyBuffer_of_countP (Nat.pos_of_ne_zero hne)
    cases hnone.symm.trans hf
  simp only at hcount hused ⊢
  omega

/-! ### After the last test -/

/-- The instructions left that may hand a block over, and those of the buffer that the worker may still get. -/
def WorkerAt.flushesLeft : WorkerAt → Nat
  | .running _ rest => rest.countP Instr.isFlush
  | .waiting _ => 12
  | .returning _ _ rest => rest.countP Instr.isFlush
  | .swapping _ _ rest => rest.countP Instr.isFlush
  | _ => 0

theorem countP_iteration (packets : List Packet) : (iteration packets).countP Instr.isFlush ≤ 12 := by
  rw [iteration]
  split
  · exact Nat.zero_le _
  · have htake : (takeIn packets).countP Instr.isFlush = 0 := by
      simp [takeIn, List.countP_eq_zero, Instr.isFlush]
    rw [List.countP_append, List.countP_append, htake]
    decide

/-- Once `keep_going` is 0, each block that the worker publishes is one less to come. -/
theorem WorkerTurn.flushesLeft {pos pos' : WorkerAt} (h : WorkerTurn cfg u false pos l k' pos') :
    k' = false ∧ pos'.flushesLeft + l.marking (0 < ·) ≤ pos.flushesLeft + l.unmarking (0 < ·) := by
  cases h with
  | fetchFirst | fetchNext | returnEmptyBuffer =>
    simp [WorkerAt.flushesLeft, Label.marking, Label.unmarking, Label.act?, Act.mark]
  | @instr _ _ _ rest =>
    exact ⟨rfl, (List.sublist_cons_self _ rest).countP_le⟩
  | buffer => exact ⟨rfl, countP_iteration _⟩
  | @returnBuffer _ w i rest iK _ hi =>
    refine ⟨rfl, ?_⟩
    have hle : (decide (0 < ((w.localStruct iK).order : Int))).toNat ≤ 1 := Bool.toNat_le _
    simp only [WorkerAt.flushesLeft, Label.marking, Label.unmarking, Label.act?, Act.mark, Option.bind_some,
      Option.elim_some, List.countP_cons_of_pos (isFlush_of_handsOver hi)]
    omega
  | noBuffer => exact ⟨rfl, Nat.zero_le _⟩
  | noFirst | writeFirst | start | leave | write | integrity | ready | noNext | closingIntegrity | closed =>
    exact ⟨rfl, Nat.le_refl _⟩

/-- The file writer has left its loop: the blocks that are published and those to come. -/
structure Late (s : State) : Prop where
  stopped : s.keepGoing = false
  few : readySlots s.pool.buff.orderNo + s.producer.flushesLeft ≤ 12

theorem Late.step {f : FileWriter} (h : Late s) (hf : s.consumer = .returned f) (hs : Step cfg u s l s') : Late s' := by
  obtain ⟨p, k, wk, wr⟩ := s
  obtain ⟨rfl, hfew⟩ := h
  cases hs with
  | interrupt => exact ⟨rfl, hfew⟩
  | producer ht hp =>
    have h₁ := onPool_countP hp (0 < ·)
    obtain ⟨rfl, h₂⟩ := WorkerTurn.flushesLeft ht
    refine ⟨rfl, ?_⟩
    simp only [readySlots] at h₁ h₂ hfew ⊢
    omega
  | consumer ht =>
    cases hf
    cases ht

/-- Where the worker stands, no more than the blocks of one iteration are to come. -/
theorem flushesLeft_le (hr : Lts.Run (Step cfg u) (init fileBuff data dataLen) tr s) :
    s.producer.flushesLeft + (if s.pool.publishing = none then 0 else 1) ≤ 12 ∨ s.pool.publishing = some .consumer := by
  have hsuffix : ∀ {rest : List Instr} {packets : List Packet}, rest <:+ iteration packets →
      rest.countP Instr.isFlush ≤ 12 := fun hs => hs.sublist.countP_le.trans (countP_iteration _)
  have hworker := (engaged hr).worker
  have hproc := processes hr
  cases hpub : s.pool.publishing with
  | none =>
    refine Or.inl ?_
    cases hpos : s.producer with
    | running w rest =>
      rw [hpos] at hproc
      obtain ⟨packets, hs⟩ := Progress.iteration hproc
      exact hsuffix hs
    | returning w i rest | swapping w i rest =>
      rw [hpos] at hproc
      obtain ⟨packets, hs⟩ := hproc.2.iteration
      exact hsuffix ((List.suffix_cons i rest).trans hs)
    | waiting => exact Nat.le_refl _
    | fetching | noSlot | closing | returned => exact Nat.zero_le _
  | some t =>
    cases t with
    | consumer => exact Or.inr rfl
    | producer =>
      refine Or.inl ?_
      obtain ⟨w, i, rest, hpos⟩ := hworker hpub
      rw [hpos] at hproc ⊢
      obtain ⟨iK, hi⟩ := Option.ne_none_iff_exists'.mp hproc.1
      obtain ⟨packets, hs⟩ := hproc.2.iteration
      have hle := hsuffix hs
      rw [List.countP_cons_of_pos (isFlush_of_handsOver hi)] at hle
      exact hle

/-- `keep_going` is 0 where the file writer makes its last test, and behind it. -/
theorem stopped_of_testFull (hr : Lts.Run (Step cfg u) (init fileBuff data dataLen) tr s) {f : FileWriter}
    (hf : s.consumer = .testFull f ∨ s.consumer = .returned f) : s.keepGoing = false := by
  refine hr.invariant
    (I := fun _ s => ∀ f, s.consumer = .testFull f ∨ s.consumer = .returned f → s.keepGoing = false) ?_ ?_ f hf
  · rintro f (hf | hf) <;> cases hf
  · rintro tr ⟨p, k, wk, wr⟩ l s' - ih hs f hf
    cases hs with
    | interrupt => rfl
    | producer ht =>
      have hk := ih f hf
      simp only at hk
      subst hk
      cases ht <;> rfl
    | consumer ht =>
      cases ht with
      | stopped => rfl
      | leave => exact ih _ (Or.inl rfl)
      | goOn | anyFull | fetchBufferWait | waitOn | shut | fetchBufferTake | takeNone | returnEmptyBuffer |
        returnBuffer | integrity | ready => rcases hf with hf | hf <;> cases hf

theorem late (hr : Lts.Run (Step cfg u) (init fileBuff data dataLen) tr s) (hb : ∀ a ∈ acts tr, a.Bounded)
    {f : FileWriter} (hf : s.consumer = .returned f) : Late s := by
  refine hr.invariant (I := fun tr s => (∀ a ∈ acts tr, a.Bounded) → ∀ f, s.consumer = .returned f → Late s)
    (fun _ f hf => by cases hf) (fun tr s l s' hr ih hs hb f hf => ?_) hb f hf
  have hb' := hb
  rw [acts_append] at hb'
  by_cases hret : ∃ f, s.consumer = .returned f
  · obtain ⟨f₀, hf₀⟩ := hret
    exact (ih (List.forall_mem_append.mp hb').1 f₀ hf₀).step hf₀ hs
  · have hret : ∀ f, s.consumer ≠ .returned f := fun f₀ hf₀ => hret ⟨f₀, hf₀⟩
    rcases step_unreturned hs hret with ⟨rfl, -, -⟩ | ⟨-, hne⟩
    swap
    · exact absurd hf (hne f)
    -- This is the last test itself, so nothing has been published since.
    obtain ⟨pre, post, htr, -, hpost, -, hready⟩ := (ended (hr.next hs) hb).tested f hf
    obtain rfl : post = [] := by
      rcases List.eq_nil_or_concat post with rfl | ⟨post', x, rfl⟩
      · rfl
      · rw [List.concat_eq_append, ← List.cons_append, ← List.append_assoc] at htr
        obtain ⟨-, hx⟩ := List.append_inj' htr rfl
        cases hx
        simp at hpost
    refine ⟨stopped_of_testFull (hr.next hs) (Or.inr hf), ?_⟩
    rw [hready]
    rcases flushesLeft_le (hr.next hs) with hle | hpub
    · simp only [acts, List.filterMap_nil, List.countP_nil]
      omega
    · obtain ⟨f', hf'⟩ := (engaged (hr.next hs)).writer hpub
      cases hf.symm.trans hf'

/-- What has been published stands in the log of the worker. -/
theorem published_log {w : Worker} {rest : List Instr} (hr : Lts.Run (Step cfg u) (init fileBuff data dataLen) tr s)
    (hpos : s.producer = .running w rest) {order : Int} (h : Published tr order) :
    ∃ index n, .returnBuffer index order n ∈ w.log.filterMap Event.call := by
  obtain ⟨index, n, d, hmem⟩ := h
  obtain ⟨holder, hk⟩ := kept hr
  have hworks := hk.producer
  rw [hpos] at hworks
  obtain ⟨-, -, -, -, -, hcalls⟩ := hworks
  refine ⟨index, n, ?_⟩
  rw [← hcalls]
  exact List.mem_filterMap.mpr ⟨_, mem_acts.mpr hmem, rfl⟩

/-- Once the file writer has left its loop, `fetchEmptyBuffer` never fails: the worker comes to its end by itself. -/
theorem slot_afterLastTest {pre post : List (Label UdpBuffer)}
    (hr : Lts.Run (Step cfg u) (init fileBuff data dataLen) (pre ++ lastTest :: post) s)
    (hlt : ∀ order, Published (pre ++ lastTest :: post) order → order < intMax) :
    .call (.noEmpty .producer) ∉ post := by
  intro hmem
  obtain ⟨post₁, post₂, rfl⟩ := List.append_of_mem hmem
  rw [← List.cons_append, ← List.append_assoc] at hr hlt
  obtain ⟨s₁, s₂, hr₁, hs⟩ := hr.split
  have hb : ∀ a ∈ acts (pre ++ lastTest :: post₁), a.Bounded := bounded hr₁ fun order ⟨index, n, d, h⟩ =>
    hlt order ⟨index, n, d, List.mem_append_left _ h⟩
  obtain ⟨f, hf⟩ : ∃ f, s₁.consumer = .returned f := by
    by_contra hne
    exact (ended hr₁ hb).untested (fun f hf => hne ⟨f, hf⟩) (by simp)
  have hfew := (late hr₁ hb hf).few
  have hmany := ready_of_noEmpty hr₁ hs
  rw [hf] at hmany
  simp only [WriterAt.slotsHeld, nFileBuffers] at hmany
  omega

theorem slot_afterLastTest_five : ∃ (pre post : List (Label UdpBuffer)) (s : State),
    Lts.Run (Step singleChannel zeroed) (init oneAnt (fun _ _ => 0) fun _ => 0) (pre ++ lastTest :: post) s ∧
      .call (.returnBufferReady .producer) ∈ post ∧ .call (.noEmpty .producer) ∉ post := by
  obtain ⟨pre, hr⟩ := run_left
  obtain ⟨tr₁, hr₁⟩ : ∃ tr₁, Lts.Run (Step singleChannel zeroed) _ (pre ++ [lastTest] ++ tr₁)
      ⟨_, false, .running _ (.earlier 0 :: [1, 2, 3, 4, 5].map .earlier), .returned (.start oneAnt)⟩ :=
    run_quiet (takeIn fivePackets ++ sendFull) hr (by decide +kernel)
  generalize hw : (takeIn fivePackets ++ sendFull).foldl (Worker.exec singleChannel fun _ => 0) _ = w at hr₁
  have hover : w.handsOver (.earlier 0) = some 0 := by subst hw; decide +kernel
  have horder : ((w.localStruct 0).order : Int) = 1 := by subst hw; decide +kernel
  have hlog : w.log.filterMap Event.call = (List.range 6).map .fetchEmptyBuffer := by subst hw; decide +kernel
  obtain ⟨p₂, index, d, hr₂, -, -⟩ := run_handsOver hr₁ 0 hover rfl (by decide)
  simp only [List.append_assoc, List.singleton_append] at hr₂
  refine ⟨pre, _, _, hr₂, by simp, slot_afterLastTest hr₂ ?_⟩
  rintro order ⟨i, n, d', hmem⟩
  have hsplit : .call (.returnBufferData .producer i order n d') ∈ pre ++ [lastTest] ++ tr₁ ∨
      order = (w.localStruct 0).order := by
    simp [lastTest] at hmem ⊢
    tauto
  rcases hsplit with h | h
  · obtain ⟨index', n', hmem'⟩ := published_log hr₁ rfl ⟨i, n, d', h⟩
    simp [hlog] at hmem'
  · rw [h, horder]
    decide

end FilePool
end VoltRec
