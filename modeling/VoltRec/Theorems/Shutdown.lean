import VoltRec.Theorems.FilePool

/-! The end of a recording. The file writer leaves its loop when it finds `keep_going` and `NReady` 0, and
    whatever the worker publishes after that stays in the pool. -/

namespace VoltRec

/-! ### One action on the pool -/

section Exec
variable {T : Type} [DecidableEq T] {p p' : Pool T} {a : Act T}

/-- A published slot stays so until it is fetched. -/
theorem Pool.Exec.ready_or_taken (he : p.Exec a p') {index : Nat} {order : Int} (hpos : 0 < order)
    (hi : p.buff.orderNo[index]? = some order) :
    p'.buff.orderNo[index]? = some order ∨ ∃ t n data, a = .fetchBufferTake t index order n data := by
  rcases he.mark_cases with ⟨-, hsame⟩ | ⟨i, old, new, hmark, hold, hset⟩
  · exact Or.inl (hsame ▸ hi)
  · by_cases hne : i = index
    · subst hne
      obtain rfl := Option.some.inj (hold.symm.trans hi)
      cases a with
      | fetchBufferTake t =>
        cases hmark
        exact Or.inr ⟨t, _, _, rfl⟩
      | fetchEmptyBuffer | returnBufferData | returnEmptyBuffer =>
        cases hmark
        exact absurd hpos (by decide)
      | _ => cases hmark
    · rw [hset, List.getElem?_set_ne hne]
      exact Or.inl hi

/-- `returnBuffer` is through. -/
def Act.completes : Act T → Bool
  | .returnBufferReady _ => true
  | _ => false

/-- Who is inside `returnBuffer` after an action. -/
theorem Pool.Exec.publishing_cases (he : p.Exec a p') :
    (p'.publishing = p.publishing ∧ a.completes = false) ∨
    (p.publishing = some a.thread ∧ p'.publishing = none ∧ a = .returnBufferReady a.thread) ∨
    ∃ t index order n data, a = .returnBufferData t index order n data ∧ p'.publishing = some t := by
  cases he with
  | returnBufferData => exact Or.inr (Or.inr ⟨_, _, _, _, _, rfl, rfl⟩)
  | returnBufferReady h => exact Or.inr (Or.inl ⟨h, rfl, rfl⟩)
  | fetchEmptyBuffer | noEmpty | returnEmptyBuffer | dataIntegrity | fetchBufferWait | fetchBufferShut |
    fetchBufferTake | takeNone | anyBufFull | write => exact Or.inl ⟨rfl, rfl⟩

theorem Pool.Exec.claimed_of_mem (he : p.Exec a p') {t : T} (ht : t ∈ p'.claimed) :
    t ∈ p.claimed ∨ a = .fetchBufferWait t := by
  cases he with
  | fetchBufferWait =>
    rcases Finset.mem_insert.mp ht with rfl | ht
    · exact Or.inr rfl
    · exact Or.inl ht
  | fetchBufferTake | takeNone => exact Or.inl (Finset.mem_of_mem_erase ht)
  | fetchEmptyBuffer | noEmpty | returnBufferData | returnBufferReady | returnEmptyBuffer | dataIntegrity |
    fetchBufferShut | anyBufFull | write => exact Or.inl ht

/-- Without a fetch, each `returnBuffer` adds one published slot, which is there already while it runs. -/
theorem Pool.Exec.readySlots_eq (he : p.Exec a p') (hpos : a.Positive)
    (hno : ∀ t i o n data, a ≠ .fetchBufferTake t i o n data) :
    readySlots p'.buff.orderNo + (if p.publishing = none then 0 else 1) =
      readySlots p.buff.orderNo + (if p'.publishing = none then 0 else 1) + if a.completes then 1 else 0 := by
  cases he with
  | fetchEmptyBuffer _ _ hf =>
    obtain ⟨h0, rfl⟩ := UdpBuff.fetchEmptyBuffer_spec hf
    have := readySlots_set h0 (-1)
    simp [Act.completes] at this ⊢
    omega
  | @returnBufferData t _ _ _ order _ free hf =>
    obtain ⟨h1, rfl⟩ := UdpBuff.returnBufferData_spec hf
    have := readySlots_set h1 order
    have hpos' : 0 < order := hpos
    simp [Act.completes, free, hpos'] at this ⊢
    omega
  | returnBufferReady h => simp [Act.completes, h, UdpBuff.returnBufferReady]
  | returnEmptyBuffer _ _ hf =>
    obtain ⟨h1, rfl⟩ := UdpBuff.returnEmptyBuffer_spec hf
    have := readySlots_set h1 0
    simp [Act.completes] at this ⊢
    omega
  | fetchBufferTake => exact absurd rfl (hno _ _ _ _ _)
  | fetchBufferWait _ hf =>
    obtain ⟨-, rfl⟩ := UdpBuff.fetchBufferWait_spec hf
    simp [Act.completes]
  | noEmpty | dataIntegrity | fetchBufferShut | takeNone | anyBufFull | write => simp [Act.completes]

end Exec

/-- None of the instructions hands a block over. -/
def quiet (cfg : Config) : Worker → List Instr → Bool
  | _, [] => true
  | w, i :: is => (w.handsOver i).isNone && quiet cfg (w.exec cfg (fun _ => 0) i) is

/-- The instructions that may hand a block over. -/
def Instr.isFlush : Instr → Bool
  | .full _ => true
  | .earlier _ => true
  | _ => false

namespace FilePool

variable {cfg : Config} {u : Uninit} {fileBuff : FileBuff} {data : Nat → Nat → UInt8} {dataLen : Nat → Nat}
  {tr : List (Label UdpBuffer)} {s s' : State} {l : Label UdpBuffer}

/-! ### Blocks -/

/-- The file writer has fetched a buffer of that order, and it gave it back as written or as too late. -/
def Settled (cfg : Config) (u : Uninit) (fileBuff : FileBuff) (data : Nat → Nat → UInt8) (dataLen : Nat → Nat)
    (tr : List (Label UdpBuffer)) (order : Int) : Prop :=
  ∃ pre post s f b, tr = pre ++ .call (.returnEmptyBuffer .consumer b.index) :: post ∧
    Lts.Run (Step cfg u) (init fileBuff data dataLen) pre s ∧ s.consumer = .holding f b ∧ (b.order : Int) = order ∧
    ((f.pass b).log.getLast? = some (.written b.index) ∨ (f.pass b).log.getLast? = some (.discarded b.index))

theorem Settled.append {order : Int} (h : Settled cfg u fileBuff data dataLen tr order) (l : Label UdpBuffer) :
    Settled cfg u fileBuff data dataLen (tr ++ [l]) order := by
  obtain ⟨pre, post, s, f, b, rfl, h⟩ := h
  exact ⟨pre, post ++ [l], s, f, b, by simp, h⟩

/-- The worker hands block `order` to the pool. -/
def Published (tr : List (Label UdpBuffer)) (order : Int) : Prop :=
  ∃ index dataLen data, .call (.returnBufferData .producer index order dataLen data) ∈ tr

theorem published_pos (hr : Lts.Run (Step cfg u) (init fileBuff data dataLen) tr s) {order : Int}
    (h : Published tr order) : 0 < order := by
  obtain ⟨holder, hk⟩ := kept hr
  obtain ⟨index, n, d, hmem⟩ := h
  exact hk.positive _ (mem_acts.mpr hmem)

/-- The orders that the file writer finds lie below `INT_MAX`. -/
theorem holding_lt (hr : Lts.Run (Step cfg u) (init fileBuff data dataLen) tr s) :
    ∀ f b, s.consumer = .holding f b → b.order < intMax := by
  refine hr.invariant (I := fun _ s => ∀ f b, s.consumer = .holding f b → b.order < intMax) nofun ?_
  rintro tr ⟨p, k, wk, wr⟩ l s' - ih hs f b hb
  cases hs with
  | interrupt => exact ih f b hb
  | producer => exact ih f b hb
  | consumer ht hp =>
    cases ht with
    | fetchBufferTake b' =>
      cases hb
      obtain ⟨-, hlt, -⟩ := Pool.Exec.fetchBufferTake_spec hp
      exact Int.ofNat_lt.mp hlt
    | integrity => exact ih f b hb
    | goOn | stopped | anyFull | leave | fetchBufferWait | waitOn | shut | takeNone | returnEmptyBuffer | returnBuffer |
      ready => cases hb

/-- Where a block is that the worker has handed over. -/
def Located (cfg : Config) (u : Uninit) (fileBuff : FileBuff) (data : Nat → Nat → UInt8) (dataLen : Nat → Nat)
    (tr : List (Label UdpBuffer)) (s : State) (order : Int) : Prop :=
  (∃ index : Nat, s.pool.buff.orderNo[index]? = some order) ∨
    (∃ f b, s.consumer = .holding f b ∧ (b.order : Int) = order) ∨ Settled cfg u fileBuff data dataLen tr order

/-- A fetch is one of the file writer, which then has the buffer. -/
theorem holding_of_take (hs : Step cfg u s l s') {t : Side} {index dataLen : Nat} {order : Int} {data : Nat → UInt8}
    (hl : l = .call (.fetchBufferTake t index order dataLen data)) :
    ∃ f b, s'.consumer = .holding f b ∧ (b.order : Int) = order := by
  subst hl
  obtain ⟨p, k, wk, wr⟩ := s
  cases hs with
  | producer ht => cases ht
  | consumer ht =>
    cases ht
    exact ⟨_, _, rfl, rfl⟩

theorem Located.step {order : Int} (hr : Lts.Run (Step cfg u) (init fileBuff data dataLen) tr s) (hpos : 0 < order)
    (h : Located cfg u fileBuff data dataLen tr s order) (hs : Step cfg u s l s') :
    Located cfg u fileBuff data dataLen (tr ++ [l]) s' order := by
  rcases h with ⟨index, hi⟩ | ⟨f, b, hb, hbo⟩ | hset
  · rcases onPool_of_act (Threads.Step.onPool hs) with ⟨a, rfl, he⟩ | ⟨-, hsame⟩
    · rcases he.ready_or_taken hpos hi with hi' | ⟨t, n, d, rfl⟩
      · exact Or.inl ⟨index, hi'⟩
      · exact Or.inr (Or.inl (holding_of_take hs rfl))
    · exact Or.inl ⟨index, hsame ▸ hi⟩
  · obtain ⟨p, k, wk, wr⟩ := s
    cases hs with
    | interrupt | producer => exact Or.inr (Or.inl ⟨f, b, hb, hbo⟩)
    | consumer ht hp =>
      cases hb
      cases ht with
      | returnEmptyBuffer h ho =>
        refine Or.inr (Or.inr ⟨tr, [], _, f, b, rfl, hr, rfl, hbo, ?_⟩)
        rcases ho with rfl | rfl
        · exact Or.inl h
        · exact Or.inr h
      | returnBuffer =>
        refine Or.inl ⟨b.index, ?_⟩
        rw [← hbo]
        exact Pool.Exec.returnBufferData_spec hp
      | integrity => exact Or.inr (Or.inl ⟨f, b, rfl, hbo⟩)
  · exact Or.inr (Or.inr (hset.append l))

/-- A block that the worker has handed over is in the pool, with the file writer, or settled. -/
theorem located (hr : Lts.Run (Step cfg u) (init fileBuff data dataLen) tr s) :
    ∀ order, Published tr order → Located cfg u fileBuff data dataLen tr s order := by
  refine hr.invariant (I := fun tr s => ∀ order, Published tr order → Located cfg u fileBuff data dataLen tr s order)
    (fun order h => by obtain ⟨index, n, d, h⟩ := h; cases h) ?_
  intro tr s l s' hr ih hs order hpub
  have hpos := published_pos (hr.next hs) hpub
  obtain ⟨index, n, d, hmem⟩ := hpub
  rcases List.mem_append.mp hmem with hmem | hmem
  · exact (ih order ⟨index, n, d, hmem⟩).step hr hpos hs
  · obtain rfl := List.mem_singleton.mp hmem
    exact Or.inl ⟨index, (Threads.Step.onPool hs).returnBufferData_spec⟩

/-! ### The last test -/

/-- A thread inside `returnBuffer` stands there, and the worker claims no buffer of this pool. -/
structure Engaged (s : State) : Prop where
  worker : s.pool.publishing = some .producer → ∃ w i rest, s.producer = .returning w i rest
  writer : s.pool.publishing = some .consumer → ∃ f, s.consumer = .returning f
  claimed : .producer ∉ s.pool.claimed

theorem Engaged.step (h : Engaged s) (hs : Step cfg u s l s') : Engaged s' := by
  obtain ⟨p, k, wk, wr⟩ := s
  obtain ⟨hworker, hwriter, hclaimed⟩ := h
  cases hs with
  | interrupt => exact ⟨hworker, hwriter, hclaimed⟩
  | producer ht hp =>
    rcases onPool_of_act hp with ⟨a, rfl, he⟩ | ⟨hnone, rfl⟩
    · refine ⟨fun hpub => ?_, fun hpub => ?_, fun hmem => ?_⟩
      · rcases he.publishing_cases with ⟨hsame, hcomp⟩ | ⟨-, hfree, -⟩ | ⟨t, index, order, n, d, rfl, -⟩
        · obtain ⟨w, i, rest, rfl⟩ := hworker (hsame ▸ hpub)
          cases ht
          cases hcomp
        · cases hfree.symm.trans hpub
        · cases ht
          exact ⟨_, _, _, rfl⟩
      · rcases he.publishing_cases with ⟨hsame, -⟩ | ⟨-, hfree, -⟩ | ⟨t, index, order, n, d, rfl, hpub'⟩
        · exact hwriter (hsame ▸ hpub)
        · cases hfree.symm.trans hpub
        · cases ht
          cases hpub'.symm.trans hpub
      · rcases he.claimed_of_mem hmem with hmem | rfl
        · exact hclaimed hmem
        · cases ht
    · refine ⟨fun hpub => ?_, hwriter, hclaimed⟩
      obtain ⟨w, i, rest, rfl⟩ := hworker hpub
      cases ht
      cases hnone
  | consumer ht hp =>
    rcases onPool_of_act hp with ⟨a, rfl, he⟩ | ⟨hnone, rfl⟩
    · refine ⟨fun hpub => ?_, fun hpub => ?_, fun hmem => ?_⟩
      · rcases he.publishing_cases with ⟨hsame, -⟩ | ⟨-, hfree, -⟩ | ⟨t, index, order, n, d, rfl, hpub'⟩
        · exact hworker (hsame ▸ hpub)
        · cases hfree.symm.trans hpub
        · cases ht
          cases hpub'.symm.trans hpub
      · rcases he.publishing_cases with ⟨hsame, hcomp⟩ | ⟨-, hfree, -⟩ | ⟨t, index, order, n, d, rfl, -⟩
        · obtain ⟨f, rfl⟩ := hwriter (hsame ▸ hpub)
          cases ht
          cases hcomp
        · cases hfree.symm.trans hpub
        · cases ht
          exact ⟨_, rfl⟩
      · rcases he.claimed_of_mem hmem with hmem | rfl
        · exact hclaimed hmem
        · cases ht
    · refine ⟨hworker, fun hpub => ?_, hclaimed⟩
      obtain ⟨f, rfl⟩ := hwriter hpub
      cases ht
      cases hnone

theorem engaged (hr : Lts.Run (Step cfg u) (init fileBuff data dataLen) tr s) : Engaged s :=
  hr.invariant (I := fun _ s => Engaged s) ⟨fun h => (by cases h), fun h => (by cases h), Finset.notMem_empty _⟩
    fun _ _ _ _ _ ih hs => ih.step hs

/-- The test on which the file writer leaves its loop. -/
def lastTest : Label UdpBuffer := .call (.anyBufFull .consumer 0)

theorem step_unreturned (hs : Step cfg u s l s') (hf : ∀ f, s.consumer ≠ .returned f) :
    (l = lastTest ∧ (∃ f, s'.consumer = .returned f) ∧ s'.pool = s.pool ∧ s.pool.buff.nReady = 0 ∧
      .consumer ∉ s.pool.claimed) ∨
    l ≠ lastTest ∧ ∀ f, s'.consumer ≠ .returned f := by
  obtain ⟨p, k, wk, wr⟩ := s
  cases hs with
  | interrupt => exact Or.inr ⟨nofun, hf⟩
  | producer ht =>
    refine Or.inr ⟨?_, hf⟩
    rintro rfl
    cases ht
  | consumer ht hp =>
    cases ht with
    | leave =>
      obtain ⟨idle, hn, hsame⟩ := Pool.Exec.anyBufFull_spec hp
      exact Or.inl ⟨rfl, ⟨_, rfl⟩, hsame, hn.symm, idle.2⟩
    | anyFull hn =>
      refine Or.inr ⟨fun heq => hn ?_, nofun⟩
      cases heq
      rfl
    | goOn | stopped | fetchBufferWait | waitOn | shut | fetchBufferTake | takeNone | returnEmptyBuffer | returnBuffer |
      integrity | ready => exact Or.inr ⟨nofun, nofun⟩

theorem step_returned {f : FileWriter} (hs : Step cfg u s l s') (hf : s.consumer = .returned f) :
    s'.consumer = .returned f ∧ ∀ a, l = .call a → a.thread = .producer := by
  obtain ⟨p, k, wk, wr⟩ := s
  cases hs with
  | interrupt => exact ⟨hf, nofun⟩
  | producer ht =>
    refine ⟨hf, ?_⟩
    rintro a rfl
    exact (disciplined_worker cfg u).thread ht
  | consumer ht =>
    cases hf
    cases ht

/-- From the last test on, the published slots are those of the `returnBuffer` calls since. -/
structure Ended (tr : List (Label UdpBuffer)) (s : State) : Prop where
  untested : (∀ f, s.consumer ≠ .returned f) → lastTest ∉ tr
  tested : ∀ f, s.consumer = .returned f → ∃ pre post, tr = pre ++ lastTest :: post ∧ lastTest ∉ pre ∧
    lastTest ∉ post ∧ (∀ a ∈ acts post, a.thread = .producer) ∧
    readySlots s.pool.buff.orderNo =
      (acts post).countP Act.completes + if s.pool.publishing = none then 0 else 1

theorem Ended.step (hr : Lts.Run (Step cfg u) (init fileBuff data dataLen) tr s) (h : Ended tr s)
    (hb : ∀ a ∈ acts tr, a.Bounded) (hs : Step cfg u s l s') : Ended (tr ++ [l]) s' := by
  obtain ⟨holder, hk⟩ := kept hr
  obtain ⟨holder', hk'⟩ := kept (hr.next hs)
  by_cases hf : ∃ f, s.consumer = .returned f
  · obtain ⟨f, hf⟩ := hf
    obtain ⟨hf', hproducer⟩ := step_returned hs hf
    obtain ⟨pre, post, rfl, hpre, hpost, hacts, hready⟩ := h.tested f hf
    refine ⟨fun hne => absurd hf' (hne f), fun _ _ => ⟨pre, post ++ [l], by simp, hpre, ?_, ?_, ?_⟩⟩
    · refine fun hmem => (List.mem_append.mp hmem).elim hpost fun hmem => ?_
      obtain rfl := List.mem_singleton.mp hmem
      cases hproducer _ rfl
    · rw [acts_append]
      refine List.forall_mem_append.mpr ⟨hacts, fun a ha => ?_⟩
      exact hproducer a (act_eq_some.mp (Option.mem_toList.mp ha))
    · rcases onPool_of_act (Threads.Step.onPool hs) with ⟨a, rfl, he⟩ | ⟨hnone, hsame⟩
      · have hno : ∀ t i o n d, a ≠ .fetchBufferTake t i o n d := by
          rintro t i o n d rfl
          obtain ⟨f', b, hb, -⟩ := holding_of_take hs rfl
          cases hf'.symm.trans hb
        have hstep := he.readySlots_eq (hk'.positive a (mem_acts.mpr (by simp))) hno
        rw [acts_append, List.countP_append]
        simp only [Label.act?, Option.toList_some, List.countP_singleton]
        omega
      · rw [acts_append, hnone, Option.toList_none, List.append_nil, hsame, hready]
  · have hf : ∀ f, s.consumer ≠ .returned f := fun f hf' => hf ⟨f, hf'⟩
    rcases step_unreturned hs hf with ⟨rfl, ⟨f, hf'⟩, hpool, hnone, hidle⟩ | ⟨hl, hf'⟩
    · refine ⟨fun hne => absurd hf' (hne f), fun _ _ => ?_⟩
      refine ⟨tr, [], rfl, h.untested hf, List.not_mem_nil, by simp [acts], ?_⟩
      have hclaimed : s.pool.claimed = ∅ := by
        refine Finset.eq_empty_of_forall_notMem fun t ht => ?_
        cases t with
        | producer => exact (engaged hr).claimed ht
        | consumer => exact hidle ht
      have hcount := (Counted.run hk.run hb).1.count
      simp only [hnone, hclaimed, Finset.card_empty] at hcount
      rw [hpool, ← hcount]
      simp [acts]
    · refine ⟨fun _ => ?_, fun f hf'' => absurd hf'' (hf' f)⟩
      simpa using ⟨h.untested hf, hl.symm⟩

theorem ended (hr : Lts.Run (Step cfg u) (init fileBuff data dataLen) tr s) (hb : ∀ a ∈ acts tr, a.Bounded) :
    Ended tr s := by
  refine hr.invariant (I := fun tr s => (∀ a ∈ acts tr, a.Bounded) → Ended tr s)
    (fun _ => ⟨fun _ => List.not_mem_nil, fun f hf => by cases hf⟩) (fun tr s l s' hr ih hs hb => ?_) hb
  rw [acts_append] at hb
  have hb := (List.forall_mem_append.mp hb).1
  exact (ih hb).step hr hb hs

/-- `findLowest` finds every order that is published, if it finds those of the worker. -/
theorem bounded (hr : Lts.Run (Step cfg u) (init fileBuff data dataLen) tr s)
    (hlt : ∀ order, Published tr order → order < intMax) : ∀ a ∈ acts tr, a.Bounded := by
  intro a ha
  obtain ⟨holder, hk⟩ := kept hr
  have hpos := hk.positive a ha
  rw [mem_acts] at ha
  cases a with
  | returnBufferData t index order n d =>
    refine ⟨hpos, ?_⟩
    cases t with
    | producer => exact hlt order ⟨index, n, d, ha⟩
    | consumer =>
      obtain ⟨pre, post, rfl⟩ := List.append_of_mem ha
      obtain ⟨⟨p, k, wk, wr⟩, s₂, hr₁, hs⟩ := hr.split
      cases hs with
      | producer ht => cases ht
      | consumer ht =>
        cases ht
        exact Int.ofNat_lt.mpr (holding_lt hr₁ _ _ rfl)
  | _ => trivial

theorem isReady_iff : (∀ index, isReady s index = false) ↔ readySlots s.pool.buff.orderNo = 0 := by
  simp only [isReady, readySlots, List.countP_eq_zero, decide_eq_false_iff_not, decide_eq_true_eq]
  refine ⟨fun h o ho => ?_, fun h index hpos => ?_⟩
  · obtain ⟨index, hlt, rfl⟩ := List.getElem_of_mem ho
    simpa [List.getD_eq_getElem?_getD, hlt] using h index
  · rw [List.getD_eq_getElem?_getD] at hpos
    cases hget : s.pool.buff.orderNo[index]? with
    | none => simp [hget] at hpos
    | some o => exact h o (List.mem_of_getElem? hget) (by simpa [hget] using hpos)

/-- The worker completes no `returnBuffer` once the file writer has left its loop. -/
def NoneLate (tr : List (Label UdpBuffer)) : Prop :=
  ∀ pre post, tr = pre ++ lastTest :: post → .call (.returnBufferReady .producer) ∉ post

theorem noneLate_iff {pre post : List (Label UdpBuffer)} (htr : tr = pre ++ lastTest :: post) (hpre : lastTest ∉ pre)
    (hpost : lastTest ∉ post) (hacts : ∀ a ∈ acts post, a.thread = .producer) :
    NoneLate tr ↔ (acts post).countP Act.completes = 0 := by
  rw [List.countP_eq_zero]
  refine ⟨fun h a ha hcomp => ?_, fun h pre' post' heq hmem => ?_⟩
  · refine h pre post htr ?_
    have hthread := hacts a ha
    cases a with
    | returnBufferReady t =>
      obtain rfl : t = .producer := hthread
      exact mem_acts.mp ha
    | _ => cases hcomp
  · obtain ⟨-, -, rfl⟩ := (List.append_cons_inj_of_notMem hpre hpost).mp (htr.symm.trans heq)
    exact h _ (mem_acts.mpr hmem) rfl

section Returned
variable {f : FileWriter} (hr : Lts.Run (Step cfg u) (init fileBuff data dataLen) tr s) (hf : s.consumer = .returned f)
include hr hf

theorem publishing_returned (hp : s.producer = .returned) : s.pool.publishing = none := by
  obtain ⟨hworker, hwriter, -⟩ := engaged hr
  cases hpub : s.pool.publishing with
  | none => rfl
  | some t =>
    cases t with
    | producer =>
      obtain ⟨w, i, rest, hw⟩ := hworker hpub
      cases hp.symm.trans hw
    | consumer =>
      obtain ⟨f', hf'⟩ := hwriter hpub
      cases hf.symm.trans hf'

theorem isReady_returned (hp : s.producer = .returned) (hlt : ∀ order, Published tr order → order < intMax) :
    (∀ index, isReady s index = false) ↔ NoneLate tr := by
  obtain ⟨pre, post, htr, hpre, hpost, hacts, hready⟩ := (ended hr (bounded hr hlt)).tested f hf
  rw [isReady_iff, noneLate_iff htr hpre hpost hacts, hready, if_pos (publishing_returned hr hf hp), Nat.add_zero]

theorem settled_returned (hready : ∀ index, isReady s index = false) {order : Int} (h : Published tr order) :
    Settled cfg u fileBuff data dataLen tr order := by
  rcases located hr order h with ⟨index, hi⟩ | ⟨f', b, hb, -⟩ | hset
  · have hpos := published_pos hr h
    simpa [isReady, List.getD_eq_getElem?_getD, hi, hpos] using hready index
  · cases hf.symm.trans hb
  · exact hset

end Returned

theorem Settled.lt {order : Int} (h : Settled cfg u fileBuff data dataLen tr order) : order < intMax := by
  obtain ⟨pre, post, s₁, f, b, -, hr₁, hb, rfl, -⟩ := h
  exact Int.ofNat_lt.mpr (holding_lt hr₁ f b hb)

/-! ### The worker alone -/

section Alone
variable {p : Pool Side} {k : Bool} {w : Worker} {i : Instr} {rest : List Instr} {c : WriterAt}

/-- A call of the worker that gives a slot back finds it marked. -/
theorem turn_spec (hr : Lts.Run (Step cfg u) (init fileBuff data dataLen) tr s) {a : Act Side} {k' : Bool}
    {wk' : WorkerAt} (ht : WorkerTurn cfg u s.keepGoing s.producer (.call a) k' wk') :
    a.Positive ∧ ∀ index, a.givenBack = some index → s.pool.buff.orderNo[index]? = some (-1) := by
  obtain ⟨holder, hk⟩ := kept hr
  obtain ⟨hheld, hpos⟩ := (disciplined_worker cfg u).held ht trivial hk.producer (hk.fresh _)
  refine ⟨hpos, fun index hg => ?_⟩
  have hmine : ∀ t, holding .producer (calls .producer tr) index = some t → Holds .producer tr index := by
    intro t h
    simp only [holding] at h
    split at h
    · assumption
    · cases h
  cases a with
  | returnBufferData | returnEmptyBuffer | dataIntegrity =>
    cases hg
    exact hk.marked (hmine _ hheld)
  | _ => cases hg

theorem idle_worker (hr : Lts.Run (Step cfg u) (init fileBuff data dataLen) tr s) (hfree : s.pool.publishing = none) :
    s.pool.Idle .producer := ⟨by rw [hfree]; exact nofun, (engaged hr).claimed⟩

theorem fetchEmptyBuffer_of_countP {b : UdpBuff} (h : 0 < b.orderNo.countP (· = 0)) :
    ∃ b' index, b.fetchEmptyBuffer = some (b', index) ∧ b'.orderNo.countP (· = 0) + 1 = b.orderNo.countP (· = 0) := by
  cases hf : b.fetchEmptyBuffer with
  | none =>
    obtain ⟨o, ho, h0⟩ := List.countP_pos_iff.mp h
    simp only [UdpBuff.fetchEmptyBuffer, Option.map_eq_none_iff, findEmpty, List.findIdx?_eq_none_iff] at hf
    exact absurd h0 (by simpa using hf o ho)
  | some r =>
    obtain ⟨h0, hb⟩ := UdpBuff.fetchEmptyBuffer_spec hf
    refine ⟨r.1, r.2, rfl, ?_⟩
    rw [hb]
    exact countP_mark h0

theorem countP_publish {no : List Int} {index : Nat} {o : Int} (h : no[index]? = some (-1)) (ho : 0 < o) :
    (no.set index o).countP (· = 0) = no.countP (· = 0) := by
  obtain ⟨hlt, h1⟩ := List.getElem?_eq_some_iff.mp h
  have hne : o ≠ 0 := by omega
  simp [List.countP_set hlt, h1, hne]

/-- The worker hands a block over while a slot is empty. -/
theorem run_handsOver (hr : Lts.Run (Step cfg u) (init fileBuff data dataLen) tr ⟨p, k, .running w (i :: rest), c⟩)
    (iK : Fin 6) (hi : w.handsOver i = some iK) (hfree : p.publishing = none)
    (hempty : 0 < p.buff.orderNo.countP (· = 0)) :
    ∃ p' index d, Lts.Run (Step cfg u) (init fileBuff data dataLen)
      (tr ++ [.call (.returnBufferData .producer (w.localStruct iK).index (w.localStruct iK).order cfg.dataLenOut d)] ++
        [.call (.returnBufferReady .producer)] ++ [.call (.fetchEmptyBuffer .producer index)])
      ⟨p', k, .running (w.exec cfg (fun _ => index) i) rest, c⟩ ∧ p'.publishing = none ∧
      p'.buff.orderNo.countP (· = 0) + 1 = p.buff.orderNo.countP (· = 0) := by
  have hturn : WorkerTurn cfg u k (.running w (i :: rest)) (.call (.returnBufferData .producer (w.localStruct iK).index
      (w.localStruct iK).order cfg.dataLenOut (p.buff.data (w.localStruct iK).index))) k (.returning w i rest) :=
    .returnBuffer hi
  obtain ⟨hpos, hmarked⟩ := turn_spec hr hturn
  have hmark := hmarked _ rfl
  obtain ⟨p₂, d, hr₂, hfree₂, hno⟩ : ∃ p₂ d, Lts.Run (Step cfg u) (init fileBuff data dataLen)
      (tr ++ [.call (.returnBufferData .producer (w.localStruct iK).index (w.localStruct iK).order cfg.dataLenOut d)] ++
        [.call (.returnBufferReady .producer)]) ⟨p₂, k, .swapping w i rest, c⟩ ∧ p₂.publishing = none ∧
      p₂.buff.orderNo = p.buff.orderNo.set (w.localStruct iK).index (w.localStruct iK).order := by
    have hr₁ := hr.next (.producer hturn (.returnBufferData (idle_worker hr hfree) hfree (if_pos hmark)))
    exact ⟨_, _, hr₁.next (.producer .ready (.returnBufferReady rfl)), rfl, rfl⟩
  have hcount : p₂.buff.orderNo.countP (· = 0) = p.buff.orderNo.countP (· = 0) := hno ▸ countP_publish hmark hpos
  obtain ⟨b', index, hf, hb⟩ := fetchEmptyBuffer_of_countP (hcount ▸ hempty)
  exact ⟨_, index, d, hr₂.next (.producer .fetchNext (.fetchEmptyBuffer (idle_worker hr₂ hfree₂) hfree₂ hf)), hfree₂,
    hb.trans hcount⟩

theorem run_quiet (is : List Instr)
    (hr : Lts.Run (Step cfg u) (init fileBuff data dataLen) tr ⟨p, k, .running w (is ++ rest), c⟩)
    (hq : quiet cfg w is = true) : ∃ tr', Lts.Run (Step cfg u) (init fileBuff data dataLen) (tr ++ tr')
      ⟨p, k, .running (is.foldl (Worker.exec cfg fun _ => 0) w) rest, c⟩ := by
  induction is generalizing tr w with
  | nil => exact ⟨[], by simpa using hr⟩
  | cons i is ih =>
    obtain ⟨hi, hq⟩ := (Bool.and_eq_true _ _).mp hq
    obtain ⟨tr', hr'⟩ := ih (hr.next (.producer (.instr (Option.isNone_iff_eq_none.mp hi) fun _ => 0) rfl)) hq
    exact ⟨_ :: tr', by simpa using hr'⟩

/-- The worker comes to the end of an iteration while there are slots enough. -/
theorem run_iteration (hr : Lts.Run (Step cfg u) (init fileBuff data dataLen) tr ⟨p, k, .running w rest, c⟩)
    (hfree : p.publishing = none) (hempty : rest.countP Instr.isFlush ≤ p.buff.orderNo.countP (· = 0)) :
    ∃ tr' p' w', Lts.Run (Step cfg u) (init fileBuff data dataLen) (tr ++ tr') ⟨p', k, .running w' [], c⟩ ∧
      p'.publishing = none := by
  induction rest generalizing tr p w with
  | nil => exact ⟨[], p, w, by simpa using hr, hfree⟩
  | cons i rest ih =>
    cases hi : w.handsOver i with
    | none =>
      have hr₁ := hr.next (.producer (.instr hi fun _ => 0) rfl)
      obtain ⟨tr', p', w', hr', hfree'⟩ := ih hr₁ hfree ((List.sublist_cons_self i rest).countP_le.trans hempty)
      exact ⟨_ :: tr', p', w', by simpa using hr', hfree'⟩
    | some iK =>
      have hflush : i.isFlush = true := by
        cases i with
        | full | earlier => rfl
        | scan | packet | startFlush | checkStarted => cases hi
      rw [List.countP_cons_of_pos hflush] at hempty
      obtain ⟨p₁, index, d, hr₁, hfree₁, hcount⟩ := run_handsOver hr iK hi hfree (by omega)
      obtain ⟨tr', p', w', hr', hfree'⟩ := ih hr₁ hfree₁ (by omega)
      exact ⟨_ :: _ :: _ :: tr', p', w', by simpa using hr', hfree'⟩

/-- A mark that publishes nothing gives way to another one. -/
theorem mem_set_empty {no : List Int} {index : Nat} (h : no[index]? = some (-1)) {o : Int} (ho : 0 < o) :
    o ∈ no.set index 0 ↔ o ∈ no := by
  obtain ⟨hlt, -⟩ := List.getElem?_eq_some_iff.mp h
  simp only [List.mem_iff_getElem?]
  refine exists_congr fun i => ?_
  by_cases hi : index = i
  · subst hi
    rw [List.getElem?_set_self hlt, h, Option.some.injEq, Option.some.injEq]
    omega
  · rw [List.getElem?_set_ne hi]

/-- The worker leaves its loop, cleans up and returns, and publishes nothing. -/
theorem run_closing (hr : Lts.Run (Step cfg u) (init fileBuff data dataLen) tr ⟨p, false, .running w [], c⟩)
    (hfree : p.publishing = none) :
    ∃ tr' p', Lts.Run (Step cfg u) (init fileBuff data dataLen) (tr ++ tr') ⟨p', false, .returned, c⟩ ∧
      (∀ o, 0 < o → (o ∈ p'.buff.orderNo ↔ o ∈ p.buff.orderNo)) ∧ ∀ o, Published (tr ++ tr') o → Published tr o := by
  have hpass : ∀ n ≤ nFileBuffersAtATime, ∃ tr' p',
      Lts.Run (Step cfg u) (init fileBuff data dataLen) (tr ++ tr') ⟨p', false, .closing w n, c⟩ ∧
      p'.publishing = none ∧ (∀ o, 0 < o → (o ∈ p'.buff.orderNo ↔ o ∈ p.buff.orderNo)) ∧
      ∀ o, Published (tr ++ tr') o → Published tr o := by
    intro n hn
    induction n with
    | zero =>
      refine ⟨_, p, hr.next (.producer .leave rfl), hfree, fun _ _ => Iff.rfl, ?_⟩
      rintro o ⟨index, m, d, hmem⟩
      exact ⟨index, m, d, by simpa using hmem⟩
    | succ n ih =>
      obtain ⟨tr', p', hr', hfree', hsame, hpub⟩ := ih (by omega)
      have hturn : WorkerTurn cfg u false (.closing w n)
          (.call (.returnEmptyBuffer .producer (w.localStruct ⟨n, hn⟩).index)) false (.closing w (n + 1)) :=
        @WorkerTurn.returnEmptyBuffer cfg u false w ⟨n, hn⟩
      have hmark := (turn_spec hr' hturn).2 _ rfl
      have hr₁ := hr'.next (.producer hturn (.returnEmptyBuffer (idle_worker hr' hfree') hfree' (if_pos hmark)))
      rw [List.append_assoc] at hr₁
      refine ⟨_, _, hr₁, hfree', fun o ho => (mem_set_empty hmark ho).trans (hsame o ho), ?_⟩
      rintro o ⟨index, m, d, hmem⟩
      exact hpub o ⟨index, m, d, by simpa using hmem⟩
  obtain ⟨tr', p', hr', -, hsame, hpub⟩ := hpass _ (Nat.le_refl _)
  refine ⟨tr' ++ [.silent], p', ?_, hsame, ?_⟩
  · rw [← List.append_assoc]
    exact hr'.next (.producer .closed rfl)
  · rintro o ⟨index, m, d, hmem⟩
    exact hpub o ⟨index, m, d, by simpa using hmem⟩

theorem run_close (hr : Lts.Run (Step cfg u) (init fileBuff data dataLen) tr ⟨p, false, .running w [], c⟩)
    (hfree : p.publishing = none) :
    ∃ tr' p', Lts.Run (Step cfg u) (init fileBuff data dataLen) (tr ++ tr') ⟨p', false, .returned, c⟩ := by
  obtain ⟨tr', p', hr', -⟩ := run_closing hr hfree
  exact ⟨tr', p', hr'⟩

end Alone

/-! ### Both threads have returned -/

/-- The file writer leaves its loop while the worker has just fetched its first buffer. -/
theorem run_left : ∃ pre,
    Lts.Run (Step singleChannel zeroed) (init oneAnt (fun _ _ => 0) fun _ => 0) (pre ++ [lastTest])
      ⟨.fetched nFileBuffers (fun _ _ => 0) (fun _ => 0) nFileBuffersAtATime, false,
        .running (.start singleChannel (firstSlots (List.range nFileBuffersAtATime)) zeroed) (iteration fivePackets),
        .returned (.start oneAnt)⟩ := by
  obtain ⟨tr, hr⟩ := run_start (fun _ _ => 0) (fun _ => 0) singleChannel zeroed oneAnt
  have hr₁ := hr.next (.producer .goOn rfl)
  have hr₂ := hr₁.next (.producer (.buffer (b := fiveStarted)) rfl)
  have hr₃ := (hr₂.next .interrupt).next (.consumer .stopped rfl)
  have hr₄ := hr₃.next (.consumer .leave (.anyBufFull (Pool.fetched_idle ..)))
  rw [packets_fiveStarted] at hr₄
  exact ⟨_, hr₄⟩

/-- That iteration starts five blocks and hands over three, and nobody fetches them. -/
theorem run_late : ∃ (tr : List (Label UdpBuffer)) (s : State) (f : FileWriter),
    Lts.Run (Step singleChannel zeroed) (init oneAnt (fun _ _ => 0) fun _ => 0) tr s ∧ s.producer = .returned ∧
      s.consumer = .returned f ∧ (∃ order, Published tr order) ∧ ¬NoneLate tr := by
  obtain ⟨pre, hr⟩ := run_left
  obtain ⟨tr₁, hr₁⟩ : ∃ tr₁, Lts.Run (Step singleChannel zeroed) _ (pre ++ [lastTest] ++ tr₁)
      ⟨_, false, .running _ (.earlier 0 :: [1, 2, 3, 4, 5].map .earlier), .returned (.start oneAnt)⟩ :=
    run_quiet (takeIn fivePackets ++ sendFull) hr (by decide +kernel)
  obtain ⟨p₂, index, d, hr₂, hfree₂, hcount⟩ := run_handsOver hr₁ 0 (by decide +kernel) rfl (by decide)
  have hempty : p₂.buff.orderNo.countP (· = 0) + 1 = 14 := hcount
  obtain ⟨tr₃, p₃, w₃, hr₃, hfree₃⟩ := run_iteration hr₂ hfree₂ (Nat.le_trans (by decide : _ ≤ 13) (by omega))
  obtain ⟨tr₄, p₄, hr₄⟩ := run_close hr₃ hfree₃
  refine ⟨_, _, _, hr₄, rfl, rfl, ?_, fun h => ?_⟩
  · exact ⟨_, _, _, d, List.mem_append_left _ (List.mem_append_left _ (List.mem_append_left _
      (List.mem_append_left _ (List.mem_append_right _ (List.mem_singleton_self _)))))⟩
  · simp only [List.append_assoc, List.singleton_append] at h
    exact h _ _ rfl (by simp)

/-- Once both threads have returned, nothing is left behind if and only if the worker was through with its last
    `returnBuffer` when the file writer looked, as long as `findLowest` finds what the worker publishes. -/
theorem noneLost_iff {f : FileWriter} (hr : Lts.Run (Step cfg u) (init fileBuff data dataLen) tr s)
    (hp : s.producer = .returned) (hf : s.consumer = .returned f) :
    ((∀ index, isReady s index = false) ∧
      ∀ order, Published tr order → Settled cfg u fileBuff data dataLen tr order) ↔
    (∀ order, Published tr order → order < intMax) ∧ NoneLate tr := by
  constructor
  · rintro ⟨hready, hsettled⟩
    have hlt : ∀ order, Published tr order → order < intMax := fun order h => (hsettled order h).lt
    exact ⟨hlt, (isReady_returned hr hf hp hlt).mp hready⟩
  · rintro ⟨hlt, hlate⟩
    have hready := (isReady_returned hr hf hp hlt).mpr hlate
    exact ⟨hready, fun order h => settled_returned hr hf hready h⟩

theorem noneLost_late : ∃ (tr : List (Label UdpBuffer)) (s : State) (f : FileWriter), s.producer = .returned ∧
    s.consumer = .returned f ∧ (∃ order, Published tr order) ∧
      (((∀ index, isReady s index = false) ∧
          ∀ order, Published tr order → Settled singleChannel zeroed oneAnt (fun _ _ => 0) (fun _ => 0) tr order) ↔
        (∀ order, Published tr order → order < intMax) ∧ NoneLate tr) := by
  obtain ⟨tr, s, f, hr, hp, hf, hpub, -⟩ := run_late
  exact ⟨tr, s, f, hp, hf, hpub, noneLost_iff hr hp hf⟩

theorem noneLost_fails : ¬∀ (cfg : Config) (u : Uninit) (fileBuff : FileBuff) (data : Nat → Nat → UInt8)
    (dataLen : Nat → Nat) (tr : List (Label UdpBuffer)) (s : State) (f : FileWriter),
    Lts.Run (Step cfg u) (init fileBuff data dataLen) tr s → s.producer = .returned → s.consumer = .returned f →
      (∀ index, isReady s index = false) ∧
        ∀ order, Published tr order → Settled cfg u fileBuff data dataLen tr order := by
  intro h
  obtain ⟨tr, s, f, hr, hp, hf, -, hlate⟩ := run_late
  obtain ⟨hready, hsettled⟩ := h _ _ _ _ _ tr s f hr hp hf
  exact hlate ((isReady_returned hr hf hp fun order horder => (hsettled order horder).lt).mp hready)

end FilePool
end VoltRec
