import VoltRec.Reception
import VoltRec.Theorems.NetworkPool
import VoltRec.Theorems.Threads

/-! Who has the buffers of the network pool. As long as `recvfrom` does not return 0, the receiver gives each
    buffer back once and before it takes the next, and the worker one at a time. The branch of an empty
    datagram gives the buffer back itself, and the call behind the loop does it again. -/

namespace VoltRec.Reception

variable {n : Nat} {data : Nat → Nat → UInt8} {dataLen : Nat → Nat} {tr : List (Label RecvResult)} {s : State}

/-! ### One thread -/

/-- The buffer that the receiver has where it stands. -/
def ReceiverAt.currentBuff : ReceiverAt → Option Nat
  | .reading index _ _ => some index
  | .copying index _ _ _ _ => some index
  | .zero index _ => some index
  | .leaving index _ => some index
  | _ => none

/-- The receiver is past a `recvfrom` that returned 0. -/
def ReceiverAt.isZero : ReceiverAt → Bool
  | .zero _ _ => true
  | .zeroReturning _ _ => true
  | .zeroReturned _ _ => true
  | _ => false

/-- The order of the next publication. -/
def RecvThread.nextOrder (t : RecvThread) : Nat :=
  match t.pos with
  | .returning => t.order + 1
  | _ => t.order

/-- A buffer, taken and published once. -/
def roundTrip (r : Nat × Int × Nat) : List Call := [.fetchEmptyBuffer r.1, .returnBuffer r.1 r.2.1 r.2.2]

/-- The receiver has published each buffer once, under the numbers from 1 on, but for the one that it has. -/
structure Receives (t : RecvThread) (cs : List Call) : Prop where
  notZero : t.pos.isZero = false
  calls : ∃ published : List (Nat × Int × Nat),
    cs = published.flatMap roundTrip ++ (t.pos.currentBuff.map Call.fetchEmptyBuffer).toList ∧
      published.map (fun r => r.2.1) = (List.range published.length).map (fun k : Nat => (k : Int) + 1) ∧
      t.nextOrder = published.length + 1

theorem Receives.same {t t' : RecvThread} {cs : List Call} (h : Receives t cs) (hz : t'.pos.isZero = false)
    (hb : t'.pos.currentBuff = t.pos.currentBuff) (hn : t'.nextOrder = t.nextOrder) :
    Receives t' (cs ++ (none : Option Call).toList) := by
  refine ⟨hz, ?_⟩
  rw [hb, hn, Option.toList_none, List.append_nil]
  exact h.calls

theorem Receives.held {t : RecvThread} {cs : List Call} (h : Receives t cs) {index : Nat}
    (hb : t.pos.currentBuff = some index) : holding .producer cs index = some .producer := by
  obtain ⟨published, rfl, -⟩ := h.calls
  refine holding_of_held ?_
  rw [hb, Option.map_some, Option.toList_some, heldAfter_fetchEmptyBuffer, if_pos rfl]

def NotZero (l : Label RecvResult) : Prop := l ≠ .input .zero

theorem disciplined_receiver :
    Disciplined .producer NotZero RecvTurn { order := 1, pos := .test } Receives where
  start := ⟨rfl, [], rfl, rfl, rfl⟩
  thread h := by cases h <;> rfl
  held h _ ho _ := by
    obtain ⟨hz, -⟩ := id ho
    cases h with
    | write hp => exact ⟨ho.held (by rw [hp]; rfl), trivial⟩
    | returnBuffer hp =>
      obtain ⟨published, -, -, hn⟩ := ho.calls
      refine ⟨ho.held (by rw [hp]; rfl), ?_⟩
      simp only [RecvThread.nextOrder, hp] at hn
      simp only [Act.Positive]
      omega
    | integrity hp => exact ⟨ho.held (by rw [hp]; rfl), trivial⟩
    | zeroReturn hp | zeroIntegrity hp =>
      rw [hp] at hz
      cases hz
    | fetchEmptyBuffer | noEmpty | zeroReady | ready => exact ⟨trivial, trivial⟩
  step {_ t _ _ _ _} h hl ho _ := by
    obtain ⟨hz, published, rfl, hnum, hn⟩ := id ho
    cases h with
    | fetchEmptyBuffer hp =>
      refine ⟨rfl, published, ?_, hnum, ?_⟩
      · simp [hp, ReceiverAt.currentBuff, Label.call?, Label.act?, Act.call]
      · simpa [RecvThread.nextOrder, hp] using hn
    | @returnBuffer _ _ index dataSize _ hp =>
      refine ⟨rfl, published ++ [(index, (t.order : Int), dataSize)], ?_, ?_, ?_⟩
      · simp [hp, ReceiverAt.currentBuff, Label.call?, Label.act?, Act.call, roundTrip]
      · simp only [RecvThread.nextOrder, hp] at hn
        simp [hnum, List.range_succ, hn]
      · simpa [RecvThread.nextOrder, hp] using hn
    | zero => exact absurd rfl hl
    | zeroReturn hp | zeroReady hp | stop hp =>
      rw [hp] at hz
      cases hz
    | zeroIntegrity hp =>
      rw [hp] at hz
      cases hz
    | ready hp => exact ho.same rfl (by rw [hp]; rfl) (by simp [RecvThread.nextOrder, hp])
    | integrity hp => exact ho.same (by rw [hp]; rfl) rfl rfl
    | goOn hp | leave hp | noEmpty hp | datagram hp | wrongSize hp | error hp | write hp | copied hp | readAll hp =>
      exact ho.same rfl (by rw [hp]; rfl) (by simp [RecvThread.nextOrder, hp])

/-- The worker has the buffer that it reads. -/
def Empties (c : EmptierAt) (cs : List Call) : Prop := ∀ index, c = .reading index → heldAfter index cs = true

theorem disciplined_emptier : Disciplined .consumer NotZero EmptierTurn .test Empties where
  start index h := by cases h
  thread h := by cases h <;> rfl
  held h _ ho _ := by
    cases h with
    | returnEmptyBuffer | integrity => exact ⟨holding_of_held (ho _ rfl), trivial⟩
    | fetchBufferWait | waitOn | shut | fetchBufferTake | takeNone => exact ⟨trivial, trivial⟩
  step h _ ho _ := by
    cases h with
    | fetchBufferTake =>
      rintro index ⟨⟩
      simp [Label.call?, Label.act?, Act.call]
    | integrity => simpa [Label.call?, Label.act?, Act.call] using ho
    | goOn | leave | fetchBufferWait | waitOn | shut | takeNone | returnEmptyBuffer => exact fun index h => by cases h

/-! ### The loops of the network pool -/

def EmptierAt.indexIn : EmptierAt → Option Nat
  | .reading index => some index
  | _ => none

/-- The state as the model of the two loops has it, which knows no shutdown. -/
def network (s : State) : Network where
  pool := s.pool
  locals := { order := s.producer.nextOrder, filling := s.producer.pos.currentBuff, reading := s.consumer.indexIn }

/-- A step is one of the loops, or the loops do not see it. -/
theorem network_step {s' : State} {l : Label RecvResult} (hz : s.producer.pos.isZero = false) (hs : Step s l s')
    (hl : NotZero l) :
    (∃ a, l = .call a ∧ (network s).Step a (network s')) ∨ l.act? = none ∧ network s' = network s := by
  obtain ⟨p, k, t, c⟩ := s
  cases hs with
  | interrupt => exact Or.inr ⟨rfl, rfl⟩
  | producer ht hp =>
    obtain ⟨order, pos⟩ := t
    simp only at ht hz
    cases ht with
    | fetchEmptyBuffer h => cases h; exact Or.inl ⟨_, rfl, hp, .fetchEmptyBuffer rfl⟩
    | noEmpty h => cases h; exact Or.inl ⟨_, rfl, hp, .noEmpty rfl⟩
    | write h => cases h; exact Or.inl ⟨_, rfl, hp, .write rfl⟩
    | returnBuffer h => cases h; exact Or.inl ⟨_, rfl, hp, .returnBufferData rfl⟩
    | integrity h => cases h; exact Or.inl ⟨_, rfl, hp, .integrityFilling rfl⟩
    | ready h => cases h; exact Or.inl ⟨_, rfl, hp, .returnBufferReady⟩
    | zeroReturn h | zeroReady h | zeroIntegrity h | stop h =>
      cases h
      cases hz
    | zero => exact absurd rfl hl
    | goOn h | leave h | datagram h | wrongSize h | error h | copied h | readAll h =>
      cases h
      cases hp
      exact Or.inr ⟨rfl, rfl⟩
  | consumer ht hp =>
    cases ht with
    | fetchBufferWait => exact Or.inl ⟨_, rfl, hp, .fetchBufferWait rfl⟩
    | waitOn | shut => exact Or.inl ⟨_, rfl, hp, .fetchBufferShut rfl⟩
    | fetchBufferTake => exact Or.inl ⟨_, rfl, hp, .fetchBufferTake rfl⟩
    | takeNone => exact Or.inl ⟨_, rfl, hp, .takeNone rfl⟩
    | returnEmptyBuffer => exact Or.inl ⟨_, rfl, hp, .returnEmptyBuffer rfl⟩
    | integrity => exact Or.inl ⟨_, rfl, hp, .integrityReading rfl⟩
    | goOn | leave => cases hp; exact Or.inr ⟨rfl, rfl⟩

/-- As long as `recvfrom` does not return 0, the threads are the loops whose pool delivers in order. -/
theorem network_run (hr : Lts.Run Step (init n data dataLen) tr s) (hz : ∀ l ∈ tr, l ≠ .input .zero) :
    Lts.Run Network.Step (.init n data dataLen) (acts tr) (network s) := by
  refine hr.invariant (I := fun tr s => (∀ l ∈ tr, NotZero l) →
    Lts.Run Network.Step (.init n data dataLen) (acts tr) (network s)) (fun _ => .start)
    (fun tr s l s' hr ih hs hz => ?_) hz
  have hz' : ∀ l ∈ tr, NotZero l := fun b hb => hz b (List.mem_append_left _ hb)
  obtain ⟨holder, hk⟩ := Threads.kept disciplined_receiver disciplined_emptier hr hz'
  rw [acts_append]
  rcases network_step hk.producer.notZero hs (hz l (by simp)) with ⟨a, rfl, hstep⟩ | ⟨hnone, hsame⟩
  · exact (ih hz').next hstep
  · rw [hnone, hsame, Option.toList_none, List.append_nil]
    exact ih hz'

/-! ### Runs -/

/-- Each buffer that the receiver took it has published once, each time under another order, but for the one
    that it has. A call gives a slot back only while it is with that thread alone, so none aborts. -/
structure ReturnsOnce (tr : List (Label RecvResult)) (s : State) : Prop where
  once : ∃ published : List (Nat × Int × Nat), calls .producer tr =
      published.flatMap roundTrip ++ (s.producer.pos.currentBuff.map Call.fetchEmptyBuffer).toList ∧
    (published.map fun r => r.2.1).Nodup
  held : ∀ pre a post index, tr = pre ++ .call a :: post → a.givenBack = some index →
    Holds a.thread pre index ∧ ∀ t, t ≠ a.thread → ¬Holds t pre index
  integrity : ∀ t index, .call (.dataIntegrity t index) ∉ tr

/-- In every run in which `recvfrom` never returns 0 the receiver returns each buffer once. -/
theorem returnsOnce_of_notZero (hr : Lts.Run Step (init n data dataLen) tr s) (hz : ∀ l ∈ tr, l ≠ .input .zero) :
    ReturnsOnce tr s := by
  obtain ⟨holder, hk⟩ := Threads.kept disciplined_receiver disciplined_emptier hr hz
  obtain ⟨published, hcalls, hnum, -⟩ := hk.producer.calls
  refine ⟨⟨published, hcalls, ?_⟩, fun pre a post index htr ha => ?_, fun t index hmem => ?_⟩
  · rw [hnum]
    exact List.nodup_range.map fun j k h => by omega
  · subst htr
    obtain ⟨s₁, -, hr₁, -⟩ := hr.split
    obtain ⟨holder₁, hk₁⟩ := Threads.kept disciplined_receiver disciplined_emptier hr₁ fun l hl =>
      hz l (List.mem_append_left _ hl)
    have hheld := hk.givenBack rfl ha
    refine ⟨hheld, fun t ht hother => ?_⟩
    have := ((hk₁.holds _ _).mpr hheld).symm.trans ((hk₁.holds _ _).mpr hother)
    exact ht (Option.some.inj this).symm
  · exact hk.not_integrity t index (List.mem_filterMap.mpr ⟨_, hmem, rfl⟩)

theorem Step.producer {s : State} {l : Label RecvResult} {k : Bool} {t : RecvThread} {pool : Pool Side}
    (h : RecvTurn s.keepGoing s.producer l k t) (hp : l.OnPool s.pool pool) :
    Step s l ⟨pool, k, t, s.consumer⟩ := Threads.Step.producer h hp

theorem Step.consumer {s : State} {l : Label RecvResult} {k : Bool} {c : EmptierAt} {pool : Pool Side}
    (h : EmptierTurn s.keepGoing s.consumer l k c) (hp : l.OnPool s.pool pool) :
    Step s l ⟨pool, k, s.producer, c⟩ := Threads.Step.consumer h hp

/-- An error ends the first read, and the buffer is published empty. -/
theorem run_error : ∃ tr s, Lts.Run Step (init 1 (fun _ _ => 0) fun _ => 0) tr s ∧
    calls .producer tr = roundTrip (0, 1, 0) ∧ ∀ l ∈ tr, l ≠ .input .zero := by
  refine ⟨_, _, .next (.next (.next (.next (.next .start (.producer (.goOn rfl) rfl))
    (.producer (.fetchEmptyBuffer rfl) (.fetchEmptyBuffer ⟨?_, ?_⟩ rfl rfl)))
    (.producer (.error rfl (by decide)) rfl))
    (.producer (.returnBuffer rfl) (.returnBufferData ⟨?_, ?_⟩ rfl rfl)))
    (.producer (.ready rfl) (.returnBufferReady rfl)), rfl, by simp⟩
  all_goals simp [init, Threads.init, Pool.init]

theorem returnsOnce_error : ∃ tr s, calls .producer tr = roundTrip (0, 1, 0) ∧ ReturnsOnce tr s := by
  obtain ⟨tr, s, hr, hcalls, hz⟩ := run_error
  exact ⟨tr, s, hcalls, returnsOnce_of_notZero hr hz⟩

/-- The first buffer up to the return in the branch of an empty datagram. -/
theorem run_zero : ∃ tr, calls .producer tr = [.fetchEmptyBuffer 0, .returnBuffer 0 1 0] ∧
    Lts.Run Step (init 1 (fun _ _ => 0) fun _ => 0) tr
      { pool :=
          { buff := { data := fun _ _ => 0, dataLen := Function.update (fun _ => 0) 0 0, orderNo := [1], nReady := 1 }
            publishing := none, claimed := ∅ }
        keepGoing := true, producer := { order := 1, pos := .zeroReturned 0 0 }, consumer := .test } := by
  refine ⟨_, ?_, .next (.next (.next (.next (.next .start (.producer (.goOn rfl) rfl))
    (.producer (.fetchEmptyBuffer rfl) (.fetchEmptyBuffer ⟨?_, ?_⟩ rfl rfl)))
    (.producer (.zero rfl (by decide)) rfl))
    (.producer (.zeroReturn rfl) (.returnBufferData ⟨?_, ?_⟩ rfl rfl)))
    (.producer (.zeroReady rfl) (.returnBufferReady rfl))⟩
  · rfl
  all_goals simp [init, Threads.init, Pool.init]

/-- Where the worker has not fetched the buffer by then, the return behind the loop aborts. -/
theorem zero_aborts : ∃ tr s, Lts.Run Step (init 1 (fun _ _ => 0) fun _ => 0) tr s ∧
    .call (.dataIntegrity .producer 0) ∈ tr := by
  obtain ⟨tr, -, hr⟩ := run_zero
  refine ⟨_, _, .next (.next hr (.producer (.stop rfl) rfl))
    (.producer (.integrity rfl) (.dataIntegrity ⟨?_, ?_⟩ rfl rfl)), by simp⟩
  all_goals simp

/-- Where the worker is reading it, the return behind the loop publishes it once more, under the same order. -/
theorem zero_publishes_twice : ∃ tr s, Lts.Run Step (init 1 (fun _ _ => 0) fun _ => 0) tr s ∧
    calls .producer tr = [.fetchEmptyBuffer 0, .returnBuffer 0 1 0, .returnBuffer 0 1 0] ∧ s.consumer = .reading 0 := by
  obtain ⟨tr, hcalls, hr⟩ := run_zero
  refine ⟨_, _, .next (.next (.next (.next (.next hr (.consumer .goOn rfl))
    (.consumer .fetchBufferWait (.fetchBufferWait ⟨?_, ?_⟩ rfl)))
    (.consumer .fetchBufferTake (.fetchBufferTake ?_ rfl rfl)))
    (.producer (.stop rfl) rfl))
    (.producer (.returnBuffer rfl) (.returnBufferData ⟨?_, ?_⟩ rfl rfl)), by simp only [calls_snoc, hcalls]; rfl,
    rfl⟩
  all_goals simp

/-- A datagram of no bytes makes the receiver return its buffer twice. -/
theorem returnsOnce_fails : ¬∀ (n : Nat) (data : Nat → Nat → UInt8) (dataLen : Nat → Nat)
    (tr : List (Label RecvResult)) (s : State), Lts.Run Step (init n data dataLen) tr s → ReturnsOnce tr s := by
  intro h
  obtain ⟨tr, s, hr, hmem⟩ := zero_aborts
  exact (h _ _ _ _ _ hr).integrity _ _ hmem

end VoltRec.Reception
