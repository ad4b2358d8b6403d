import VoltRec.JobThreads
import VoltRec.Theorems.PacketJobQueue
import Mathlib.Algebra.BigOperators.Group.Finset.Piecewise
import Mathlib.Data.Fintype.BigOperators

/-! No wake-up of the job queue is lost. The boss and the workers with their condition variables follow the critical
    sections, a thread sleeps only while its condition is false, and while the boss waits for the completion of its jobs
    there is always a step that brings its return nearer, whatever the order of the steps. -/

namespace VoltRec.VoltOuter

def JobWorkerAt.myJob : JobWorkerAt → Option PacketJob
  | .busy job => some job
  | _ => none

namespace JobThreads

variable {n : Nat} {s s' s'' : JobThreads n} {a : Event n} {tr tr' : List (Event n)} {w : Fin n} {x : JobWorkerAt}

/-! ### The critical sections -/

/-- The critical section in an event; the others leave the queue and the jobs in hand alone. -/
def Event.section_ (hn : n ≤ 2 ^ 31) : Event n → Option JobAct
  | .push job => some (.push job)
  | .pushFull job => some (.pushFull job)
  | .waited => some .wait
  | .pop w job => some (.pop (w.castLE hn) job)
  | .complete w job alreadyZero => some (.complete (w.castLE hn) job alreadyZero)
  | .bossSleeps | .test _ | .workerSleeps _ | .bossSpurious | .workerSpurious _ | .stop => none

/-- The queue and the jobs in hand. -/
def jobState (s : JobThreads n) : JobState where
  pjq := s.pjq
  myJob w := if h : w.val < n then (s.workers ⟨w, h⟩).myJob else none

theorem jobState_move (hn : n ≤ 2 ^ 31) (s : JobThreads n) (w : Fin n) (x : JobWorkerAt) :
    (s.move w x).jobState = { s.jobState with myJob := Function.update s.jobState.myJob (w.castLE hn) x.myJob } := by
  simp only [jobState, move, JobState.mk.injEq, true_and]
  funext w'
  by_cases hw : w' = w.castLE hn
  · subst hw
    simp
  · rw [Function.update_of_ne hw]
    split
    · rename_i h
      rw [Function.update_of_ne fun heq => hw (by rw [← heq]; rfl)]
    · rfl

theorem jobState_idle (hn : n ≤ 2 ^ 31) (hw : (s.workers w).myJob = x.myJob) : (s.move w x).jobState = s.jobState := by
  have hsame : s.jobState.myJob (w.castLE hn) = x.myJob := by simp [jobState, hw]
  rw [jobState_move hn, ← hsame, Function.update_eq_self]

theorem myJob_wake (x : JobWorkerAt) : x.wake.myJob = x.myJob := by
  cases x <;> rfl

theorem myJob_inPop (h : x.inPop = true) : x.myJob = none := by
  cases x <;> first | rfl | cases h

theorem projects (hn : n ≤ 2 ^ 31) : Lts.Run.Projects Step JobStep (jobState (n := n)) (Event.section_ hn) := by
  intro s a t hs
  cases hs with
  | @push _ pjq _ h =>
    have hwake : jobState { s with pjq := pjq, workers := fun w => (s.workers w).wake } =
        { s.jobState with pjq := pjq } := by simp only [jobState, myJob_wake]
    exact Or.inl ⟨_, rfl, hwake ▸ .push h⟩
  | pushFull _ h => exact Or.inl ⟨_, rfl, .pushFull h⟩
  | waited _ h => exact Or.inl ⟨_, rfl, .wait h⟩
  | pop hw h =>
    refine Or.inl ⟨_, rfl, ?_⟩
    rw [jobState_move hn]
    exact .pop (by simp [jobState, myJob_inPop hw]) h
  | complete busy h =>
    refine Or.inl ⟨_, rfl, ?_⟩
    rw [jobState_move hn]
    exact .complete (by simp [jobState, busy, JobWorkerAt.myJob]) h
  | test h =>
    refine Or.inr ⟨rfl, jobState_idle hn ?_⟩
    rw [h]
    split <;> rfl
  | workerSleeps hw _ => exact Or.inr ⟨rfl, jobState_idle hn (myJob_inPop hw)⟩
  | workerSpurious h => exact Or.inr ⟨rfl, jobState_idle hn (by rw [h]; rfl)⟩
  | bossSleeps | bossSpurious | stop => exact Or.inr ⟨rfl, rfl⟩

theorem jobState_init (n : Nat) : (init n).jobState = .init := by
  simp [jobState, init, JobState.init, JobWorkerAt.myJob]

/-- The calls of a run are a run of the critical sections. -/
theorem run_sections (hn : n ≤ 2 ^ 31) (hr : Lts.Run Step (init n) tr s) :
    Lts.Run JobStep .init (tr.filterMap (Event.section_ hn)) s.jobState :=
  jobState_init n ▸ hr.project (projects hn)

/-! ### Sleeping -/

/-- A thread sleeps only while its condition is false, and a worker returns only after the end of `run_threads`. -/
structure Sleeping (s : JobThreads n) : Prop where
  boss : s.boss = .asleep → s.pjq.numPending ≠ 0
  workers : ∀ w, s.workers w = .asleep → s.pjq.numQueued = 0
  returned : s.runThreads = true → ∀ w, s.workers w ≠ .returned

theorem Sleeping.move (h : Sleeping s) (hsleep : x = .asleep → s.pjq.numQueued = 0)
    (hreturn : s.runThreads = true → x ≠ .returned) : Sleeping (s.move w x) where
  boss := h.boss
  workers w' := by
    by_cases hw : w' = w
    · subst hw
      simpa [JobThreads.move] using hsleep
    · simpa [JobThreads.move, hw] using h.workers w'
  returned hrun w' := by
    by_cases hw : w' = w
    · subst hw
      simpa [JobThreads.move] using hreturn hrun
    · simpa [JobThreads.move, hw] using h.returned hrun w'

theorem wake_ne_asleep (x : JobWorkerAt) : x.wake ≠ .asleep := by
  cases x <;> nofun

theorem bossWake_ne_asleep (b : BossAt) : b.wake ≠ .asleep := by
  cases b <;> nofun

theorem wake_eq_returned : x.wake = .returned ↔ x = .returned := by
  cases x <;> simp [JobWorkerAt.wake]

theorem completeJob_numQueued {pjq pjq' : PacketJobQueue} {alreadyZero : Bool}
    (h : pjq.completeJob = (alreadyZero, pjq')) : pjq'.numQueued = pjq.numQueued := by
  rw [PacketJobQueue.completeJob] at h
  split at h <;> cases h <;> rfl

theorem popJob_eq_none {pjq : PacketJobQueue} : pjq.popJob = none ↔ pjq.numQueued = 0 := by
  rw [PacketJobQueue.popJob]
  split <;> simp [*]

theorem popJob_numQueued {pjq pjq' : PacketJobQueue} {job : PacketJob} (h : pjq.popJob = some (job, pjq')) :
    pjq'.numQueued + 1 = pjq.numQueued := by
  obtain ⟨hpos, -, rfl⟩ := PacketJobQueue.popJob_spec h
  exact Nat.sub_add_cancel hpos

theorem Sleeping.step (h : Sleeping s) (hs : Step s a s') : Sleeping s' := by
  cases hs with
  | push outside hp =>
    refine ⟨fun hb => ?_, fun w hw => absurd hw (wake_ne_asleep _), fun hrun w hw =>
      h.returned hrun w (wake_eq_returned.mp hw)⟩
    cases outside.symm.trans hb
  | @pushFull job pjq _ hp =>
    have hsame : pjq = s.pjq := by simpa [hp] using s.pjq.pushJob_full job
    exact ⟨hsame ▸ h.boss, hsame ▸ h.workers, h.returned⟩
  | waited _ _ => exact ⟨nofun, h.workers, h.returned⟩
  | bossSleeps _ hfalse => exact ⟨fun _ => beq_eq_false_iff_ne.mp hfalse, h.workers, h.returned⟩
  | test ht =>
    refine h.move (fun hsleep => ?_) fun hrun => ?_
    · split at hsleep <;> cases hsleep
    · rw [if_pos hrun]
      nofun
  | pop hw hp =>
    obtain ⟨hpos, -, rfl⟩ := PacketJobQueue.popJob_spec hp
    refine Sleeping.move ⟨h.boss, fun w' hw' => ?_, h.returned⟩ nofun fun _ => nofun
    exact absurd (h.workers w' hw') hpos.ne'
  | workerSleeps hw hp =>
    exact h.move (fun _ => popJob_eq_none.mp hp) fun _ => nofun
  | @complete w job alreadyZero pjq busy hc =>
    have hqueued := completeJob_numQueued hc
    refine Sleeping.move ⟨fun hb => ?_, fun w' hw' => hqueued.trans (h.workers w' hw'), h.returned⟩ nofun fun _ => nofun
    by_cases hzero : pjq.numPending = 0
    · rw [if_pos hzero] at hb
      exact absurd hb (bossWake_ne_asleep _)
    · exact hzero
  | bossSpurious hb => exact ⟨nofun, h.workers, h.returned⟩
  | workerSpurious hw => exact h.move nofun fun _ => nofun
  | stop => exact ⟨h.boss, h.workers, nofun⟩

theorem sleeping_init (n : Nat) : Sleeping (init n) where
  boss h := by cases h
  workers w h := by cases h
  returned _ w h := by cases h

theorem sleeping (hr : Lts.Run Step (init n) tr s) : Sleeping s :=
  hr.invariant (I := fun _ s => Sleeping s) (sleeping_init n) fun _ _ _ _ _ h hs => h.step hs

/-! ### The way to the return -/

def Event.isSpurious : Event n → Bool
  | .bossSpurious | .workerSpurious _ => true
  | _ => false

/-- How many steps a worker can take from where it stands without further jobs. -/
def workerWork : JobWorkerAt → Nat
  | .test => 2
  | .popping | .woken => 1
  | .busy _ => 4
  | .asleep | .returned => 0

def bossWork : BossAt → Nat
  | .woken => 1
  | .outside | .asleep => 0

/-- A bound on the steps until the boss returns, but for spurious wake-ups. -/
def work (s : JobThreads n) : Nat := ∑ w, workerWork (s.workers w) + 4 * s.pjq.numQueued + bossWork s.boss

theorem work_move (s : JobThreads n) (w : Fin n) (x : JobWorkerAt) :
    (s.move w x).work + workerWork (s.workers w) = s.work + workerWork x := by
  have hmoved : (fun w' => workerWork ((s.move w x).workers w')) =
      Function.update (fun w' => workerWork (s.workers w')) w (workerWork x) := by
    funext w'
    by_cases hw : w' = w
    · subst hw
      simp [move]
    · simp [move, hw]
  simp only [work, hmoved, Finset.sum_update_of_mem (Finset.mem_univ w), Finset.sdiff_singleton_eq_erase,
    ← Finset.add_sum_erase Finset.univ (fun w' => workerWork (s.workers w')) (Finset.mem_univ w)]
  simp only [move]
  omega

theorem work_queue (s : JobThreads n) (pjq : PacketJobQueue) (boss : BossAt) :
    { s with pjq := pjq, boss := boss }.work + 4 * s.pjq.numQueued + bossWork s.boss =
      s.work + 4 * pjq.numQueued + bossWork boss := by
  simp only [work]
  omega

theorem workerWork_inPop (h : x.inPop = true) : workerWork x = 1 := by
  cases x <;> first | rfl | cases h

theorem bossWork_wake (b : BossAt) : bossWork b.wake ≤ bossWork b + 1 := by
  cases b <;> decide

/-- While the boss waits, every step takes some of the work away, and a spurious wake-up adds one. -/
theorem Step.work (hs : Step s a s') (hin : s.boss ≠ .outside) (hno : a ≠ .waited) (hrun : s'.runThreads = true) :
    s'.boss ≠ .outside ∧
      s'.work + (if a.isSpurious then 0 else 1) ≤ s.work + if a.isSpurious then 1 else 0 := by
  cases hs with
  | push outside _ | pushFull outside _ => exact absurd outside hin
  | waited _ _ => exact absurd rfl hno
  | stop => cases hrun
  | bossSleeps awake _ =>
    refine ⟨nofun, ?_⟩
    have hwoken : s.boss = .woken := by
      cases hb : s.boss <;> simp_all
    simp [JobThreads.work, Event.isSpurious, bossWork, hwoken]
  | bossSpurious hb => exact ⟨nofun, by simp [JobThreads.work, Event.isSpurious, bossWork, hb]⟩
  | @test w ht =>
    have hmove := work_move s w .popping
    rw [ht] at hmove
    refine ⟨hin, ?_⟩
    rw [if_pos (show s.runThreads = true from hrun)]
    simp only [workerWork, Event.isSpurious, Bool.false_eq_true, if_false] at hmove ⊢
    omega
  | @pop w job pjq hw hp =>
    have hqueued := popJob_numQueued hp
    have hqueue := work_queue s pjq s.boss
    have hmove := work_move { s with pjq := pjq } w (.busy job)
    rw [show workerWork (s.workers w) = 1 from workerWork_inPop hw] at hmove
    refine ⟨hin, ?_⟩
    simp only [workerWork, Event.isSpurious, Bool.false_eq_true, if_false] at hmove ⊢
    omega
  | @workerSleeps w hw _ =>
    have hmove := work_move s w .asleep
    rw [workerWork_inPop hw] at hmove
    refine ⟨hin, ?_⟩
    simp only [workerWork, Event.isSpurious, Bool.false_eq_true, if_false] at hmove ⊢
    omega
  | @complete w job alreadyZero pjq busy hc =>
    have hqueued := completeJob_numQueued hc
    have hwake := bossWork_wake s.boss
    generalize hb : (if pjq.numPending = 0 then s.boss.wake else s.boss) = boss
    have hboss : boss ≠ .outside ∧ bossWork boss ≤ bossWork s.boss + 1 := by
      subst hb
      split
      · exact ⟨fun h => hin (by cases hs : s.boss <;> simp_all [BossAt.wake]), hwake⟩
      · exact ⟨hin, Nat.le_succ _⟩
    have hqueue := work_queue s pjq boss
    have hmove := work_move { s with pjq := pjq, boss := boss } w .test
    rw [show workerWork (s.workers w) = 4 by rw [busy]; rfl] at hmove
    refine ⟨hboss.1, ?_⟩
    simp only [workerWork, Event.isSpurious, Bool.false_eq_true, if_false] at hmove ⊢
    omega
  | @workerSpurious w hw =>
    have hmove := work_move s w .woken
    rw [hw] at hmove
    refine ⟨hin, ?_⟩
    simp only [workerWork, Event.isSpurious, if_true] at hmove ⊢
    omega

theorem Step.runThreads (hs : Step s a s') (hrun : s'.runThreads = true) : s.runThreads = true := by
  cases hs <;> first | exact hrun | cases hrun

theorem run_work (hr : Lts.Run Step s tr s') (hin : s.boss ≠ .outside) (hno : .waited ∉ tr)
    (hrun : s'.runThreads = true) :
    s'.boss ≠ .outside ∧ tr.countP (! ·.isSpurious) + s'.work ≤ s.work + tr.countP (·.isSpurious) := by
  induction hr with
  | start => exact ⟨hin, by simp⟩
  | @next tr t u a _ hs ih =>
    obtain ⟨hin', hle⟩ := ih (fun hmem => hno (List.mem_append_left _ hmem)) (hs.runThreads hrun)
    have hne : a ≠ .waited := fun heq => hno (by simp [heq])
    obtain ⟨hout, hwork⟩ := hs.work hin' hne hrun
    refine ⟨hout, ?_⟩
    simp only [List.countP_append, List.countP_singleton, Bool.not_eq_true']
    cases hspur : a.isSpurious <;> simp only [hspur, Bool.false_eq_true, if_true, if_false, reduceCtorEq] at hwork ⊢ <;>
      omega

/-! ### The return -/

theorem busy_of_myJob {job : PacketJob} (h : x.myJob = some job) : x = .busy job := by
  cases x <;> simp_all [JobWorkerAt.myJob]

/-- The workers at a job, and how many jobs are pending. -/
theorem pending_jobs (hn : n ≤ 2 ^ 31) (hr : Lts.Run Step (init n) tr s) :
    (∀ w job, s.workers w ≠ .busy job) ∧ s.pjq.numPending = s.pjq.numQueued ∨
      ∃ w job, s.workers w = .busy job ∧ s.pjq.numPending ≠ 0 := by
  obtain ⟨hands, hin, -, hpending⟩ := (tracked_run (run_sections hn hr)).1.pending
  change s.pjq.numPending = s.pjq.numQueued + hands.length at hpending
  cases hands with
  | nil =>
    refine Or.inl ⟨fun w job hbusy => ?_, hpending⟩
    have hmem := (hin.mem (w.castLE hn) job).mpr (by simp [jobState, hbusy, JobWorkerAt.myJob])
    cases hmem
  | cons hand hands =>
    obtain ⟨w, job⟩ := hand
    have hjob := (hin.mem w job).mp List.mem_cons_self
    simp only [jobState] at hjob
    split at hjob
    · rw [List.length_cons] at hpending
      exact Or.inr ⟨_, job, busy_of_myJob hjob, by omega⟩
    · cases hjob

theorem exists_step (hpos : 0 < n) (hn : n ≤ 2 ^ 31) (hr : Lts.Run Step (init n) tr s) (hin : s.boss ≠ .outside)
    (hrun : s.runThreads = true) : ∃ a s', Step s a s' ∧ a.isSpurious = false ∧ a ≠ .stop := by
  have hsleep := sleeping hr
  have hcomplete : ∀ w job, s.workers w = .busy job → ∃ a s', Step s a s' ∧ a.isSpurious = false ∧ a ≠ .stop :=
    fun w job hbusy => ⟨_, _, .complete hbusy rfl, rfl, nofun⟩
  cases hboss : s.boss with
  | outside => exact absurd hboss hin
  | woken =>
    have hawake : s.boss ≠ .asleep := by rw [hboss]; nofun
    cases hdone : s.pjq.jobsCompleted with
    | true => exact ⟨_, _, .waited hawake hdone, rfl, nofun⟩
    | false => exact ⟨_, _, .bossSleeps hawake hdone, rfl, nofun⟩
  | asleep =>
    rcases pending_jobs hn hr with ⟨-, hpending⟩ | ⟨w, job, hbusy, -⟩
    · -- Nobody is at a job, so some are queued, and no worker is asleep.
      have hqueued : s.pjq.numQueued ≠ 0 := hpending ▸ hsleep.boss hboss
      have hpop : (s.workers ⟨0, hpos⟩).inPop = true → ∃ a s', Step s a s' ∧ a.isSpurious = false ∧ a ≠ .stop := by
        intro hw
        cases hp : s.pjq.popJob with
        | none => exact ⟨_, _, .workerSleeps hw hp, rfl, nofun⟩
        | some job => exact ⟨_, _, .pop hw hp, rfl, nofun⟩
      cases hw : s.workers ⟨0, hpos⟩ with
      | test => exact ⟨_, _, .test hw, rfl, nofun⟩
      | popping | woken => exact hpop (by rw [hw]; rfl)
      | asleep => exact absurd (hsleep.workers _ hw) hqueued
      | busy job => exact hcomplete _ job hw
      | returned => exact absurd hw (hsleep.returned hrun _)
    · exact hcomplete w job hbusy

/-- `wait_for_job_completion` returns, when all jobs are done, in every schedule: from any point at which the boss is
    asleep or woken in it, as long as `run_threads` is true, there is a step to take, and the steps but for spurious
    wake-ups are bounded. A thread that sleeps has nothing to do. -/
theorem wait_returns (hpos : 0 < n) (hn : n ≤ 2 ^ 31) (hr : Lts.Run Step (init n) tr s) (hin : s.boss ≠ .outside)
    (hr' : Lts.Run Step s tr' s') (hno : .waited ∉ tr') (hrun : s'.runThreads = true) :
    tr'.countP (! ·.isSpurious) ≤ s.work + tr'.countP (·.isSpurious) ∧
      (∃ a s'', Step s' a s'' ∧ a.isSpurious = false ∧ a ≠ .stop) ∧
      ((s'.boss = .asleep → s'.pjq.numPending ≠ 0) ∧ ∀ w, s'.workers w = .asleep → s'.pjq.numQueued = 0) ∧
      ∀ s'', Step s' .waited s'' → s''.pjq.numQueued = 0 ∧ ∀ w job, s''.workers w ≠ .busy job := by
  obtain ⟨hin', hwork⟩ := run_work hr' hin hno hrun
  have hreach := hr.append hr'
  have hsleep := sleeping hreach
  refine ⟨by omega, exists_step hpos hn hreach hin' hrun, ⟨hsleep.boss, hsleep.workers⟩, fun s'' hs => ?_⟩
  cases hs with
  | waited _ hdone =>
    have hzero : s'.pjq.numPending = 0 := beq_iff_eq.mp hdone
    rcases pending_jobs hn hreach with ⟨hidle, hpending⟩ | ⟨_, _, -, hne⟩
    · exact ⟨hpending ▸ hzero, hidle⟩
    · exact absurd hzero hne

theorem wait_returns_oneJob : ∃ (s s' : JobThreads 1) (tr' : List (Event 1)), s.boss = .asleep ∧
    Lts.Run Step s tr' s' ∧ tr'.countP (! ·.isSpurious) ≤ s.work + tr'.countP (·.isSpurious) ∧
      (∃ a s'', Step s' a s'' ∧ a.isSpurious = false ∧ a ≠ .stop) ∧
      ((s'.boss = .asleep → s'.pjq.numPending ≠ 0) ∧ ∀ w, s'.workers w = .asleep → s'.pjq.numQueued = 0) ∧
      ∀ s'', Step s' .waited s'' → s''.pjq.numQueued = 0 ∧ ∀ w job, s''.workers w ≠ .busy job := by
  have hroom : ¬PacketJobQueue.zeroed.Full := by
    rw [PacketJobQueue.Full]
    decide
  have hpush := (PacketJobQueue.zeroed.pushJob_cases ⟨1, 2, 3, 4, 5⟩).resolve_left fun h => hroom h.1
  have hstart : Lts.Run Step (init 1) [] (init 1) := .start
  obtain ⟨s, hr, hboss, hworker, hrun⟩ : ∃ s, Lts.Run Step (init 1) [.push ⟨1, 2, 3, 4, 5⟩, .bossSleeps] s ∧
      s.boss = .asleep ∧ s.workers 0 = .test ∧ s.runThreads = true :=
    ⟨_, (hstart.next (.push rfl hpush.2)).next (.bossSleeps (by decide) rfl), rfl, rfl, rfl⟩
  have hr' : Lts.Run Step s [.test 0] _ := Lts.Run.start.next (.test hworker)
  exact ⟨s, _, _, hboss, hr', wait_returns Nat.one_pos (by decide) hr (by rw [hboss]; decide) hr' (by simp) hrun⟩

end JobThreads

end VoltRec.VoltOuter
