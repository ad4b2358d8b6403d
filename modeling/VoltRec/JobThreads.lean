import VoltRec.PacketJobQueue

/-! The boss and the workers on the job queue with its two condition variables. `pthread_cond_wait` lets go of the mutex
    and sleeps; a thread that is woken, by a signal or without one, tests its condition again. -/

namespace VoltRec.VoltOuter

/-- Where the boss stands: outside the functions of the queue, asleep on `cond_pending`, or woken. -/
inductive BossAt
  | outside
  | asleep
  | woken
deriving DecidableEq

/-- Where a worker stands in `packet_job_function`. -/
inductive JobWorkerAt
  /-- `while(run_threads())` -/
  | test
  /-- Before the test of `pop_job`. -/
  | popping
  /-- Asleep on `cond_queued`. -/
  | asleep
  | woken
  | busy (myJob : PacketJob)
  | returned
deriving DecidableEq

def BossAt.wake : BossAt → BossAt
  | .asleep => .woken
  | b => b

def JobWorkerAt.wake : JobWorkerAt → JobWorkerAt
  | .asleep => .woken
  | w => w

/-- A worker inside `pop_job` that has the mutex next. -/
def JobWorkerAt.inPop : JobWorkerAt → Bool
  | .popping | .woken => true
  | _ => false

structure JobThreads (n : Nat) where
  pjq : PacketJobQueue
  boss : BossAt
  workers : Fin n → JobWorkerAt
  runThreads : Bool

namespace JobThreads
variable {n : Nat}

def init (n : Nat) : JobThreads n := ⟨.zeroed, .outside, fun _ => .test, true⟩

/-- The worker goes on to another place. -/
def move (s : JobThreads n) (w : Fin n) (place : JobWorkerAt) : JobThreads n :=
  { s with workers := Function.update s.workers w place }

inductive Event (n : Nat)
  | push (job : PacketJob)
  | pushFull (job : PacketJob)
  /-- `wait_for_job_completion` returns. -/
  | waited
  | bossSleeps
  | test (w : Fin n)
  | pop (w : Fin n) (job : PacketJob)
  | workerSleeps (w : Fin n)
  | complete (w : Fin n) (job : PacketJob) (alreadyZero : Bool)
  /-- The sleep ends without a signal. -/
  | bossSpurious
  | workerSpurious (w : Fin n)
  /-- `run_threads` is false from here on. -/
  | stop

inductive Step : JobThreads n → Event n → JobThreads n → Prop
  /-- `pthread_cond_broadcast(&pjq->cond_queued)` -/
  | push {s : JobThreads n} {job : PacketJob} {pjq : PacketJobQueue} (outside : s.boss = .outside)
      (h : s.pjq.pushJob job = (0, pjq)) :
      Step s (.push job) { s with pjq := pjq, workers := fun w => (s.workers w).wake }
  | pushFull {s : JobThreads n} {job : PacketJob} {pjq : PacketJobQueue} (outside : s.boss = .outside)
      (h : s.pjq.pushJob job = (1, pjq)) : Step s (.pushFull job) { s with pjq := pjq }
  | waited {s : JobThreads n} (awake : s.boss ≠ .asleep) (h : s.pjq.jobsCompleted = true) :
      Step s .waited { s with boss := .outside }
  | bossSleeps {s : JobThreads n} (awake : s.boss ≠ .asleep) (h : s.pjq.jobsCompleted = false) :
      Step s .bossSleeps { s with boss := .asleep }
  | test {s : JobThreads n} {w : Fin n} (h : s.workers w = .test) :
      Step s (.test w) (s.move w (if s.runThreads then .popping else .returned))
  | pop {s : JobThreads n} {w : Fin n} {job : PacketJob} {pjq : PacketJobQueue} (hw : (s.workers w).inPop = true)
      (h : s.pjq.popJob = some (job, pjq)) :
      Step s (.pop w job) ({ s with pjq := pjq }.move w (.busy job))
  | workerSleeps {s : JobThreads n} {w : Fin n} (hw : (s.workers w).inPop = true) (h : s.pjq.popJob = none) :
      Step s (.workerSleeps w) (s.move w .asleep)
  /-- `pthread_cond_signal(&pjq->cond_pending)` when the number is zero; nobody but the boss waits for it. -/
  | complete {s : JobThreads n} {w : Fin n} {job : PacketJob} {alreadyZero : Bool} {pjq : PacketJobQueue}
      (busy : s.workers w = .busy job) (h : s.pjq.completeJob = (alreadyZero, pjq)) :
      Step s (.complete w job alreadyZero)
        ({ s with pjq := pjq, boss := if pjq.numPending = 0 then s.boss.wake else s.boss }.move w .test)
  | bossSpurious {s : JobThreads n} (h : s.boss = .asleep) : Step s .bossSpurious { s with boss := .woken }
  | workerSpurious {s : JobThreads n} {w : Fin n} (h : s.workers w = .asleep) :
      Step s (.workerSpurious w) (s.move w .woken)
  | stop {s : JobThreads n} : Step s .stop { s with runThreads := false }

end JobThreads

end VoltRec.VoltOuter
