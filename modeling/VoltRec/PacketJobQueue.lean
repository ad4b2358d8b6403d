import Mathlib.Algebra.Group.Nat.Defs
import Mathlib.Logic.Function.Basic
import Mathlib.Tactic.Common

/-! The job queue of the copying threads in `half_hashpipe/ata_volt_outer_thread.c` (`USE_WORKER_THREADS`). Each
    function is one critical section under the mutex of the queue. A thread that waits for a condition lets go of
    the mutex and tests again when it has it back, so the rest of its section finds the condition true. -/

namespace VoltRec.VoltOuter

def pjqNumEntries : Nat := 65536

/-- `packet_job`; the pointers are addresses. -/
structure PacketJob where
  src : Nat
  dst : Nat
  rowLen : Nat
  ostride : Nat
  nbytes : Nat
deriving DecidableEq

/-- `packet_job_queue`; `jobs` has `pjqNumEntries` entries. -/
structure PacketJobQueue where
  idxnew : Nat
  idxold : Nat
  numQueued : Nat
  numPending : Nat
  jobs : Nat → PacketJob

namespace PacketJobQueue

def zeroed : PacketJobQueue := ⟨0, 0, 0, 0, fun _ => ⟨0, 0, 0, 0, 0⟩⟩

/-- The result code and the queue afterwards. -/
def pushJob (pjq : PacketJobQueue) (job : PacketJob) : Nat × PacketJobQueue :=
  let idxNextnew := (pjq.idxnew + 1) % 2 ^ 32 % pjqNumEntries
  if idxNextnew = pjq.idxold then (1, pjq)
  else
    (0,
      { idxnew := idxNextnew
        idxold := pjq.idxold
        numQueued := (pjq.numQueued + 1) % 2 ^ 32
        numPending := (pjq.numPending + 1) % 2 ^ 32
        jobs := Function.update pjq.jobs pjq.idxnew job })

/-- `none` waits on. -/
def popJob (pjq : PacketJobQueue) : Option (PacketJob × PacketJobQueue) :=
  if pjq.numQueued = 0 then none
  else
    some (pjq.jobs pjq.idxold,
      { pjq with
        idxold := (pjq.idxold + 1) % 2 ^ 32 % pjqNumEntries
        numQueued := pjq.numQueued - 1 })

/-- Whether the call complains that `num_pending` is already zero, and the queue afterwards. -/
def completeJob (pjq : PacketJobQueue) : Bool × PacketJobQueue :=
  if pjq.numPending ≠ 0 then (false, { pjq with numPending := pjq.numPending - 1 }) else (true, pjq)

/-- The test of `wait_for_job_completion`: it returns, or waits on. -/
def jobsCompleted (pjq : PacketJobQueue) : Bool := pjq.numPending == 0

end PacketJobQueue

/-! ### The threads -/

/-- The workers are started in a loop over an `int`, so there are at most 2^31; those that never act may be missing. -/
abbrev WorkerId := Fin (2 ^ 31)

/-- The queue, and the local `my_job` of each worker that is between `pop_job` and `complete_job`. -/
structure JobState where
  pjq : PacketJobQueue
  myJob : WorkerId → Option PacketJob

def JobState.init : JobState := ⟨.zeroed, fun _ => none⟩

/-- A critical section, by the boss or by a worker. -/
inductive JobAct
  | push (job : PacketJob)
  /-- `push_job` returns 1. -/
  | pushFull (job : PacketJob)
  | pop (worker : WorkerId) (job : PacketJob)
  | complete (worker : WorkerId) (job : PacketJob) (alreadyZero : Bool)
  /-- `wait_for_job_completion` returns. -/
  | wait

/-- The boss calls its functions in any order; a worker completes the job that it has popped. -/
inductive JobStep : JobState → JobAct → JobState → Prop
  | push {s : JobState} {job : PacketJob} {pjq : PacketJobQueue} (h : s.pjq.pushJob job = (0, pjq)) :
      JobStep s (.push job) { s with pjq := pjq }
  | pushFull {s : JobState} {job : PacketJob} {pjq : PacketJobQueue} (h : s.pjq.pushJob job = (1, pjq)) :
      JobStep s (.pushFull job) { s with pjq := pjq }
  | pop {s : JobState} {worker : WorkerId} {job : PacketJob} {pjq : PacketJobQueue} (idle : s.myJob worker = none)
      (h : s.pjq.popJob = some (job, pjq)) :
      JobStep s (.pop worker job) ⟨pjq, Function.update s.myJob worker (some job)⟩
  | complete {s : JobState} {worker : WorkerId} {job : PacketJob} {alreadyZero : Bool} {pjq : PacketJobQueue}
      (busy : s.myJob worker = some job) (h : s.pjq.completeJob = (alreadyZero, pjq)) :
      JobStep s (.complete worker job alreadyZero) ⟨pjq, Function.update s.myJob worker none⟩
  | wait {s : JobState} (h : s.pjq.jobsCompleted = true) : JobStep s .wait s

end VoltRec.VoltOuter
