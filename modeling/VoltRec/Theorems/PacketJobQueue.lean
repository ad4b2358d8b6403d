import VoltRec.PacketJobQueue
import VoltRec.Lib.RingBuffer
import VoltRec.Lib.Transition
import Mathlib.Data.Fintype.Card
import Mathlib.Data.List.Perm.Basic

/-! The counts and indices of the job queue. What has been pushed and what has been popped say everything about
    the queue itself: the indices are the remainders of the two numbers. The pending jobs are those in the
    queue and those in the hands of a worker. -/

namespace VoltRec.VoltOuter

/-! ### What a run has done -/

def JobAct.pushed : JobAct → Option PacketJob
  | .push job => some job
  | _ => none

def JobAct.popped : JobAct → Option PacketJob
  | .pop _ job => some job
  | _ => none

def JobAct.completed : JobAct → Option PacketJob
  | .complete _ job _ => some job
  | _ => none

/-- The jobs that `push_job` has taken, in order. -/
def pushed (tr : List JobAct) : List PacketJob := tr.filterMap JobAct.pushed

/-- The jobs that `pop_job` has given out, in order. -/
def popped (tr : List JobAct) : List PacketJob := tr.filterMap JobAct.popped

/-- The jobs that workers had when they called `complete_job`. -/
def completed (tr : List JobAct) : List PacketJob := tr.filterMap JobAct.completed

section
variable (tr : List JobAct) (a : JobAct)

theorem pushed_concat : pushed (tr ++ [a]) = pushed tr ++ a.pushed.toList := by
  cases a <;> simp [pushed, JobAct.pushed]

theorem popped_concat : popped (tr ++ [a]) = popped tr ++ a.popped.toList := by
  cases a <;> simp [popped, JobAct.popped]

theorem completed_concat : completed (tr ++ [a]) = completed tr ++ a.completed.toList := by
  cases a <;> simp [completed, JobAct.completed]

end

/-! ### Jobs in the hands of workers -/

/-- The workers at a job, each with its job. -/
structure InHand (myJob : WorkerId → Option PacketJob) (hands : List (WorkerId × PacketJob)) : Prop where
  mem : ∀ w job, (w, job) ∈ hands ↔ myJob w = some job
  workers : (hands.map Prod.fst).Nodup

namespace InHand

variable {myJob : WorkerId → Option PacketJob} {hands : List (WorkerId × PacketJob)} {w : WorkerId} {job : PacketJob}

theorem init : InHand (fun _ => none) [] := ⟨by simp, List.nodup_nil⟩

theorem length_le (h : InHand myJob hands) : hands.length ≤ 2 ^ 31 := by
  have hle := List.Nodup.length_le_card h.workers
  rwa [List.length_map, Fintype.card_fin] at hle

theorem pop (h : InHand myJob hands) (idle : myJob w = none) :
    InHand (Function.update myJob w (some job)) ((w, job) :: hands) := by
  constructor
  · intro w' job'
    by_cases hw : w' = w
    · subst hw
      have hnot : (w', job') ∉ hands := fun hmem => by cases idle.symm.trans ((h.mem w' job').mp hmem)
      simp [hnot, eq_comm]
    · simp [hw, h.mem]
  · refine List.nodup_cons.mpr ⟨fun hmem => ?_, h.workers⟩
    obtain ⟨⟨w', job'⟩, hin, rfl⟩ := List.mem_map.mp hmem
    cases idle.symm.trans ((h.mem w' job').mp hin)

theorem complete (h : InHand myJob hands) (busy : myJob w = some job) :
    InHand (Function.update myJob w none) (hands.erase (w, job)) ∧ hands.Perm ((w, job) :: hands.erase (w, job)) := by
  have hmem : (w, job) ∈ hands := (h.mem w job).mpr busy
  refine ⟨⟨fun w' job' => ?_, h.workers.sublist (List.erase_sublist.map Prod.fst)⟩, List.perm_cons_erase hmem⟩
  rw [h.workers.of_map.mem_erase_iff, h.mem]
  by_cases hw : w' = w
  · subst hw
    rw [busy]
    simp [eq_comm]
  · simp [hw]

end InHand

/-! ### The calls -/

namespace PacketJobQueue

variable (pjq : PacketJobQueue) (job : PacketJob)

/-- The next index would meet the oldest entry. -/
def Full : Prop := (pjq.idxnew + 1) % 2 ^ 32 % pjqNumEntries = pjq.idxold

theorem pushJob_cases :
    (pjq.Full ∧ pjq.pushJob job = (1, pjq)) ∨
    (¬pjq.Full ∧ pjq.pushJob job =
      (0,
        { idxnew := (pjq.idxnew + 1) % 2 ^ 32 % pjqNumEntries
          idxold := pjq.idxold
          numQueued := (pjq.numQueued + 1) % 2 ^ 32
          numPending := (pjq.numPending + 1) % 2 ^ 32
          jobs := Function.update pjq.jobs pjq.idxnew job })) := by
  by_cases h : pjq.Full
  · exact Or.inl ⟨h, if_pos h⟩
  · exact Or.inr ⟨h, if_neg h⟩

theorem pushJob_eq_one : (pjq.pushJob job).1 = 1 ↔ pjq.Full := by
  rcases pjq.pushJob_cases job with ⟨h, hp⟩ | ⟨h, hp⟩ <;> simp [h, hp]

theorem pushJob_full (h : (pjq.pushJob job).1 = 1) : (pjq.pushJob job).2 = pjq := by
  rcases pjq.pushJob_cases job with ⟨-, hp⟩ | ⟨-, hp⟩
  · rw [hp]
  · rw [hp] at h
    cases h

variable {pjq job} {pjq' : PacketJobQueue}

theorem popJob_spec (h : pjq.popJob = some (job, pjq')) :
    0 < pjq.numQueued ∧ job = pjq.jobs pjq.idxold ∧
      pjq' =
        { pjq with
          idxold := (pjq.idxold + 1) % 2 ^ 32 % pjqNumEntries
          numQueued := pjq.numQueued - 1 } := by
  unfold popJob at h
  split at h
  · cases h
  · rename_i hne
    obtain ⟨rfl, rfl⟩ := Prod.mk.inj (Option.some.inj h)
    exact ⟨Nat.pos_of_ne_zero hne, rfl, rfl⟩

theorem completeJob_of_pos (h : 0 < pjq.numPending) :
    pjq.completeJob = (false, { pjq with numPending := pjq.numPending - 1 }) := by
  rw [completeJob, if_pos (Nat.pos_iff_ne_zero.mp h)]

end PacketJobQueue

/-! ### The invariant -/

/-- The queue holds the jobs `ins` that were pushed but for the jobs `outs` that were popped. The pending jobs are
    these and those in hand, which were popped but are not among the completed ones, `dones`. -/
structure Tracked (ins outs dones : List PacketJob) (s : JobState) : Prop where
  fifo : outs <+: ins
  few : ins.length < outs.length + pjqNumEntries
  idxnew : s.pjq.idxnew = ins.length % pjqNumEntries
  idxold : s.pjq.idxold = outs.length % pjqNumEntries
  queued : s.pjq.numQueued + outs.length = ins.length
  jobs : RingBuffer.Holds pjqNumEntries s.pjq.jobs ins outs.length
  pending : ∃ hands, InHand s.myJob hands ∧ outs.Perm (dones ++ hands.map Prod.snd) ∧
    s.pjq.numPending = s.pjq.numQueued + hands.length

namespace Tracked

variable {ins outs dones : List PacketJob} {s : JobState} {job : PacketJob} {w : WorkerId} {pjq : PacketJobQueue}

theorem init : Tracked [] [] [] .init where
  fifo := List.prefix_rfl
  few := by decide
  idxnew := rfl
  idxold := rfl
  queued := rfl
  jobs := .nil
  pending := ⟨[], .init, .nil, rfl⟩

theorem next_index (k : Nat) : (k % pjqNumEntries + 1) % 2 ^ 32 % pjqNumEntries = (k + 1) % pjqNumEntries := by
  simp only [pjqNumEntries]
  omega

/-- The queue is full when one entry is free. -/
theorem full_iff (h : Tracked ins outs dones s) : s.pjq.Full ↔ s.pjq.numQueued = pjqNumEntries - 1 := by
  have hfull := RingBuffer.succ_mod_eq_iff h.fifo.length_le h.few
  have hqueued := h.queued
  rw [PacketJobQueue.Full, h.idxnew, h.idxold, next_index, hfull]
  simp only [pjqNumEntries]
  omega

theorem numQueued_lt (h : Tracked ins outs dones s) : s.pjq.numQueued < pjqNumEntries := by
  have hqueued := h.queued
  have hfew := h.few
  omega

theorem numPending_lt (h : Tracked ins outs dones s) : s.pjq.numPending < 2 ^ 31 + pjqNumEntries := by
  obtain ⟨hands, hin, -, hpending⟩ := h.pending
  have hle := hin.length_le
  have hlt := h.numQueued_lt
  omega

theorem push (h : Tracked ins outs dones s) (hp : s.pjq.pushJob job = (0, pjq)) :
    Tracked (ins ++ [job]) outs dones { s with pjq := pjq } := by
  obtain ⟨hands, hin, hperm, hpending⟩ := h.pending
  rcases s.pjq.pushJob_cases job with ⟨-, heq⟩ | ⟨hroom, heq⟩
  · cases hp.symm.trans heq
  · obtain rfl := (Prod.mk.inj (hp.symm.trans heq)).2
    have hne := h.full_iff.not.mp hroom
    have hlt := h.numQueued_lt
    have hlt' := h.numPending_lt
    have hqueued := h.queued
    simp only [pjqNumEntries] at hne hlt hlt'
    have hq : (s.pjq.numQueued + 1) % 2 ^ 32 = s.pjq.numQueued + 1 := Nat.mod_eq_of_lt (by omega)
    have hn : (s.pjq.numPending + 1) % 2 ^ 32 = s.pjq.numPending + 1 := Nat.mod_eq_of_lt (by omega)
    have hlen : (ins ++ [job]).length = ins.length + 1 := List.length_append
    refine ⟨h.fifo.trans (List.prefix_append ins [job]), ?_, ?_, h.idxold, ?_, ?_, hands, hin, hperm, ?_⟩
    · simp only [hlen, pjqNumEntries]
      omega
    · rw [hlen, h.idxnew, next_index]
    · dsimp only
      omega
    · rw [h.idxnew]
      exact h.jobs.push h.few job
    · dsimp only
      omega

theorem popped_eq (h : Tracked ins outs dones s) (hp : s.pjq.popJob = some (job, pjq)) : outs ++ [job] <+: ins := by
  obtain ⟨hpos, rfl, -⟩ := PacketJobQueue.popJob_spec hp
  have hqueued := h.queued
  obtain ⟨hget, -⟩ := h.jobs.pop (by omega)
  obtain ⟨rest, rfl⟩ := h.fifo
  rw [← h.idxold, List.getElem?_append_right (Nat.le_refl _), Nat.sub_self] at hget
  cases rest with
  | nil => cases hget
  | cons x rest =>
    obtain rfl := Option.some.inj hget
    exact ⟨rest, by rw [List.append_assoc]; rfl⟩

theorem pop (h : Tracked ins outs dones s) (idle : s.myJob w = none) (hp : s.pjq.popJob = some (job, pjq)) :
    Tracked ins (outs ++ [job]) dones ⟨pjq, Function.update s.myJob w (some job)⟩ := by
  obtain ⟨hands, hin, hperm, hpending⟩ := h.pending
  have hpopped := h.popped_eq hp
  obtain ⟨hpos, -, rfl⟩ := PacketJobQueue.popJob_spec hp
  have hqueued := h.queued
  have hfew := h.few
  have hlen : (outs ++ [job]).length = outs.length + 1 := List.length_append
  obtain ⟨-, hjobs⟩ := h.jobs.pop (by omega)
  refine ⟨hpopped, ?_, h.idxnew, ?_, ?_, ?_, (w, job) :: hands, hin.pop idle, ?_, ?_⟩
  · omega
  · rw [hlen, h.idxold, next_index]
  · dsimp only
    omega
  · rw [hlen]
    exact hjobs
  · exact (List.perm_append_singleton job outs).trans ((hperm.cons job).trans List.perm_middle.symm)
  · simp only [List.length_cons]
    omega

/-- A worker that completes a job has it in hand, so it is among the pending ones. -/
theorem numPending_pos (h : Tracked ins outs dones s) (busy : s.myJob w = some job) : 0 < s.pjq.numPending := by
  obtain ⟨hands, hin, -, hpending⟩ := h.pending
  have hpos : 0 < hands.length := List.length_pos_of_mem ((hin.mem w job).mpr busy)
  omega

theorem complete (h : Tracked ins outs dones s) (busy : s.myJob w = some job) :
    Tracked ins outs (dones ++ [job])
      ⟨{ s.pjq with numPending := s.pjq.numPending - 1 }, Function.update s.myJob w none⟩ := by
  obtain ⟨hands, hin, hperm, hpending⟩ := h.pending
  obtain ⟨hin', herase⟩ := hin.complete busy
  refine ⟨h.fifo, h.few, h.idxnew, h.idxold, h.queued, h.jobs, _, hin', ?_, ?_⟩
  · rw [List.append_assoc]
    exact hperm.trans ((herase.map Prod.snd).append_left dones)
  · have hlen := herase.length_eq
    simp only [List.length_cons] at hlen
    dsimp only
    omega

end Tracked

/-! ### Runs -/

variable {tr : List JobAct} {s : JobState}

theorem tracked_run (hr : Lts.Run JobStep .init tr s) :
    Tracked (pushed tr) (popped tr) (completed tr) s ∧ ∀ w job, .complete w job true ∉ tr := by
  refine Lts.Run.invariant (I := fun tr s => Tracked (pushed tr) (popped tr) (completed tr) s ∧
    ∀ w job, .complete w job true ∉ tr) ⟨.init, by simp⟩ (fun tr s a t _ ih hs => ?_) hr
  obtain ⟨h, hzero⟩ := ih
  rw [pushed_concat, popped_concat, completed_concat]
  cases hs with
  | push hp =>
    simp only [JobAct.pushed, JobAct.popped, JobAct.completed, Option.toList, List.append_nil]
    exact ⟨h.push hp, by simpa using hzero⟩
  | pushFull hp =>
    rename_i job pjq
    simp only [JobAct.pushed, JobAct.popped, JobAct.completed, Option.toList, List.append_nil]
    have hsame : pjq = s.pjq := by simpa [hp] using s.pjq.pushJob_full job
    exact ⟨hsame ▸ h, by simpa using hzero⟩
  | pop idle hp =>
    simp only [JobAct.pushed, JobAct.popped, JobAct.completed, Option.toList, List.append_nil]
    exact ⟨h.pop idle hp, by simpa using hzero⟩
  | complete busy hc =>
    simp only [JobAct.pushed, JobAct.popped, JobAct.completed, Option.toList, List.append_nil]
    obtain ⟨rfl, rfl⟩ := Prod.mk.inj (hc.symm.trans (PacketJobQueue.completeJob_of_pos (h.numPending_pos busy)))
    exact ⟨h.complete busy, by simpa using hzero⟩
  | wait _ =>
    simp only [JobAct.pushed, JobAct.popped, JobAct.completed, Option.toList, List.append_nil]
    exact ⟨h, by simpa using hzero⟩

/-- The counts are right, the workers get the jobs in the order pushed, and who waits for their completion
    waits for all of them. -/
structure QueueKept (tr : List JobAct) (s : JobState) : Prop where
  numQueued : (s.pjq.numQueued : Int) = ((s.pjq.idxnew : Int) - s.pjq.idxold) % pjqNumEntries
  numQueued_le : s.pjq.numQueued ≤ pjqNumEntries - 1
  /-- `num_pending` counts the queued jobs and those popped and not completed. -/
  numPending : (completed tr).length ≤ (popped tr).length ∧
    s.pjq.numPending = s.pjq.numQueued + ((popped tr).length - (completed tr).length)
  notZero : ∀ w job, .complete w job true ∉ tr
  /-- The jobs popped are the first ones pushed; the others are still in the queue. -/
  fifo : ∃ queue, pushed tr = popped tr ++ queue ∧ queue.length = s.pjq.numQueued
  /-- `push_job` fails only when the queue is full, and then changes nothing. -/
  failed : ∀ job, (s.pjq.pushJob job).1 = 1 →
    s.pjq.numQueued = pjqNumEntries - 1 ∧ (s.pjq.pushJob job).2 = s.pjq
  /-- When `wait_for_job_completion` returns, each job pushed before it has been completed. -/
  waited : ∀ pre post, tr = pre ++ .wait :: post → (completed pre).Perm (pushed pre)

theorem queueKept (hr : Lts.Run JobStep .init tr s) : QueueKept tr s := by
  obtain ⟨h, hzero⟩ := tracked_run hr
  obtain ⟨queue, hqueue⟩ := h.fifo
  obtain ⟨hands, -, hperm, hpending⟩ := h.pending
  have hqueued := h.queued
  have hlen : (popped tr).length = (completed tr).length + hands.length := by
    rw [hperm.length_eq, List.length_append, List.length_map]
  refine ⟨?_, Nat.le_pred_of_lt h.numQueued_lt, ⟨by omega, by omega⟩, hzero, ⟨queue, hqueue.symm, ?_⟩,
    fun job hfail => ⟨?_, s.pjq.pushJob_full job hfail⟩, fun pre post htr => ?_⟩
  · rw [h.idxnew, h.idxold, RingBuffer.sub_emod h.fifo.length_le h.few]
    omega
  · rw [← hqueue, List.length_append] at hqueued
    omega
  · exact h.full_iff.mp ((s.pjq.pushJob_eq_one job).mp hfail)
  · subst htr
    obtain ⟨t, t', hpre, hwait⟩ := hr.split
    obtain ⟨hands', -, hperm', hpending'⟩ := (tracked_run hpre).1.pending
    have hnone : t.pjq.numPending = 0 := by
      cases hwait with
      | wait hdone => exact beq_iff_eq.mp hdone
    have hall : popped pre = pushed pre :=
      (tracked_run hpre).1.fifo.eq_of_length (by have := (tracked_run hpre).1.queued; omega)
    have hidle : hands' = [] := List.eq_nil_of_length_eq_zero (by omega)
    rw [hidle, List.map_nil, List.append_nil] at hperm'
    exact hall ▸ hperm'.symm

/-- Two jobs for two workers, the second of which is faster. -/
theorem queueKept_twoJobs : ∃ (tr : List JobAct) (s : JobState), popped tr = [⟨1, 2, 3, 4, 5⟩, ⟨6, 7, 8, 9, 10⟩] ∧
    completed tr = [⟨6, 7, 8, 9, 10⟩, ⟨1, 2, 3, 4, 5⟩] ∧ QueueKept tr s := by
  have hroom : ¬PacketJobQueue.zeroed.Full := by
    rw [PacketJobQueue.Full]
    decide
  obtain ⟨-, hpush⟩ := (PacketJobQueue.zeroed.pushJob_cases ⟨1, 2, 3, 4, 5⟩).resolve_left fun h => hroom h.1
  generalize hpjq : PacketJobQueue.mk _ _ _ _ _ = pjq at hpush
  have hroom' : ¬pjq.Full := by
    rw [← hpjq, PacketJobQueue.Full]
    decide
  obtain ⟨-, hpush'⟩ := (pjq.pushJob_cases ⟨6, 7, 8, 9, 10⟩).resolve_left fun h => hroom' h.1
  subst hpjq
  have hr := (Lts.Run.start.next (JobStep.push (s := .init) hpush)).next (.push hpush')
  have hr := hr.next (a := .pop 0 _) (.pop rfl rfl)
  have hr := hr.next (a := .pop 1 _) (.pop rfl rfl)
  have hr := hr.next (a := .complete 1 _ _) (.complete rfl rfl)
  have hr := hr.next (a := .complete 0 _ _) (.complete rfl rfl)
  exact ⟨_, _, rfl, rfl, queueKept (hr.next (.wait rfl))⟩

end VoltRec.VoltOuter
