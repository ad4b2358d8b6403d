import VoltRec.StartStop
import VoltRec.Theorems.BlockHeaders
import Mathlib.Data.List.Chain

/-! The headers of the blocks that go downstream. The status is checked for a block when it becomes the first working
    block, and copied then into the header of the block after it: `DAQSTATE` and `STTVALID` in a header are the answer
    for the block before. The copy waits for a free block, so that the window in the header can be another one than that
    of the check. -/

namespace VoltRec.VoltOuter

variable {κ τ : Type} {startTime : κ → Nat → τ} {cfg : Config} {st st' window : Status κ τ} {pktidx : Nat}

/-! ### One check -/

def Status.InWindow (window : Status κ τ) (pktidx : Nat) : Prop :=
  window.pktstart.getD 0 ≤ pktidx ∧ pktidx < window.pktstop.getD 0

/-- `DAQSTATE` and `STTVALID` answer for a PKTIDX and a window. The start time is that of the PKTIDX where validity
    begins, and stays as it is elsewhere. -/
structure Status.AnswersFor (startTime : κ → Nat → τ) (window : Status κ τ) (pktidx : Nat) (st : Status κ τ) :
    Prop where
  record : window.InWindow pktidx → st.daqstate = .record ∧ st.sttvalid = some 1
  listen : ¬ window.InWindow pktidx → st.daqstate = .listen ∧ st.sttvalid.getD 0 = 0
  kept : window.sttvalid = some 1 ∨ ¬ window.InWindow pktidx → st.stt = window.stt
  first : window.sttvalid ≠ some 1 → window.InWindow pktidx → st.stt = some (startTime window.clock pktidx)

theorem getD_ne_one {x : Option Nat} : x.getD 0 ≠ 1 ↔ x ≠ some 1 := by
  cases x <;> simp

theorem checkStartStop_answers (startTime : κ → Nat → τ) (window : Status κ τ) (pktidx : Nat) :
    window.AnswersFor startTime pktidx (checkStartStop startTime window pktidx).1 := by
  simp only [checkStartStop]
  by_cases hin : window.pktstart.getD 0 ≤ pktidx ∧ pktidx < window.pktstop.getD 0
  · rw [if_pos hin]
    by_cases hvalid : window.sttvalid.getD 0 ≠ 1
    · rw [if_pos hvalid]
      exact ⟨fun _ => ⟨rfl, rfl⟩, fun hout => absurd hin hout,
        fun h => absurd hin (h.resolve_left (getD_ne_one.mp hvalid)), fun _ _ => rfl⟩
    · rw [if_neg hvalid]
      exact ⟨fun _ => ⟨rfl, not_not.mp (mt getD_ne_one.mpr hvalid)⟩, fun hout => absurd hin hout, fun _ => rfl,
        fun h => absurd (getD_ne_one.mpr h) hvalid⟩
  · rw [if_neg hin]
    by_cases hvalid : window.sttvalid.getD 0 ≠ 0
    · rw [if_pos hvalid]
      exact ⟨fun h => absurd h hin, fun _ => ⟨rfl, rfl⟩, fun _ => rfl, fun _ h => absurd h hin⟩
    · rw [if_neg hvalid]
      exact ⟨fun h => absurd h hin, fun _ => ⟨rfl, not_not.mp hvalid⟩, fun _ => rfl, fun _ h => absurd h hin⟩

/-- Two statuses with the same answer and start time. -/
structure Status.SameAnswer (st st' : Status κ τ) : Prop where
  sttvalid : st'.sttvalid = st.sttvalid
  daqstate : st'.daqstate = st.daqstate
  stt : st'.stt = st.stt

theorem Status.SameAnswer.refl (st : Status κ τ) : st.SameAnswer st := ⟨rfl, rfl, rfl⟩

theorem Status.SameAnswer.trans {st'' : Status κ τ} (h : st.SameAnswer st') (h' : st'.SameAnswer st'') :
    st.SameAnswer st'' :=
  ⟨h'.sttvalid.trans h.sttvalid, h'.daqstate.trans h.daqstate, h'.stt.trans h.stt⟩

theorem Status.AnswersFor.congr (h : window.AnswersFor startTime pktidx st) (hs : st.SameAnswer st') :
    window.AnswersFor startTime pktidx st' where
  record hin := ⟨hs.daqstate.trans (h.record hin).1, hs.sttvalid.trans (h.record hin).2⟩
  listen hout := ⟨hs.daqstate.trans (h.listen hout).1, hs.sttvalid ▸ (h.listen hout).2⟩
  kept hk := hs.stt.trans (h.kept hk)
  first hv hin := hs.stt.trans (h.first hv hin)

theorem sameAnswer_sets (st : Status κ τ) (sets : List (Outside κ)) : st.SameAnswer (sets.foldl Status.set st) := by
  induction sets generalizing st with
  | nil => exact .refl st
  | cons keys sets ih =>
    have hset : st.SameAnswer (st.set keys) := ⟨rfl, rfl, rfl⟩
    exact hset.trans (ih (st.set keys))

namespace StatusThread

variable {s s' s₁ : StatusThread κ τ} {p : Int} {i : StatusInput κ}

/-! ### One packet -/

theorem updateWindow_frame (cfg : Config) (s : StatusThread κ τ) (pktSeqNum dwellBlocks : Nat) :
    (s.updateWindow cfg pktSeqNum dwellBlocks).thread = s.thread ∧
    (s.updateWindow cfg pktSeqNum dwellBlocks).headers = s.headers ∧
    (s.updateWindow cfg pktSeqNum dwellBlocks).sent = s.sent ∧
    s.status.SameAnswer (s.updateWindow cfg pktSeqNum dwellBlocks).status := by
  rw [updateWindow]
  split <;> exact ⟨rfl, rfl, rfl, rfl, rfl, rfl⟩

theorem beforeManage_frame (cfg : Config) (s : StatusThread κ τ) (i : StatusInput κ) :
    (s.beforeManage cfg i).thread = s.thread ∧ (s.beforeManage cfg i).headers = s.headers ∧
      (s.beforeManage cfg i).sent = s.sent ∧ s.status.SameAnswer (s.beforeManage cfg i).status := by
  obtain ⟨hthread, hheaders, hsent, hstatus⟩ :=
    updateWindow_frame cfg (s.outside i.beforeUpdate) i.pktSeqNum.val i.dwellBlocks
  exact ⟨hthread, hheaders, hsent,
    ((sameAnswer_sets s.status i.beforeUpdate).trans hstatus).trans (sameAnswer_sets _ i.beforeCheck)⟩

theorem manageStatus_thread (s : StatusThread κ τ) (thread : Thread) (p : Int) (sets : List (Outside κ)) :
    (s.manageStatus startTime cfg thread p sets).thread = thread := by
  rw [manageStatus]
  split
  · rfl
  · split <;> rfl

/-- The copy of a packet keeps the numbers and the slots of the working blocks. -/
theorem copyPacket_working (cfg : Config) (t : Thread) (p : Int) :
    (copyPacket cfg t p).wblk0.blockNum = t.wblk0.blockNum ∧
    (copyPacket cfg t p).wblk1.blockIdxOut = t.wblk1.blockIdxOut := by
  rw [copyPacket]
  split
  · exact ⟨rfl, rfl⟩
  · split <;> exact ⟨rfl, rfl⟩

/-- The working blocks with their headers, the second first. -/
def working (s : StatusThread κ τ) : List (Int × Status κ τ) :=
  [(s.thread.wblk1.blockNum, s.headers s.thread.wblk1.blockIdxOut),
    (s.thread.wblk0.blockNum, s.headers s.thread.wblk0.blockIdxOut)]

/-- The working blocks advance: the status is checked for the block that is the first now, and becomes the header of
    the block after it. -/
structure Advances (startTime : κ → Nat → τ) (cfg : Config) (s : StatusThread κ τ) (i : StatusInput κ)
    (s' : StatusThread κ τ) : Prop where
  packet : i.pktSeqNum.pktBlkNum cfg = s.thread.wblk1.blockNum + 1
  first : s'.thread.wblk0 = s.thread.wblk1
  next : s'.thread.wblk1.blockNum = s.thread.wblk1.blockNum + 1
  status : s'.status = i.beforeCopy.foldl Status.set
    (checkStartStop startTime (s.beforeManage cfg i).status (firstPktidx cfg s.thread.wblk1.blockNum)).1
  headers : s'.headers = Function.update s.headers s'.thread.wblk1.blockIdxOut s'.status
  sent : s'.sent = (s.thread.wblk0.blockNum, s.headers s.thread.wblk0.blockIdxOut) :: s.sent

/-- The ways of a packet through the status: the working blocks advance, or start over, or stay. -/
inductive Passes (startTime : κ → Nat → τ) (cfg : Config) (s : StatusThread κ τ) (i : StatusInput κ)
    (s' : StatusThread κ τ) : Prop
  | advance (h : Advances startTime cfg s i s')
  | reset (log : Op.reinit :: s.thread.log <:+ s'.thread.log) (sent : s'.sent = s.sent)
  | stay (working : s'.working = s.working) (status : s.status.SameAnswer s'.status) (sent : s'.sent = s.sent)

theorem passes_of_moves {thread t' : Thread} (h : Managed cfg s.thread) (hp : i.pktSeqNum.pktBlkNum cfg = p)
    (hm : Moves cfg s.thread p t') (hcopy : copyPacket cfg thread p = t') :
    Passes startTime cfg s i
      { (s.beforeManage cfg i).manageStatus startTime cfg thread p i.beforeCopy with thread := t' } := by
  have hnext := h.next
  obtain ⟨hthread, hheaders, hsent, hsame⟩ := beforeManage_frame cfg s i
  generalize hu : s.beforeManage cfg i = u at *
  obtain ⟨hnum0, hslot1⟩ := copyPacket_working cfg thread p
  rw [hcopy] at hnum0 hslot1
  cases hm with
  | advance hp' =>
    have hadv : p = u.thread.wblk1.blockNum + 1 := by rw [hthread]; omega
    rw [manageStatus, if_pos hadv]
    refine .advance ⟨hp.trans (hthread ▸ hadv), rfl, hthread ▸ hadv, ?_, ?_, ?_⟩
    · simp only [copyStatus, outside, check, ← hnum0, hu]
    · simp only [copyStatus, outside, check, ← hslot1, hheaders]
    · simp only [copyStatus, outside, check, hthread, hheaders, hsent]
  | reset hp' =>
    have hadv : ¬ p = u.thread.wblk1.blockNum + 1 := by rw [hthread]; omega
    have hreset : p < u.thread.wblk0.blockNum - 1 ∨ p > u.thread.wblk1.blockNum + 1 := by rw [hthread]; omega
    rw [manageStatus, if_neg hadv, if_pos hreset]
    exact .reset List.suffix_rfl hsent
  | late hp' | first hp' | second hp' =>
    have hadv : ¬ p = u.thread.wblk1.blockNum + 1 := by rw [hthread]; omega
    have hreset : ¬ (p < u.thread.wblk0.blockNum - 1 ∨ p > u.thread.wblk1.blockNum + 1) := by rw [hthread]; omega
    rw [manageStatus, if_neg hadv, if_neg hreset]
    exact .stay (by simp only [working, outside, hheaders, countPacket])
      (hsame.trans (sameAnswer_sets _ i.beforeCopy)) hsent

theorem step_passes (startTime : κ → Nat → τ) (h : Managed cfg s.thread) (i : StatusInput κ) :
    ∃ s', s.step startTime cfg i = some s' ∧ Managed cfg s'.thread ∧ s.thread.log <:+ s'.thread.log ∧
      Passes startTime cfg s i s' := by
  obtain ⟨t', hstep, hmoves⟩ := step_moves h.next h.slot_nonneg (i.pktSeqNum.pktBlkNum cfg)
  obtain ⟨thread, hmanage, hcopy⟩ := Option.map_eq_some_iff.mp hstep
  refine ⟨_, ?_, h.moves hmoves, hmoves.log_suffix, passes_of_moves h rfl hmoves hcopy⟩
  rw [step, (beforeManage_frame cfg s i).1, hmanage, Option.map_some]
  simp only [manageStatus_thread, hcopy]

/-! ### Runs -/

/-- The status at the check that the packet of a run makes with which block `num` begins. -/
def CheckedFor (startTime : κ → Nat → τ) (cfg : Config) (s₁ : StatusThread κ τ) (inputs : List (StatusInput κ))
    (num : Int) (window : Status κ τ) : Prop :=
  ∃ pre i post s, inputs = pre ++ i :: post ∧ run startTime cfg s₁ pre = some s ∧
    s.thread.wblk1.blockNum + 1 = num ∧ i.pktSeqNum.pktBlkNum cfg = num ∧ window = (s.beforeManage cfg i).status

theorem CheckedFor.append {inputs : List (StatusInput κ)} {num : Int}
    (h : CheckedFor startTime cfg s₁ inputs num window) (i : StatusInput κ) :
    CheckedFor startTime cfg s₁ (inputs ++ [i]) num window := by
  obtain ⟨pre, j, post, s, rfl, h⟩ := h
  exact ⟨pre, j, post ++ [i], s, by simp, h⟩

/-- A block follows another. If it has begun since `s₁`, its header is the answer for the other block and the window
    at the check, and if the other block has begun since `s₁` as well, the check went on from its header. -/
structure Follows (startTime : κ → Nat → τ) (cfg : Config) (s₁ : StatusThread κ τ) (inputs : List (StatusInput κ))
    (b' b : Int × Status κ τ) : Prop where
  next : b'.1 = b.1 + 1
  checked : s₁.thread.wblk1.blockNum < b'.1 → ∃ window, CheckedFor startTime cfg s₁ inputs b'.1 window ∧
    window.AnswersFor startTime (firstPktidx cfg b.1) b'.2 ∧
    (s₁.thread.wblk1.blockNum < b.1 → b.2.SameAnswer window)

/-- The blocks from the first working block of `s₁` on, those handed downstream and the working blocks. -/
structure Headed (startTime : κ → Nat → τ) (cfg : Config) (s₁ : StatusThread κ τ) (inputs : List (StatusInput κ))
    (s : StatusThread κ τ) (sent : List (Int × Status κ τ)) : Prop where
  chain : (s.working ++ sent).IsChain (Follows startTime cfg s₁ inputs)
  last : (s.working ++ sent).getLast?.map Prod.fst = some s₁.thread.wblk0.blockNum
  status : s₁.thread.wblk1.blockNum < s.thread.wblk1.blockNum →
    (s.headers s.thread.wblk1.blockIdxOut).SameAnswer s.status

/-- Unless the working blocks have started over since `s₁`. -/
structure Kept (startTime : κ → Nat → τ) (cfg : Config) (s₁ : StatusThread κ τ) (inputs : List (StatusInput κ))
    (s : StatusThread κ τ) : Prop where
  managed : Managed cfg s.thread
  headed : ∃ ops sent, s.thread.log = ops ++ s₁.thread.log ∧ s.sent = sent ++ s₁.sent ∧
    (Op.reinit ∉ ops → Headed startTime cfg s₁ inputs s sent)

variable {inputs : List (StatusInput κ)} {sent : List (Int × Status κ τ)}

theorem Headed.append (h : Headed startTime cfg s₁ inputs s sent) (i : StatusInput κ) :
    Headed startTime cfg s₁ (inputs ++ [i]) s sent where
  chain := h.chain.imp fun _ _ hb => ⟨hb.next, fun hlt => (hb.checked hlt).imp fun _ hw => ⟨hw.1.append i, hw.2⟩⟩
  last := h.last
  status := h.status

theorem Headed.stay (h : Headed startTime cfg s₁ inputs s sent) (hw : s'.working = s.working)
    (hs : s.status.SameAnswer s'.status) : Headed startTime cfg s₁ inputs s' sent := by
  obtain ⟨⟨hnum, hheader⟩, -⟩ : (s'.thread.wblk1.blockNum = s.thread.wblk1.blockNum ∧
      s'.headers s'.thread.wblk1.blockIdxOut = s.headers s.thread.wblk1.blockIdxOut) ∧ _ := by
    simpa only [working, List.cons.injEq, Prod.mk.injEq] using hw
  refine ⟨hw ▸ h.chain, hw ▸ h.last, fun hlt => ?_⟩
  rw [hheader]
  exact (h.status (hnum ▸ hlt)).trans hs

theorem Headed.advance (h : Headed startTime cfg s₁ inputs s sent) (hrun : run startTime cfg s₁ inputs = some s)
    (hman : Managed cfg s'.thread) (hadv : Advances startTime cfg s i s') :
    Headed startTime cfg s₁ (inputs ++ [i]) s'
      ((s.thread.wblk0.blockNum, s.headers s.thread.wblk0.blockIdxOut) :: sent) := by
  have hwork : s'.working ++ (s.thread.wblk0.blockNum, s.headers s.thread.wblk0.blockIdxOut) :: sent =
      (s.thread.wblk1.blockNum + 1, s'.status) :: (s.working ++ sent) := by
    have hne : s'.thread.wblk0.blockIdxOut ≠ s'.thread.wblk1.blockIdxOut := hman.slots_ne.symm
    rw [hadv.first] at hne
    simp only [working, hadv.first, hadv.next, hadv.headers, Function.update_self, Function.update_of_ne hne,
      List.cons_append, List.nil_append]
  have hanswer : (s.beforeManage cfg i).status.AnswersFor startTime (firstPktidx cfg s.thread.wblk1.blockNum)
      s'.status := by
    rw [hadv.status]
    exact (checkStartStop_answers startTime _ _).congr (sameAnswer_sets _ i.beforeCopy)
  obtain ⟨-, -, -, hsame⟩ := beforeManage_frame cfg s i
  refine ⟨?_, ?_, fun _ => ?_⟩
  · rw [hwork]
    refine List.isChain_cons_cons.mpr ⟨⟨rfl, fun _ => ⟨_, ?_, hanswer, fun hlt => (h.status hlt).trans hsame⟩⟩,
      (h.append i).chain⟩
    exact ⟨inputs, i, [], s, rfl, hrun, rfl, hadv.packet, rfl⟩
  · rw [hwork, ← h.last]
    rfl
  · rw [hadv.headers, Function.update_self]
    exact .refl _

theorem Kept.refl (h : Managed cfg s.thread) : Kept startTime cfg s [] s where
  managed := h
  headed := by
    have hnext := h.next
    refine ⟨[], [], rfl, rfl, fun _ => ⟨?_, rfl, fun hlt => absurd hlt (Int.lt_irrefl _)⟩⟩
    simp only [working, List.append_nil]
    exact List.isChain_cons_cons.mpr ⟨⟨hnext, fun hlt => absurd hlt (Int.lt_irrefl _)⟩, List.isChain_singleton _⟩

theorem Kept.pass (h : Kept startTime cfg s₁ inputs s) (hrun : run startTime cfg s₁ inputs = some s)
    (hman : Managed cfg s'.thread) (hlog : s.thread.log <:+ s'.thread.log) (hp : Passes startTime cfg s i s') :
    Kept startTime cfg s₁ (inputs ++ [i]) s' := by
  obtain ⟨ops, sent, hops, hsent, hheaded⟩ := h.headed
  cases hp with
  | advance hadv =>
    obtain ⟨more, hmore⟩ := hlog
    refine ⟨hman, more ++ ops, _ :: sent, ?_, by rw [hadv.sent, hsent, List.cons_append], fun hno => ?_⟩
    · rw [← hmore, hops, List.append_assoc]
    · exact (hheaded fun hmem => hno (List.mem_append_right _ hmem)).advance hrun hman hadv
  | reset hreinit hsame =>
    obtain ⟨more, hmore⟩ := hreinit
    refine ⟨hman, more ++ .reinit :: ops, sent, ?_, hsame.trans hsent, fun hno => ?_⟩
    · rw [← hmore, hops, List.append_assoc, List.cons_append]
    · exact absurd (List.mem_append_right _ List.mem_cons_self) hno
  | stay hworking hstatus hsame =>
    obtain ⟨more, hmore⟩ := hlog
    refine ⟨hman, more ++ ops, sent, ?_, hsame.trans hsent, fun hno => ?_⟩
    · rw [← hmore, hops, List.append_assoc]
    · exact ((hheaded fun hmem => hno (List.mem_append_right _ hmem)).append i).stay hworking hstatus

theorem run_kept (startTime : κ → Nat → τ) (h : Managed cfg s₁.thread) (inputs : List (StatusInput κ)) :
    ∃ s, s₁.run startTime cfg inputs = some s ∧ Kept startTime cfg s₁ inputs s := by
  induction inputs using List.reverseRecOn with
  | nil => exact ⟨s₁, rfl, .refl h⟩
  | append_singleton inputs i ih =>
    obtain ⟨s, hrun, hkept⟩ := ih
    obtain ⟨s', hs, hman, hlog, hp⟩ := step_passes startTime hkept.managed i
    refine ⟨s', ?_, hkept.pass hrun hman hlog hp⟩
    rw [run, List.foldlM_append, ← run, hrun]
    simpa [bind] using hs

/-- Between two points of a run without a discontinuity, whatever other programs set and when, the blocks that go
    downstream and the working blocks follow each other, from the first working block at the earlier point on. In the
    header of each that has begun in between `DAQSTATE` and `STTVALID` answer for the block before it, and the start
    time is that of the block before it where validity begins. -/
theorem sent_headers (startTime : κ → Nat → τ) (cfg : Config) (wblk0 wblk1 : BlockInfo) (status : Status κ τ)
    (headers : Int → Status κ τ) (statusSeqNum : Nat) (earlier later : List (StatusInput κ)) :
    ∃ s₁ s ops sent, run startTime cfg (start wblk0 wblk1 status headers statusSeqNum) earlier = some s₁ ∧
      run startTime cfg s₁ later = some s ∧ s.thread.log = ops ++ s₁.thread.log ∧ s.sent = sent ++ s₁.sent ∧
      (Op.reinit ∉ ops →
        (s.working ++ sent).IsChain (Follows startTime cfg s₁ later) ∧
        (s.working ++ sent).getLast?.map Prod.fst = some s₁.thread.wblk0.blockNum) := by
  have hstart : Managed cfg (start wblk0 wblk1 status headers statusSeqNum).thread := .start wblk0 wblk1
  obtain ⟨s₁, hrun₁, hkept₁⟩ := run_kept startTime hstart earlier
  obtain ⟨s, hrun, hkept⟩ := run_kept startTime hkept₁.managed later
  obtain ⟨ops, sent, hops, hsent, hheaded⟩ := hkept.headed
  exact ⟨s₁, s, ops, sent, hrun₁, hrun, hops, hsent, fun hno => ⟨(hheaded hno).chain, (hheaded hno).last⟩⟩

/-- A recording of one block from PKTIDX 8 on, with the PKTIDX as the start time: block 2 goes downstream as not valid,
    and block 3 as valid. Before the copy for block 4 `PKTSTART` is set to 100, so that its header does not show the
    window that it answers for. -/
example :
    let cfg : Config := ⟨24, 4, 2 ^ 20, 1024, by decide, by decide, by decide, by decide, by decide, by decide⟩
    let status : Status Unit Nat := ⟨none, none, none, .listen, none, ()⟩
    let inputs : List (StatusInput Unit) := [4, 8, 12, 16, 20, 24].map fun n =>
      { pktSeqNum := ⟨n % 2 ^ 48, Nat.mod_lt _ (by decide)⟩
        dwellBlocks := 1
        beforeUpdate := if n = 4 then [⟨some 8, none, ()⟩] else []
        beforeCheck := []
        beforeCopy := if n = 16 then [⟨some 100, none, ()⟩] else [] }
    ((start ⟨0, 0, 0, 0, 0, 0⟩ ⟨0, 0, 0, 0, 0, 0⟩ status (fun _ => status) 0).run (fun _ pktidx => pktidx) cfg
      inputs).map (fun s => s.sent.map fun b => (b.1, b.2.sttvalid, b.2.pktstart, b.2.stt)) =
    some [(4, some 0, some 100, some 8), (3, some 1, some 8, some 8), (2, none, some 8, none),
      (1, none, none, none), (0, none, none, none)] := by
  decide

end StatusThread

end VoltRec.VoltOuter
