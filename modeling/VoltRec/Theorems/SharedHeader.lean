import VoltRec.SharedHeader
import VoltRec.Theorems.Recorder

/-! The header structure that the worker and the file writer share. The worker writes to it once, before it hands over
    its first block, and the file writer first reads it when it has got one; so a run with the shared structure is
    one in which the file writer has had the values of the first packets from the start. -/

namespace VoltRec

open FilePool

/-! ### The file writer and the structure -/

namespace FilePool

theorem WriterAt.share_id (c : WriterAt) : c.share id = c := by cases c <;> rfl

theorem WriterAt.share_const (c : WriterAt) (g : FileBuff → FileBuff) :
    c.share g = c.share fun _ => g c.fileWriter.fileBuff := by
  cases c <;> rfl

theorem WriterAt.share_fileBuff (c : WriterAt) : (c.share fun _ => c.fileWriter.fileBuff) = c := by cases c <;> rfl

/-- The structure is read only where a file is opened, with a buffer in hand. -/
theorem WriterTurn.share {k k' : Bool} {c c' : WriterAt} {l : Label UdpBuffer} (h : WriterTurn k c l k' c')
    (hc : ∀ f b, c ≠ .holding f b) (g : FileBuff → FileBuff) : WriterTurn k (c.share g) l k' (c'.share g) := by
  cases h with
  | goOn => exact .goOn
  | stopped => exact .stopped
  | anyFull h => exact .anyFull h
  | leave => exact .leave
  | fetchBufferWait => exact .fetchBufferWait
  | waitOn => exact .waitOn
  | shut => exact .shut
  | fetchBufferTake => exact .fetchBufferTake _
  | takeNone => exact .takeNone
  | ready => exact .ready
  | returnEmptyBuffer | returnBuffer | integrity => exact absurd rfl (hc _ _)

end FilePool

/-! ### The worker and its first packets -/

/-- The thread has not scanned any packets. -/
def FilePool.WorkerAt.Before : WorkerAt → Prop
  | .running w _ | .waiting w | .returning w _ _ | .swapping w _ _ | .closing w _ => w.firstLoopDone = false
  | .fetching _ | .noSlot | .returned => True

/-- It has. -/
def FilePool.WorkerAt.After : WorkerAt → Prop
  | .running w _ | .waiting w | .returning w _ _ | .swapping w _ _ | .closing w _ => w.firstLoopDone = true
  | .fetching _ | .noSlot => False
  | .returned => True

section Worker
variable {cfg : Config} {u : Uninit} {w : Worker} {i : Instr} {rest : List Instr} {tr : List (Label UdpBuffer)}
  {l : Label UdpBuffer} {pos pos' : WorkerAt} {k k' : Bool}

/-- The first instruction scans the first packets. -/
theorem Progress.scan_of_before (h : Progress cfg u tr w (i :: rest)) (hd : w.firstLoopDone = false) :
    ∃ packets, i = .scan packets ∧ firstBatch (inputs tr) = some packets ∧
      w.antNumbers = List.replicate maxNoAnts noAntenna := by
  obtain ⟨slots, is, hprog, hw⟩ := h.program
  rcases program_cases (inputs tr) with ⟨-, hnil⟩ | ⟨packets, js, hb, -, hscan⟩
  · rw [hnil] at hprog
    simp at hprog
  · have hnone : is = [] := by
      by_contra hne
      obtain ⟨hdone, -⟩ := workerAfter_first cfg slots u hb ⟨i :: rest, hprog⟩ hne
      rw [← hw, hd] at hdone
      cases hdone
    rw [hnone, hscan, List.nil_append] at hprog
    exact ⟨packets, (List.cons_eq_cons.mp hprog).1, hb, by rw [hw, hnone]; rfl⟩

theorem after_turn (h : FilePool.WorkerTurn cfg u k pos l k' pos') (ha : pos.After) : pos'.After := by
  cases h with
  | instr hi slots => exact (Worker.exec_firstLoopDone cfg slots ha _).1
  | fetchNext => exact (Worker.exec_firstLoopDone cfg _ ha _).1
  | fetchFirst | noFirst | writeFirst | start => exact ha.elim
  | closed => trivial
  | goOn | leave | noBuffer | buffer | write | returnBuffer | integrity | ready | noNext | returnEmptyBuffer |
    closingIntegrity => exact ha

/-- Before the scan the worker hands nothing over, and the scan is the first of the instructions. -/
theorem before_turn (h : FilePool.WorkerTurn cfg u k pos l k' pos') (hb : pos.Before) (hp : Processes cfg u tr pos) :
    (pos'.Before ∧ (∀ index order n d, l ≠ .call (.returnBufferData .producer index order n d)) ∧
      ∀ w packets rest, l = .silent → pos ≠ .running w (.scan packets :: rest)) ∨
    ∃ w packets rest, pos = .running w (.scan packets :: rest) ∧ l = .silent ∧ w.firstLoopDone = false ∧ pos'.After ∧
      firstBatch (inputs tr) = some packets ∧ w.antNumbers = List.replicate maxNoAnts noAntenna := by
  cases h with
  | @instr _ w i rest hi slots =>
    obtain ⟨packets, rfl, hfirst⟩ := Progress.scan_of_before hp hb
    exact Or.inr ⟨w, packets, rest, rfl, rfl, hb, Worker.firstScan_firstLoopDone cfg w packets, hfirst⟩
  | @returnBuffer _ w i rest iK data hi =>
    obtain ⟨packets, rfl, -⟩ := Progress.scan_of_before hp hb
    cases hi
  | @fetchNext _ w i rest index =>
    obtain ⟨packets, rfl, -⟩ := Progress.scan_of_before hp.2 hb
    exact absurd rfl hp.1
  | fetchFirst | noFirst | writeFirst | start | goOn | leave | noBuffer | buffer | write | integrity | ready | noNext |
    returnEmptyBuffer | closingIntegrity | closed =>
    exact Or.inl ⟨by first | exact hb | trivial, by rintro _ _ _ _ ⟨⟩, by rintro _ _ _ ⟨⟩ ⟨⟩⟩

end Worker

namespace Recorder
open Recording

variable {cfg : Config} {u : Uninit} {fileBuff : FileBuff} {networkData : Nat → Nat → UInt8}
  {networkLen fileLen : Nat → Nat} {tr : List Event} {s s' : State} {ev : Event}

/-! ### Steps -/

/-- The structure once the first packets are scanned. -/
def setFirst (cfg : Config) (first : List Packet) (fileBuff : FileBuff) : FileBuff :=
  { fileBuff with
    packetStart := pktStart first
    antNumbers := (antNumbersOf cfg first).take cfg.nAnts ++ fileBuff.antNumbers.drop cfg.nAnts }

theorem fillIn_firstScan {w : Worker} (hd : w.firstLoopDone = false)
    (hants : w.antNumbers = List.replicate maxNoAnts noAntenna) (packets : List Packet) :
    (w.firstScan cfg packets).fillIn cfg fileBuff = setFirst cfg packets fileBuff := by
  simp only [Worker.fillIn, Worker.firstScan, hd, Bool.false_eq_true, if_false, hants]
  rfl

/-- Only the scan of the first packets shares anything. -/
theorem sharing_eq_id (h : ∀ n w packets rest, ev = .worker n (some .silent) →
    s.worker.writing.pos = .running w (.scan packets :: rest) → w.firstLoopDone = true) : sharing cfg s ev = id := by
  unfold sharing
  split
  · rename_i n
    split
    · rename_i w packets rest hpos
      rw [if_pos (h n w packets rest rfl hpos)]
    · rfl
  · rfl

/-- What holds until the worker has scanned its first packets. -/
structure Untouched (fileBuff : FileBuff) (tr : List Event) (s : State) : Prop where
  before : s.worker.writing.pos.Before
  fileBuff : s.writer.fileWriter.fileBuff = fileBuff
  notHanded : ∀ index order n d, .call (.returnBufferData .producer index order n d) ∉ fileTrace tr

/-- A step of the scan. -/
structure Scans (cfg : Config) (fileBuff : FileBuff) (tr : List Event) (s : State) (ev : Event) (s' : State)
    (first : List Packet) : Prop where
  isFirst : firstBatch (inputs (fileTrace tr)) = some first
  sharing : sharing cfg s ev fileBuff = setFirst cfg first fileBuff
  after : s'.worker.writing.pos.After
  writer : s'.writer = s.writer
  withWriter : ∀ c, Step cfg u { s with writer := c } ev { s' with writer := c }

theorem Untouched.step (hr : Lts.Run (Step cfg u) (init u fileBuff networkData networkLen fileLen) tr s)
    (h : Untouched fileBuff tr s) (hs : Step cfg u s ev s') :
    (sharing cfg s ev = id ∧ Untouched fileBuff (tr ++ [ev]) s' ∧
      ∀ g, Step cfg u { s with writer := s.writer.share g } ev { s' with writer := s'.writer.share g }) ∨
    ∃ first, Scans (u := u) cfg fileBuff tr s ev s' first := by
  have hfile := (below (run_file hr)).run
  have hnot : ∀ {f : Option (Label UdpBuffer)}, ev.file = f →
      (∀ index order n d, f ≠ some (.call (.returnBufferData .producer index order n d))) →
      ∀ index order n d, .call (.returnBufferData .producer index order n d) ∉ fileTrace (tr ++ [ev]) := by
    rintro f rfl hf index order n d hmem
    rw [fileTrace, List.filterMap_append, List.mem_append] at hmem
    rcases hmem with hmem | hmem
    · exact h.notHanded index order n d hmem
    · obtain ⟨ev', hev, heq⟩ := List.mem_filterMap.mp hmem
      rw [List.mem_singleton.mp hev] at heq
      exact hf index order n d heq
  obtain ⟨p, q, k, t, ⟨e, ⟨pos, pending⟩⟩, c⟩ := s
  cases hs with
  | @receiver l keepGoing _ _ ht hp =>
    refine Or.inl ⟨rfl, ⟨h.before, h.fileBuff, hnot rfl ?_⟩, fun g => .receiver ht hp⟩
    intro index order n d
    cases keepGoing <;> exact nofun
  | interrupt => exact Or.inl ⟨rfl, ⟨h.before, h.fileBuff, hnot rfl nofun⟩, fun g => .interrupt⟩
  | writer ht hp =>
    have hc : ∀ f b, c ≠ .holding f b := by
      intro f b hb
      obtain ⟨index, hmem⟩ := ((faithful hfile).holding f b hb).1
      exact h.notHanded _ _ _ _ hmem
    refine Or.inl ⟨rfl, ⟨h.before, ?_, hnot rfl ?_⟩, fun g => .writer (ht.share hc g) hp⟩
    · rcases ht.fileWriter_cases with hsame | ⟨f, b, hb, -⟩
      · exact (congrArg FileWriter.fileBuff hsame).trans h.fileBuff
      · exact absurd hb (hc f b)
    · rintro index order n d ⟨⟩
      cases ht
  | @worker n f w' network file ht hn hf =>
    obtain ⟨e', ⟨pos', pending'⟩⟩ := w'
    rcases ht.file with ⟨l, rfl, hturn⟩ | ⟨rfl, hsame⟩
    · cases hturn with
      | write =>
        exact Or.inl ⟨rfl, ⟨h.before, h.fileBuff, hnot rfl nofun⟩, fun g => .worker ht hn hf⟩
      | turn hturn hw =>
        rcases before_turn hturn h.before (processes hfile) with ⟨hbefore, hl, hscan⟩ |
          ⟨w, packets, rest, hpos, rfl, hd, hafter, hfirst, hants⟩
        · refine Or.inl ⟨?_, ⟨hbefore, h.fileBuff, hnot rfl ?_⟩, fun g => .worker ht hn hf⟩
          · exact sharing_eq_id fun n' w packets rest hev hpos => by
              cases hev
              exact absurd hpos (hscan w packets rest rfl)
          · rintro index order n d ⟨⟩
            exact hl _ _ _ _ rfl
        · refine Or.inr ⟨packets, hfirst, ?_, hafter, rfl, fun c => .worker ht hn hf⟩
          subst hpos
          simp only [sharing, hd, Bool.false_eq_true, if_false]
          exact fillIn_firstScan hd hants packets
    · cases hsame
      exact Or.inl ⟨rfl, ⟨h.before, h.fileBuff, hnot rfl nofun⟩, fun g => .worker ht hn hf⟩

/-- After the scan nothing is shared any more. -/
theorem After.step (h : s.worker.writing.pos.After) (hs : Step cfg u s ev s') :
    sharing cfg s ev = id ∧ s'.worker.writing.pos.After := by
  refine ⟨sharing_eq_id fun n w packets rest _ hpos => ?_, ?_⟩
  · rw [hpos] at h
    exact h
  · obtain ⟨p, q, k, t, ⟨e, ⟨pos, pending⟩⟩, c⟩ := s
    cases hs with
    | receiver | writer | interrupt => exact h
    | @worker n f w' network file ht hn hf =>
      obtain ⟨e', ⟨pos', pending'⟩⟩ := w'
      rcases ht.file with ⟨l, -, hturn⟩ | ⟨-, hsame⟩
      · cases hturn with
        | write => exact h
        | turn hturn => exact after_turn hturn h
      · cases hsame
        exact h

/-! ### Runs -/

theorem untouched_init : Untouched fileBuff [] (init u fileBuff networkData networkLen fileLen) where
  before := trivial
  fileBuff := rfl
  notHanded _ _ _ _ := List.not_mem_nil

theorem firstBatch_fileTrace {first : List Packet} (h : firstBatch (inputs (fileTrace tr)) = some first) (ev : Event) :
    firstBatch (inputs (fileTrace (tr ++ [ev]))) = some first := by
  rw [inputs_fileTrace]
  exact firstBatch_append h _

/-- In a run with the shared structure the file writer takes the steps that it takes with the structure of the first
    packets from the start; until these are scanned any other structure would do as well. -/
theorem run_of_shared (hr : Lts.Run (SharedStep cfg u) (init u fileBuff networkData networkLen fileLen) tr s) :
    (Untouched fileBuff tr s ∧ ∀ fileBuff', Lts.Run (Step cfg u) (init u fileBuff' networkData networkLen fileLen) tr
      { s with writer := s.writer.share fun _ => fileBuff' }) ∨
    (s.worker.writing.pos.After ∧ ∃ first, firstBatch (inputs (fileTrace tr)) = some first ∧
      Lts.Run (Step cfg u) (init u (setFirst cfg first fileBuff) networkData networkLen fileLen) tr s) := by
  refine hr.invariant (I := fun tr s =>
    (Untouched fileBuff tr s ∧ ∀ fileBuff', Lts.Run (Step cfg u) (init u fileBuff' networkData networkLen fileLen) tr
      { s with writer := s.writer.share fun _ => fileBuff' }) ∨
    (s.worker.writing.pos.After ∧ ∃ first, firstBatch (inputs (fileTrace tr)) = some first ∧
      Lts.Run (Step cfg u) (init u (setFirst cfg first fileBuff) networkData networkLen fileLen) tr s))
    (Or.inl ⟨untouched_init, fun _ => .start⟩) ?_
  rintro tr s ev s' - ih ⟨s₁, hs, rfl⟩
  rcases ih with ⟨hbefore, hrun⟩ | ⟨hafter, first, hfirst, hrun⟩
  · have hown := hrun fileBuff
    have hsame : (s.writer.share fun _ => fileBuff) = s.writer := hbefore.fileBuff ▸ s.writer.share_fileBuff
    rw [hsame] at hown
    rcases hbefore.step hown hs with ⟨hid, hnext, hshare⟩ | ⟨first, hscan⟩
    · rw [hid, WriterAt.share_id]
      exact Or.inl ⟨hnext, fun fileBuff' => (hrun fileBuff').next (hshare _)⟩
    · refine Or.inr ⟨hscan.after, first, firstBatch_fileTrace hscan.isFirst ev, ?_⟩
      have hset : s₁.writer.share (sharing cfg s ev) = s.writer.share fun _ => setFirst cfg first fileBuff := by
        rw [hscan.writer, WriterAt.share_const, hbefore.fileBuff, hscan.sharing]
      rw [hset]
      exact (hrun _).next (hscan.withWriter _)
  · obtain ⟨hid, hafter'⟩ := After.step hafter hs
    rw [hid, WriterAt.share_id]
    exact Or.inr ⟨hafter', first, firstBatch_fileTrace hfirst ev, hrun.next hs⟩

/-- Where the first packets find their values there already, sharing makes no difference. -/
theorem shared_of_run (hr : Lts.Run (Step cfg u) (init u fileBuff networkData networkLen fileLen) tr s)
    (hset : ∀ first, firstBatch (inputs (fileTrace tr)) = some first → setFirst cfg first fileBuff = fileBuff) :
    Lts.Run (SharedStep cfg u) (init u fileBuff networkData networkLen fileLen) tr s := by
  refine (hr.invariant (I := fun tr s =>
    (∀ first, firstBatch (inputs (fileTrace tr)) = some first → setFirst cfg first fileBuff = fileBuff) →
    Lts.Run (SharedStep cfg u) (init u fileBuff networkData networkLen fileLen) tr s ∧
      (Untouched fileBuff tr s ∨ s.worker.writing.pos.After)) (fun _ => ⟨.start, Or.inl untouched_init⟩) ?_ hset).1
  intro tr s ev s' hr ih hs hset
  obtain ⟨hrun, hpos⟩ := ih fun first hfirst => hset first (firstBatch_fileTrace hfirst ev)
  have hnext : s'.writer.share (sharing cfg s ev) = s'.writer →
      Lts.Run (SharedStep cfg u) (init u fileBuff networkData networkLen fileLen) (tr ++ [ev]) s' := fun hsame =>
    hrun.next ⟨s', hs, by rw [hsame]⟩
  rcases hpos with hbefore | hafter
  · rcases hbefore.step hr hs with ⟨hid, hbefore', -⟩ | ⟨first, hscan⟩
    · exact ⟨hnext (by rw [hid, WriterAt.share_id]), Or.inl hbefore'⟩
    · refine ⟨hnext ?_, Or.inr hscan.after⟩
      have hfix := hset first (firstBatch_fileTrace hscan.isFirst ev)
      rw [hscan.writer, WriterAt.share_const, hbefore.fileBuff, hscan.sharing, hfix, ← hbefore.fileBuff,
        WriterAt.share_fileBuff]
  · obtain ⟨hid, hafter'⟩ := After.step hafter hs
    exact ⟨hnext (by rw [hid, WriterAt.share_id]), Or.inr hafter'⟩

end Recorder

end VoltRec
