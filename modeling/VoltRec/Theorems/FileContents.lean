import VoltRec.Theorems.FilePool

/-! What the files hold. A buffer that the worker has handed over keeps its contents until the file writer has
    written it, also where the file writer puts it back into the pool and fetches it again. -/

namespace VoltRec

namespace FilePool

variable {cfg : Config} {u : Uninit} {fileBuff : FileBuff} {data : Nat → Nat → UInt8} {dataLen : Nat → Nat}
  {tr : List (Label UdpBuffer)} {s s' : State} {l : Label UdpBuffer}

/-! ### The file writer -/

/-- The file writer with its files. -/
def WriterAt.fileWriter : WriterAt → FileWriter
  | .test f => f
  | .testFull f => f
  | .waiting f => f
  | .taking f => f
  | .holding f _ => f
  | .returning f => f
  | .returned f => f

/-- A turn of the file writer leaves the files alone, or deals with the buffer that it has. -/
theorem WriterTurn.fileWriter_cases {k k' : Bool} {c c' : WriterAt} (h : WriterTurn k c l k' c') :
    c'.fileWriter = c.fileWriter ∨ ∃ f b, c = .holding f b ∧ c'.fileWriter = f.pass b := by
  cases h with
  | returnEmptyBuffer | returnBuffer => exact Or.inr ⟨_, _, rfl, rfl⟩
  | goOn | stopped | anyFull | leave | fetchBufferWait | waitOn | shut | fetchBufferTake | takeNone | integrity |
    ready => exact Or.inl rfl

/-- What a pass adds to the files is the block of its buffer. -/
theorem mem_blocks_pass {f : FileWriter} (h : f.Sequenced) {b : Fetched} {bl : Block}
    (hbl : bl ∈ (f.pass b).blocks) : bl ∈ f.blocks ∨ bl = b.block := by
  rcases (h.pass b).2.1 with ⟨-, hfiles, -⟩ | ⟨hfiles, -⟩ | ⟨hblocks, -⟩
  · exact Or.inl (by rwa [FileWriter.blocks, hfiles] at hbl)
  · exact Or.inl (by rwa [FileWriter.blocks, hfiles] at hbl)
  · rwa [hblocks, List.mem_append, List.mem_singleton] at hbl

theorem sequenced (hr : Lts.Run (Step cfg u) (init fileBuff data dataLen) tr s) : s.consumer.fileWriter.Sequenced := by
  refine hr.invariant (I := fun _ s => s.consumer.fileWriter.Sequenced) (FileWriter.sequenced_start fileBuff) ?_
  rintro tr ⟨p, k, wk, wr⟩ l s' - ih hs
  cases hs with
  | interrupt | producer => exact ih
  | consumer ht =>
    rcases ht.fileWriter_cases with hsame | ⟨f, b, rfl, hpass⟩
    · exact hsame ▸ ih
    · exact hpass ▸ (FileWriter.Sequenced.pass ih b).1

/-! ### Buffers on their way -/

/-- The thread that writes to a slot has it. -/
theorem held_of_write (hr : Lts.Run (Step cfg u) (init fileBuff data dataLen) tr s) {t : Side} {i x : Nat} {v : UInt8}
    (hs : Step cfg u s (.call (.write t i x v)) s') : Holds t tr i := by
  obtain ⟨holder, hk⟩ := kept (hr.next hs)
  have hrun := hk.run
  rw [acts_append] at hrun
  obtain ⟨s₁, s₂, hr₁, -, hheld, -⟩ := hrun.split
  exact ((holder_eq hr₁ t).2 i).mp hheld

/-- The worker hands block `order` over with these contents. -/
def HandedOver (tr : List (Label UdpBuffer)) (order : Int) (n : Nat) (d : Nat → UInt8) : Prop :=
  ∃ index, .call (.returnBufferData .producer index order n d) ∈ tr

theorem HandedOver.append {order : Int} {n : Nat} {d : Nat → UInt8} (h : HandedOver tr order n d)
    (l : Label UdpBuffer) : HandedOver (tr ++ [l]) order n d := by
  obtain ⟨index, h⟩ := h
  exact ⟨index, List.mem_append_left _ h⟩

/-- Every published slot, the buffer of the file writer and every block in a file is as the worker handed it over. -/
structure Faithful (tr : List (Label UdpBuffer)) (s : State) : Prop where
  ready : ∀ (i : Nat) (o : Int), s.pool.buff.orderNo[i]? = some o → 0 < o →
    HandedOver tr o (s.pool.buff.dataLen i) (s.pool.buff.data i)
  holding : ∀ f b, s.consumer = .holding f b →
    HandedOver tr b.order b.dataLen b.data ∧ s.pool.buff.data b.index = b.data
  files : ∀ bl ∈ s.consumer.fileWriter.blocks, ∃ n d, HandedOver tr bl.order n d ∧ bl.bytes = Memory.slice d 0 n

/-- A step of the worker: it publishes what it says, and writes only to slots of its own. -/
theorem Faithful.producer {p p' : Pool Side} {k k' : Bool} {wk wk' : WorkerAt} {wr : WriterAt}
    (hr : Lts.Run (Step cfg u) (init fileBuff data dataLen) tr ⟨p, k, wk, wr⟩) (h : Faithful tr ⟨p, k, wk, wr⟩)
    (ht : WorkerTurn cfg u k wk l k' wk') (hp : l.OnPool p p') : Faithful (tr ++ [l]) ⟨p', k', wk', wr⟩ := by
  obtain ⟨holder, hk⟩ := kept hr
  have hfiles : ∀ bl ∈ wr.fileWriter.blocks,
      ∃ n d, HandedOver (tr ++ [l]) bl.order n d ∧ bl.bytes = Memory.slice d 0 n := fun bl hbl => by
    obtain ⟨n, d, hd, heq⟩ := h.files bl hbl
    exact ⟨n, d, hd.append l, heq⟩
  rcases onPool_of_act hp with ⟨a, rfl, he⟩ | ⟨-, rfl⟩
  · have hwrite : ∀ {i t x v}, a = .write t i x v → Holds .producer tr i := by
      rintro i t x v rfl
      obtain rfl : t = .producer := (disciplined_worker cfg u).thread ht
      exact held_of_write hr (.producer ht hp)
    refine ⟨fun i o hi ho => ?_, fun f b hb => ?_, hfiles⟩
    · rcases he.ready_cases ho hi with ⟨hold, hlen⟩ | ⟨t, rfl⟩
      · rcases he.data_cases i with hdata | ⟨t, x, v, ha⟩
        · rw [hlen, hdata]
          exact (h.ready i o hold ho).append _
        · have := Option.some.inj (hold.symm.trans (hk.marked (hwrite ha)))
          omega
      · obtain rfl : t = .producer := (disciplined_worker cfg u).thread ht
        exact ⟨i, by simp⟩
    · cases hb
      obtain ⟨hb, hsame⟩ := h.holding f b rfl
      refine ⟨hb.append _, ?_⟩
      rcases he.data_cases b.index with hdata | ⟨t, x, v, ha⟩
      · exact hdata.trans hsame
      · have hmine : Holds .consumer tr b.index := (hk.consumer b.index).mpr rfl
        have := ((hk.holds _ _).mpr hmine).symm.trans ((hk.holds _ _).mpr (hwrite ha))
        cases this
  · refine ⟨fun i o hi ho => (h.ready i o hi ho).append l, fun f b hb => ?_, hfiles⟩
    cases hb
    obtain ⟨hb, hsame⟩ := h.holding f b rfl
    exact ⟨hb.append l, hsame⟩

/-- A step of the file writer: it writes to no slot and puts back what it fetched. -/
theorem Faithful.consumer {p p' : Pool Side} {k k' : Bool} {wk : WorkerAt} {wr wr' : WriterAt}
    (hr : Lts.Run (Step cfg u) (init fileBuff data dataLen) tr ⟨p, k, wk, wr⟩) (h : Faithful tr ⟨p, k, wk, wr⟩)
    (ht : WriterTurn k wr l k' wr') (hp : l.OnPool p p') : Faithful (tr ++ [l]) ⟨p', k', wk, wr'⟩ := by
  have hwrite : ∀ {i t x v}, l ≠ .call (.write t i x v) := by
    rintro i t x v rfl
    cases ht
  refine ⟨fun i o hi ho => ?_, fun f b hb => ?_, fun bl hbl => ?_⟩
  · rcases onPool_of_act hp with ⟨a, rfl, he⟩ | ⟨-, rfl⟩
    · have hdata : p'.buff.data i = p.buff.data i :=
        (he.data_cases i).resolve_right fun ⟨t, x, v, ha⟩ => hwrite (congrArg Label.call ha)
      rcases he.ready_cases ho hi with ⟨hold, hlen⟩ | ⟨t, rfl⟩
      · rw [hlen, hdata]
        exact (h.ready i o hold ho).append _
      · -- The buffer goes back into the slot that it came from.
        generalize hn : p'.buff.dataLen i = n, hd : p'.buff.data i = d at ht
        cases ht with
        | returnBuffer =>
          obtain ⟨hb, hsame⟩ := h.holding _ _ rfl
          obtain rfl := hd.symm.trans (hdata.trans hsame)
          exact hb.append _
    · exact (h.ready i o hi ho).append l
  · cases ht with
    | fetchBufferTake =>
      cases hb
      obtain ⟨hget, hpos, hlen, hdata, hsame⟩ := Pool.Exec.fetched_spec hp
      rw [hlen, hdata]
      exact ⟨(h.ready _ _ hget hpos).append _, congrFun hsame _⟩
    | integrity =>
      cases hb
      obtain ⟨hb, hsame⟩ := h.holding _ _ rfl
      cases hp
      exact ⟨hb.append _, hsame⟩
    | goOn | stopped | anyFull | leave | fetchBufferWait | waitOn | shut | takeNone | returnEmptyBuffer | returnBuffer |
      ready => cases hb
  · rcases ht.fileWriter_cases with hsame | ⟨f, b, rfl, hpass⟩
    · simp only [hsame] at hbl
      obtain ⟨n, d, hd, heq⟩ := h.files bl hbl
      exact ⟨n, d, hd.append l, heq⟩
    · simp only [hpass] at hbl
      rcases mem_blocks_pass (sequenced hr) hbl with hbl | rfl
      · obtain ⟨n, d, hd, heq⟩ := h.files bl hbl
        exact ⟨n, d, hd.append l, heq⟩
      · exact ⟨b.dataLen, b.data, (h.holding _ _ rfl).1.append l, rfl⟩

theorem faithful (hr : Lts.Run (Step cfg u) (init fileBuff data dataLen) tr s) : Faithful tr s := by
  refine hr.invariant (I := Faithful) ⟨fun i o hi ho => ?_, fun f b hb => (by cases hb),
    fun bl hbl => (by cases hbl)⟩ ?_
  · obtain rfl := List.eq_of_mem_replicate (List.mem_of_getElem? hi)
    contradiction
  · rintro tr ⟨p, k, wk, wr⟩ l s' hr ih hs
    cases hs with
    | interrupt =>
      refine ⟨fun i o hi ho => (ih.ready i o hi ho).append _, fun f b hb => ?_, fun bl hbl => ?_⟩
      · exact ⟨(ih.holding f b hb).1.append _, (ih.holding f b hb).2⟩
      · obtain ⟨n, d, hd, heq⟩ := ih.files bl hbl
        exact ⟨n, d, hd.append _, heq⟩
    | producer ht hp => exact ih.producer hr ht hp
    | consumer ht hp => exact ih.consumer hr ht hp

end FilePool
end VoltRec
