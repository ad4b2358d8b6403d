import VoltRec.FileThread
import Mathlib.Data.List.Induction
import Mathlib.Data.List.ModifyLast

/-! The files that the file thread writes. The orders written increase strictly; within a file they are
    consecutive, and a later file starts only at a gap that many fetches in a row have not filled. -/

namespace VoltRec

variable {fileBuff : FileBuff} {w : FileWriter} {b : Fetched} {bufs : List Fetched}

def Fetched.block (b : Fetched) : Block where
  order := b.order
  bytes := Memory.slice b.data 0 b.dataLen

/-- The blocks of a file have consecutive orders. -/
def File.Consecutive (f : File) : Prop :=
  f.blocks ≠ [] ∧ ∃ k, f.blocks.map Block.order = List.range' k f.blocks.length

/-- The header has the packet number of the first block in the file; the block of order 1 has `packetStart`. -/
def File.Stamped (packetStart : Nat) (f : File) : Prop :=
  ∀ block ∈ f.blocks.head?, f.header.packetStart = packetStart + (block.order - 1) * timeIntPerBuffer

instance (packetStart : Nat) : DecidablePred (File.Stamped packetStart) := fun f =>
  inferInstanceAs (Decidable (∀ block ∈ f.blocks.head?, _))

def Outcome.isWritten : Outcome → Bool
  | .written _ => true
  | _ => false

namespace FileWriter

/-- All blocks written, over all files. -/
def blocks (w : FileWriter) : List Block := w.files.flatMap File.blocks

def orders (w : FileWriter) : List Nat := w.blocks.map Block.order

/-- The fetches since the last buffer was written. -/
def outOfSequence (log : List Outcome) : List Outcome := log.reverse.takeWhile fun o => !o.isWritten

/-! ### One fetch -/

/-- The fetch meets a gap that enough fetches have found before it. -/
def MeetsRollOver (w : FileWriter) (b : Fetched) : Prop :=
  w.lastOrd + 1 < b.order ∧ w.lastOrd ≠ 0 ∧ maxOrderMisses < w.nMisses + 1

theorem store_first (h : w.lastOrd = 0) (b : Fetched) :
    w.store b =
      { w with
        lastOrd := b.order
        files := w.files ++ [⟨w.consecFile, writeHeader w.fileBuff, [b.block]⟩]
        log := w.log ++ [.written b.index] } := by
  simp [store, h, openFile, write, Fetched.block, List.modifyLast_concat]

theorem store_append {fs : List File} {f : File} (h : w.lastOrd ≠ 0) (hf : w.files = fs ++ [f]) (b : Fetched) :
    w.store b =
      { w with
        lastOrd := b.order
        files := fs ++ [{ f with blocks := f.blocks ++ [b.block] }]
        log := w.log ++ [.written b.index] } := by
  simp [store, h, hf, write, Fetched.block, List.modifyLast_concat]

/-- A new file at a gap: its header has the packet start that the roll-over computes. -/
theorem rollOver_store {order : Nat} (h : 1 < order) (w : FileWriter) (b : Fetched) :
    ∃ fileBuff : FileBuff,
      fileBuff.packetStart = (order * timeIntPerBuffer + w.fileBuff.packetStart + (2 ^ 64 - 1)) % 2 ^ 64 ∧
      (w.rollOver order).store b =
        { w with
          fileBuff := fileBuff
          consecFile := w.consecFile + 1
          nMisses := 0
          lastOrd := b.order
          files := w.files ++ [⟨w.consecFile + 1, writeHeader fileBuff, [b.block]⟩]
          log := w.log ++ [.written b.index] } := by
  obtain ⟨fileBuff, hstart, hopen⟩ : ∃ fileBuff : FileBuff,
      fileBuff.packetStart = (order * timeIntPerBuffer + w.fileBuff.packetStart + (2 ^ 64 - 1)) % 2 ^ 64 ∧
      w.rollOver order =
        { w with
          fileBuff := fileBuff
          consecFile := w.consecFile + 1
          nMisses := 0
          lastOrd := order - 1
          files := w.files ++ [⟨w.consecFile + 1, writeHeader fileBuff, []⟩] } :=
    ⟨(w.rollOver order).fileBuff, rfl, rfl⟩
  refine ⟨fileBuff, hstart, ?_⟩
  have hlast : order - 1 ≠ 0 := by omega
  rw [hopen, store_append hlast rfl]
  rfl

/-- The four ways of a pass. -/
theorem pass_cases (w : FileWriter) (b : Fetched) :
    (b.order ≤ w.lastOrd ∧ w.pass b = { w with log := w.log ++ [.discarded b.index] }) ∨
    (w.lastOrd + 1 < b.order ∧ ¬w.MeetsRollOver b ∧ w.pass b =
      { w with nMisses := w.nMisses + 1, log := w.log ++ [.putBack b.index b.order b.dataLen] }) ∨
    (w.MeetsRollOver b ∧ ∃ fileBuff : FileBuff,
      fileBuff.packetStart = (b.order * timeIntPerBuffer + w.fileBuff.packetStart + (2 ^ 64 - 1)) % 2 ^ 64 ∧
      w.pass b =
        { w with
          fileBuff := fileBuff
          consecFile := w.consecFile + 1
          nMisses := 0
          lastOrd := b.order
          files := w.files ++ [⟨w.consecFile + 1, writeHeader fileBuff, [b.block]⟩]
          log := w.log ++ [.written b.index] }) ∨
    (w.lastOrd + 1 = b.order ∧ w.pass b = { w with nMisses := 0 }.store b) := by
  unfold pass
  split
  · rename_i hne
    split
    · exact Or.inl ⟨‹_›, rfl⟩
    · rename_i hlt
      have hgap : w.lastOrd + 1 < b.order := by omega
      simp only
      split
      · rename_i hroll
        have hone : 1 < b.order := by omega
        obtain ⟨fileBuff, hstart, hstore⟩ := rollOver_store hone { w with nMisses := w.nMisses + 1 } b
        exact Or.inr (Or.inr (Or.inl ⟨⟨hgap, hroll.1, hroll.2⟩, fileBuff, hstart, hstore⟩))
      · rename_i hroll
        exact Or.inr (Or.inl ⟨hgap, fun h => hroll ⟨h.2.1, h.2.2⟩, rfl⟩)
  · exact Or.inr (Or.inr (Or.inr ⟨not_not.mp ‹_›, rfl⟩))

/-! ### Sequences -/

theorem outOfSequence_append (log : List Outcome) (o : Outcome) :
    outOfSequence (log ++ [o]) = if o.isWritten then [] else o :: outOfSequence log := by
  rw [outOfSequence, List.reverse_append, List.reverse_singleton, List.singleton_append, List.takeWhile_cons]
  cases o <;> rfl

theorem consecutive_single (consecFile : Nat) (header : FileBuff) (block : Block) :
    File.Consecutive ⟨consecFile, header, [block]⟩ :=
  ⟨List.cons_ne_nil _ _, block.order, rfl⟩

/-- A file goes on with the order after its last one. -/
theorem consecutive_snoc {f : File} (h : f.Consecutive) {last : Nat} {block : Block}
    (hlast : (f.blocks.map Block.order).getLast? = some last) (hnext : last + 1 = block.order) :
    File.Consecutive { f with blocks := f.blocks ++ [block] } := by
  obtain ⟨hne, k, hk⟩ := h
  refine ⟨by simp, k, ?_⟩
  have hlen : 0 < f.blocks.length := List.length_pos_iff.mpr hne
  rw [hk, List.getLast?_range'] at hlast
  have horder : block.order = k + f.blocks.length := by
    have := Nat.ne_of_gt hlen
    simp only [this, if_false, Option.some.injEq] at hlast
    omega
  rw [List.map_append, hk, List.length_append, List.length_singleton, List.range'_concat, List.map_singleton, horder]
  simp

/-- The files between any two passes. -/
structure Sequenced (w : FileWriter) : Prop where
  lastOrd : w.lastOrd = w.orders.getLast?.getD 0
  sorted : w.orders.Pairwise (· < ·)
  le_lastOrd : ∀ k ∈ w.orders, k ≤ w.lastOrd
  first : ∀ k, w.orders.head? = some k → k = 1
  files : ∀ f ∈ w.files, f.Consecutive
  nonempty : w.files = [] ↔ w.lastOrd = 0
  misses : w.nMisses ≤ (outOfSequence w.log).length

theorem sequenced_start (fileBuff : FileBuff) : Sequenced (.start fileBuff) where
  lastOrd := rfl
  sorted := by simp [start, orders, blocks]
  le_lastOrd := by simp [start, orders, blocks]
  first := by simp [start, orders, blocks]
  files := by simp [start]
  nonempty := by simp [start]
  misses := Nat.le_refl _

theorem Sequenced.snoc {w' : FileWriter} (h : Sequenced w) (hblocks : w'.blocks = w.blocks ++ [b.block])
    (hlast : w'.lastOrd = b.order) (hlt : w.lastOrd < b.order) (hone : w.lastOrd = 0 → b.order = 1)
    (hfiles : ∀ f ∈ w'.files, f.Consecutive) (hne : w'.files ≠ []) (hmisses : w'.nMisses = 0) : Sequenced w' := by
  have horders : w'.orders = w.orders ++ [b.order] := by
    rw [orders, hblocks, List.map_append]
    rfl
  refine ⟨?_, ?_, ?_, ?_, hfiles, ?_, by omega⟩
  · rw [horders, hlast]
    simp
  · rw [horders, List.pairwise_append]
    refine ⟨h.sorted, List.pairwise_singleton _ _, fun k hk k' hk' => ?_⟩
    rw [List.mem_singleton.mp hk']
    exact Nat.lt_of_le_of_lt (h.le_lastOrd k hk) hlt
  · intro k hk
    rw [horders, List.mem_append, List.mem_singleton] at hk
    rcases hk with hk | rfl
    · exact hlast ▸ Nat.le_of_lt (Nat.lt_of_le_of_lt (h.le_lastOrd k hk) hlt)
    · exact Nat.le_of_eq hlast.symm
  · intro k hk
    rw [horders] at hk
    cases hw : w.orders with
    | nil =>
      have hzero : w.lastOrd = 0 := by rw [h.lastOrd, hw]; rfl
      rw [hw, List.nil_append, List.head?_cons, Option.some.injEq] at hk
      rw [← hk, hone hzero]
    | cons k' ks =>
      rw [hw, List.cons_append, List.head?_cons] at hk
      exact h.first k (by rw [hw, List.head?_cons, hk])
  · rw [hlast]
    exact ⟨fun h' => absurd h' hne, fun h' => absurd b.pos (by omega)⟩

theorem Sequenced.newFile {w' : FileWriter} {consecFile : Nat} {header : FileBuff} (h : Sequenced w)
    (hfiles : w'.files = w.files ++ [⟨consecFile, header, [b.block]⟩]) (hlast : w'.lastOrd = b.order)
    (hlt : w.lastOrd < b.order) (hone : w.lastOrd = 0 → b.order = 1) (hmisses : w'.nMisses = 0) :
    Sequenced w' ∧ w'.blocks = w.blocks ++ [b.block] := by
  have hblocks : w'.blocks = w.blocks ++ [b.block] := by simp [blocks, hfiles]
  refine ⟨h.snoc hblocks hlast hlt hone ?_ (by simp [hfiles]) hmisses, hblocks⟩
  intro f hf
  rw [hfiles, List.mem_append, List.mem_singleton] at hf
  rcases hf with hf | rfl
  · exact h.files f hf
  · exact consecutive_single _ _ _

theorem Sequenced.unwritten {w' : FileWriter} (h : Sequenced w) (hfiles : w'.files = w.files)
    (hlast : w'.lastOrd = w.lastOrd) (hmisses : w'.nMisses ≤ (outOfSequence w'.log).length) : Sequenced w' := by
  have hblocks : w'.blocks = w.blocks := congrArg (List.flatMap File.blocks) hfiles
  have horders : w'.orders = w.orders := congrArg (List.map Block.order) hblocks
  exact ⟨hlast ▸ horders ▸ h.lastOrd, horders ▸ h.sorted, hlast ▸ horders ▸ h.le_lastOrd, horders ▸ h.first,
    hfiles ▸ h.files, hlast ▸ hfiles ▸ h.nonempty, hmisses⟩

/-- The open file is the last one and holds the last order. -/
theorem Sequenced.openFile (h : Sequenced w) (hlast : w.lastOrd ≠ 0) :
    ∃ fs f, w.files = fs ++ [f] ∧ (f.blocks.map Block.order).getLast? = some w.lastOrd := by
  have hne : w.files ≠ [] := fun h' => hlast (h.nonempty.mp h')
  obtain ⟨fs, f, hf⟩ := List.eq_nil_or_concat w.files |>.resolve_left hne
  rw [List.concat_eq_append] at hf
  refine ⟨fs, f, hf, ?_⟩
  have hfne : f.blocks.map Block.order ≠ [] := by
    have := (h.files f (by rw [hf]; simp)).1
    simpa using this
  have horders : w.orders = (fs.flatMap File.blocks).map Block.order ++ f.blocks.map Block.order := by
    rw [orders, blocks, hf, List.flatMap_append, List.map_append]
    simp
  have hw := h.lastOrd
  rw [horders, List.getLast?_append, List.getLast?_eq_some_getLast hfne] at hw
  rw [List.getLast?_eq_some_getLast hfne, hw]
  rfl

theorem blocks_concat {fs : List File} {f : File} (h : w.files = fs ++ [f]) :
    w.blocks = fs.flatMap File.blocks ++ f.blocks := by
  rw [blocks, h, List.flatMap_append]
  simp

theorem Sequenced.getLast?_orders (h : Sequenced w) (hlast : w.lastOrd ≠ 0) : w.orders.getLast? = some w.lastOrd := by
  have hw := h.lastOrd
  cases horders : w.orders.getLast? with
  | none => rw [horders] at hw; exact absurd hw hlast
  | some k => rw [horders] at hw; rw [hw]; rfl

theorem Sequenced.sameFile {w' : FileWriter} {fs : List File} {f : File} (h : Sequenced w) (hw : w.files = fs ++ [f])
    (hopen : (f.blocks.map Block.order).getLast? = some w.lastOrd)
    (hfiles : w'.files = fs ++ [{ f with blocks := f.blocks ++ [b.block] }]) (hlast : w'.lastOrd = b.order)
    (hnext : w.lastOrd + 1 = b.order) (hmisses : w'.nMisses = 0) :
    Sequenced w' ∧ w'.blocks = w.blocks ++ [b.block] := by
  have hblocks : w'.blocks = w.blocks ++ [b.block] := by
    rw [blocks_concat hfiles, blocks_concat hw, List.append_assoc]
  refine ⟨h.snoc hblocks hlast (by omega) (fun _ => by omega) ?_ (by simp [hfiles]) hmisses, hblocks⟩
  intro f' hf'
  rw [hfiles, List.mem_append, List.mem_singleton] at hf'
  rcases hf' with hf' | rfl
  · exact h.files f' (by rw [hw]; exact List.mem_append_left _ hf')
  · exact consecutive_snoc (h.files f (by rw [hw]; simp)) hopen hnext

/-- What a pass does with the buffer that it fetched. -/
inductive Passed (w : FileWriter) (b : Fetched) (w' : FileWriter) : Prop
  | discarded (old : ∃ k, w.orders.getLast? = some k ∧ b.order ≤ k) (files : w'.files = w.files)
      (log : w'.log = w.log ++ [.discarded b.index])
  | putBack (files : w'.files = w.files) (log : w'.log = w.log ++ [.putBack b.index b.order b.dataLen])
  | written (blocks : w'.blocks = w.blocks ++ [b.block]) (log : w'.log = w.log ++ [.written b.index])

/-- A file after the first is started at a gap that more than `MAX_ORDER_MISSES` fetches in a row, this one
    included, have not filled. -/
def RollsOver (w : FileWriter) (b : Fetched) (w' : FileWriter) : Prop :=
  w.files ≠ [] → w'.files.length ≠ w.files.length →
    (∃ k, w.orders.getLast? = some k ∧ k + 1 < b.order) ∧ maxOrderMisses < (outOfSequence w.log).length + 1

/-- The step: a pass keeps the sequence and deals with its buffer in one of three ways. -/
theorem Sequenced.pass (h : Sequenced w) (b : Fetched) :
    Sequenced (w.pass b) ∧ Passed w b (w.pass b) ∧ RollsOver w b (w.pass b) := by
  rcases pass_cases w b with ⟨hold, hp⟩ | ⟨-, -, hp⟩ | ⟨hroll, fileBuff, -, hp⟩ | ⟨hnext, hp⟩
  · have hlast : w.lastOrd ≠ 0 := by
      have := b.pos
      omega
    rw [hp]
    refine ⟨h.unwritten rfl rfl ?_, .discarded ⟨_, h.getLast?_orders hlast, hold⟩ rfl rfl,
      fun _ hlen => absurd rfl hlen⟩
    rw [outOfSequence_append]
    exact Nat.le_succ_of_le h.misses
  · rw [hp]
    refine ⟨h.unwritten rfl rfl ?_, .putBack rfl rfl, fun _ hlen => absurd rfl hlen⟩
    rw [outOfSequence_append]
    exact Nat.succ_le_succ h.misses
  · obtain ⟨hseq, hblocks⟩ : Sequenced (w.pass b) ∧ (w.pass b).blocks = w.blocks ++ [b.block] :=
      h.newFile (by rw [hp]) (by rw [hp]) (by have := hroll.1; omega) (fun h0 => absurd h0 hroll.2.1) (by rw [hp])
    refine ⟨hseq, .written hblocks (by rw [hp]), fun _ _ => ⟨⟨_, h.getLast?_orders hroll.2.1, hroll.1⟩, ?_⟩⟩
    exact Nat.lt_of_lt_of_le hroll.2.2 (Nat.succ_le_succ h.misses)
  · by_cases hlast : w.lastOrd = 0
    · rw [store_first (w := { w with nMisses := 0 }) hlast] at hp
      obtain ⟨hseq, hblocks⟩ : Sequenced (w.pass b) ∧ (w.pass b).blocks = w.blocks ++ [b.block] :=
        h.newFile (by rw [hp]) (by rw [hp]) (by omega) (fun _ => by omega) (by rw [hp])
      exact ⟨hseq, .written hblocks (by rw [hp]), fun hne => absurd (h.nonempty.mpr hlast) hne⟩
    · obtain ⟨fs, f, hfiles, hopen⟩ := h.openFile hlast
      rw [store_append (w := { w with nMisses := 0 }) hlast hfiles] at hp
      obtain ⟨hseq, hblocks⟩ : Sequenced (w.pass b) ∧ (w.pass b).blocks = w.blocks ++ [b.block] :=
        h.sameFile hfiles hopen (by rw [hp]) (by rw [hp]) hnext (by rw [hp])
      exact ⟨hseq, .written hblocks (by rw [hp]), fun _ hlen => absurd (by simp [hp, hfiles]) hlen⟩

/-! ### Headers -/

variable {packetStart : Nat}

theorem stamped_first {header : FileBuff} (h : header.packetStart = packetStart) (hone : b.order = 1)
    (consecFile : Nat) : File.Stamped packetStart ⟨consecFile, writeHeader header, [b.block]⟩ := by
  intro block hblock
  obtain rfl : b.block = block := Option.some.inj hblock
  show header.packetStart = packetStart + (b.order - 1) * timeIntPerBuffer
  rw [h, hone, Nat.sub_self, Nat.zero_mul, Nat.add_zero]

/-- A roll-over is off by 127. -/
theorem not_stamped_rollOver {header : FileBuff}
    (h : header.packetStart = (b.order * timeIntPerBuffer + packetStart + (2 ^ 64 - 1)) % 2 ^ 64) (consecFile : Nat) :
    ¬File.Stamped packetStart ⟨consecFile, writeHeader header, [b.block]⟩ := by
  intro hstamped
  have hstart : header.packetStart = packetStart + (b.order - 1) * timeIntPerBuffer := hstamped b.block rfl
  rw [h, timeIntPerBuffer] at hstart
  omega

/-- A file that goes on keeps its first block. -/
theorem stamped_snoc {f : File} (hne : f.blocks ≠ []) (block : Block) :
    File.Stamped packetStart { f with blocks := f.blocks ++ [block] } ↔ f.Stamped packetStart := by
  obtain ⟨first, rest, hf⟩ := List.exists_cons_of_ne_nil hne
  simp only [File.Stamped, hf, List.cons_append, List.head?_cons]

/-- A pass in the open file or without a write changes no header. -/
theorem Sequenced.stamped_pass (h : Sequenced w) (hroll : ¬w.MeetsRollOver b)
    (hstart : w.fileBuff.packetStart = packetStart) (hfiles : ∀ f ∈ w.files, f.Stamped packetStart) :
    (w.pass b).fileBuff = w.fileBuff ∧ ∀ f ∈ (w.pass b).files, f.Stamped packetStart := by
  rcases pass_cases w b with ⟨-, hp⟩ | ⟨-, -, hp⟩ | ⟨hroll', -⟩ | ⟨hnext, hp⟩
  · rw [hp]
    exact ⟨rfl, hfiles⟩
  · rw [hp]
    exact ⟨rfl, hfiles⟩
  · exact absurd hroll' hroll
  · by_cases hlast : w.lastOrd = 0
    · rw [hp, store_first (w := { w with nMisses := 0 }) hlast]
      refine ⟨rfl, fun f hf => ?_⟩
      rcases List.mem_append.mp hf with hf | hf
      · exact hfiles f hf
      · rw [List.mem_singleton.mp hf]
        exact stamped_first hstart (by omega) _
    · obtain ⟨fs, f, hw, -⟩ := h.openFile hlast
      rw [hp, store_append (w := { w with nMisses := 0 }) hlast hw]
      refine ⟨rfl, fun f' hf' => ?_⟩
      rcases List.mem_append.mp hf' with hf' | hf'
      · exact hfiles f' (by rw [hw]; exact List.mem_append_left _ hf')
      · have hf : f ∈ w.files := by simp [hw]
        rw [List.mem_singleton.mp hf', stamped_snoc (h.files f hf).1]
        exact hfiles f hf

theorem Sequenced.not_stamped_pass (h : Sequenced w) (hfiles : ∃ f ∈ w.files, ¬f.Stamped packetStart) (b : Fetched) :
    ∃ f ∈ (w.pass b).files, ¬f.Stamped packetStart := by
  obtain ⟨f, hf, hwrong⟩ := hfiles
  rcases pass_cases w b with ⟨-, hp⟩ | ⟨-, -, hp⟩ | ⟨-, fileBuff, -, hp⟩ | ⟨hnext, hp⟩
  · exact ⟨f, by rwa [hp], hwrong⟩
  · exact ⟨f, by rwa [hp], hwrong⟩
  · exact ⟨f, by rw [hp]; exact List.mem_append_left _ hf, hwrong⟩
  · by_cases hlast : w.lastOrd = 0
    · rw [h.nonempty.mpr hlast] at hf
      exact absurd hf List.not_mem_nil
    · obtain ⟨fs, last, hw, -⟩ := h.openFile hlast
      rw [hp, store_append (w := { w with nMisses := 0 }) hlast hw]
      have hlastMem : last ∈ w.files := by simp [hw]
      rw [hw, List.mem_append, List.mem_singleton] at hf
      rcases hf with hf | rfl
      · exact ⟨f, List.mem_append_left _ hf, hwrong⟩
      · exact ⟨_, List.mem_append_right _ (List.mem_singleton_self _),
          fun hs => hwrong ((stamped_snoc (h.files f hlastMem).1 _).mp hs)⟩

/-- The first roll-over writes a wrong header. -/
theorem rollOver_pass (hroll : w.MeetsRollOver b) (hstart : w.fileBuff.packetStart = packetStart) :
    ∃ f ∈ (w.pass b).files, ¬f.Stamped packetStart := by
  rcases pass_cases w b with ⟨hold, -⟩ | ⟨-, hnot, -⟩ | ⟨-, fileBuff, hfb, hp⟩ | ⟨hnext, -⟩
  · exact absurd hroll.1 (by omega)
  · exact absurd hroll hnot
  · rw [hstart] at hfb
    rw [hp]
    exact ⟨_, List.mem_append_right _ (List.mem_singleton_self _), not_stamped_rollOver hfb _⟩
  · exact absurd hroll.1 (by omega)

end FileWriter

theorem fileWriterWork_concat (fileBuff : FileBuff) (bufs : List Fetched) (b : Fetched) :
    fileWriterWork fileBuff (bufs ++ [b]) = (fileWriterWork fileBuff bufs).pass b := by
  rw [fileWriterWork, List.foldl_append]
  rfl

theorem sequenced_run (fileBuff : FileBuff) (bufs : List Fetched) :
    (fileWriterWork fileBuff bufs).Sequenced := by
  induction bufs using List.reverseRecOn with
  | nil => exact FileWriter.sequenced_start fileBuff
  | append_singleton bufs b ih =>
    rw [fileWriterWork_concat]
    exact (ih.pass b).1

/-- The files of a run, and what the next fetch does to them. -/
theorem file_sequence (fileBuff : FileBuff) (bufs : List Fetched) :
    let w := fileWriterWork fileBuff bufs
    w.orders.Pairwise (· < ·) ∧ (∀ k, w.orders.head? = some k → k = 1) ∧ (∀ f ∈ w.files, f.Consecutive) ∧
    ∀ b, w.Passed b (fileWriterWork fileBuff (bufs ++ [b])) ∧
      w.RollsOver b (fileWriterWork fileBuff (bufs ++ [b])) := by
  have h := sequenced_run fileBuff bufs
  refine ⟨h.sorted, h.first, h.files, fun b => ?_⟩
  rw [fileWriterWork_concat]
  exact (h.pass b).2

/-! ### Headers of a run -/

/-- No fetch of the run meets a gap that enough fetches have found before it. -/
def NoRollOver (fileBuff : FileBuff) (bufs : List Fetched) : Prop :=
  ∀ before b after, bufs = before ++ b :: after → ¬(fileWriterWork fileBuff before).MeetsRollOver b

theorem noRollOver_concat (fileBuff : FileBuff) (bufs : List Fetched) (b : Fetched) :
    NoRollOver fileBuff (bufs ++ [b]) ↔
      NoRollOver fileBuff bufs ∧ ¬(fileWriterWork fileBuff bufs).MeetsRollOver b := by
  constructor
  · intro h
    refine ⟨fun before b' after hbufs => h before b' (after ++ [b]) ?_, h bufs b [] rfl⟩
    rw [hbufs, List.append_assoc, List.cons_append]
  · rintro ⟨h, hb⟩ before b' after hbufs
    rcases List.eq_nil_or_concat after with rfl | ⟨after', last, rfl⟩
    · obtain ⟨rfl, hb'⟩ := List.append_inj' hbufs rfl
      obtain rfl : b = b' := by simpa using hb'
      exact hb
    · rw [List.concat_eq_append, ← List.cons_append, ← List.append_assoc] at hbufs
      exact h before b' after' (List.append_inj' hbufs rfl).1

/-- Until a roll-over every header is right and the packet start is what it was; from the first one on, one
    header is wrong. -/
theorem stamped_run (fileBuff : FileBuff) (bufs : List Fetched) :
    (NoRollOver fileBuff bufs → (fileWriterWork fileBuff bufs).fileBuff = fileBuff ∧
      ∀ f ∈ (fileWriterWork fileBuff bufs).files, f.Stamped fileBuff.packetStart) ∧
    (¬NoRollOver fileBuff bufs → ∃ f ∈ (fileWriterWork fileBuff bufs).files, ¬f.Stamped fileBuff.packetStart) := by
  induction bufs using List.reverseRecOn with
  | nil =>
    refine ⟨fun _ => ⟨rfl, fun f hf => absurd hf List.not_mem_nil⟩, fun h => absurd ?_ h⟩
    intro before b after hbufs
    simp at hbufs
  | append_singleton bufs b ih =>
    have hseq := sequenced_run fileBuff bufs
    rw [noRollOver_concat, fileWriterWork_concat]
    constructor
    · rintro ⟨hno, hb⟩
      obtain ⟨hfb, hfiles⟩ := ih.1 hno
      obtain ⟨hfb', hfiles'⟩ := hseq.stamped_pass hb (congrArg FileBuff.packetStart hfb) hfiles
      exact ⟨hfb'.trans hfb, hfiles'⟩
    · intro h
      by_cases hno : NoRollOver fileBuff bufs
      · have hb := not_not.mp fun hb => h ⟨hno, hb⟩
        exact FileWriter.rollOver_pass hb (congrArg FileBuff.packetStart (ih.1 hno).1)
      · exact hseq.not_stamped_pass (ih.2 hno) b

/-- Every header is right exactly in the runs without a roll-over. -/
theorem stamped_iff (fileBuff : FileBuff) (bufs : List Fetched) :
    (∀ f ∈ (fileWriterWork fileBuff bufs).files, f.Stamped fileBuff.packetStart) ↔ NoRollOver fileBuff bufs := by
  obtain ⟨hright, hwrong⟩ := stamped_run fileBuff bufs
  refine ⟨fun h => ?_, fun h => (hright h).2⟩
  by_contra hroll
  obtain ⟨f, hf, hf'⟩ := hwrong hroll
  exact hf' (h f hf)

/-- Order 1 arrives, order 2 never does, and order 3 is fetched until it starts a file. -/
def longGap : List Fetched :=
  ⟨0, 1, 2 ^ 20, fun _ => 0, by decide⟩ :: List.replicate 201 ⟨1, 3, 2 ^ 20, fun _ => 0, by decide⟩

def oneAnt : FileBuff := { nAnts := 1, antNumbers := [0], nchans := 1, firstChan := 0, packetStart := 0 }

theorem longGap_not_stamped :
    ¬∀ f ∈ (fileWriterWork oneAnt longGap).files, f.Stamped oneAnt.packetStart := by
  decide +kernel

end VoltRec
