import VoltRec.Theorems.SharedHeader
import VoltRec.Theorems.Header
import VoltRec.Theorems.Samples

/-! From the datagrams to the converted files. The header of a recording is the one that the converter expects, its
    blocks are whole frames, and a byte of a datagram that the recorder has put into a block comes out at the place of
    its time, sample, channel and polarisation in the file of its antenna. -/

namespace VoltRec

/-! ### Headers -/

namespace FileWriter

variable {fileBuff : FileBuff} {w : FileWriter} {b : Fetched}

/-- The structure with another packet start. -/
def startingAt (fileBuff : FileBuff) (packetStart : Nat) : FileBuff := { fileBuff with packetStart := packetStart }

/-- The headers have the fields of the structure, and that of the first file the packet start as well. -/
structure Carries (fileBuff : FileBuff) (w : FileWriter) : Prop where
  buff : ∃ packetStart < 2 ^ 64, w.fileBuff = startingAt fileBuff packetStart ∧
    (w.consecFile = 0 → packetStart = fileBuff.packetStart)
  headers : ∀ f ∈ w.files, ∃ packetStart < 2 ^ 64, f.header = writeHeader (startingAt fileBuff packetStart) ∧
    (f.consecFile = 0 → packetStart = fileBuff.packetStart)

theorem carries_start (h : fileBuff.packetStart < 2 ^ 64) : Carries fileBuff (.start fileBuff) where
  buff := ⟨_, h, rfl, fun _ => rfl⟩
  headers f hf := by cases hf

theorem Carries.openFile (h : Carries fileBuff w) : Carries fileBuff w.openFile where
  buff := h.buff
  headers f hf := by
    rcases List.mem_append.mp hf with hf | hf
    · exact h.headers f hf
    · obtain ⟨packetStart, hlt, hbuff, hfirst⟩ := h.buff
      rw [List.mem_singleton.mp hf]
      exact ⟨packetStart, hlt, congrArg writeHeader hbuff, hfirst⟩

theorem Carries.write (h : Carries fileBuff w) (b : Fetched) : Carries fileBuff (w.write b) where
  buff := h.buff
  headers f hf := by
    rcases List.eq_nil_or_concat w.files with hnil | ⟨fs, f', hfs⟩
    · rw [FileWriter.write, hnil] at hf
      cases hf
    · rw [List.concat_eq_append] at hfs
      have hmem : f' ∈ w.files := by rw [hfs]; simp
      rw [FileWriter.write, hfs, List.modifyLast_concat, List.mem_append, List.mem_singleton] at hf
      rcases hf with hf | rfl
      · exact h.headers f (by rw [hfs]; exact List.mem_append_left _ hf)
      · exact h.headers f' hmem

theorem Carries.store (h : Carries fileBuff w) (b : Fetched) : Carries fileBuff (w.store b) := by
  have hopen : Carries fileBuff (if w.lastOrd = 0 then w.openFile else w) := by
    split
    · exact h.openFile
    · exact h
  have hlast : Carries fileBuff { (if w.lastOrd = 0 then w.openFile else w) with lastOrd := b.order } :=
    ⟨hopen.buff, hopen.headers⟩
  exact ⟨(hlast.write b).buff, (hlast.write b).headers⟩

theorem Carries.rollOver (h : Carries fileBuff w) (order : Nat) : Carries fileBuff (w.rollOver order) := by
  refine openFile ⟨?_, h.headers⟩
  obtain ⟨packetStart, -, hbuff, -⟩ := h.buff
  exact ⟨_, Nat.mod_lt _ (by decide), by rw [hbuff]; rfl, fun h0 => absurd h0 (Nat.succ_ne_zero _)⟩

theorem Carries.pass (h : Carries fileBuff w) (b : Fetched) : Carries fileBuff (w.pass b) := by
  unfold FileWriter.pass
  split
  · split
    · exact ⟨h.buff, h.headers⟩
    · have hmiss : Carries fileBuff { w with nMisses := w.nMisses + 1 } := ⟨h.buff, h.headers⟩
      dsimp only
      split
      · exact (hmiss.rollOver b.order).store b
      · exact ⟨h.buff, h.headers⟩
  · have hzero : Carries fileBuff { w with nMisses := 0 } := ⟨h.buff, h.headers⟩
    exact hzero.store b

end FileWriter

theorem FilePool.carries {cfg : Config} {u : Uninit} {fileBuff : FileBuff} {data : Nat → Nat → UInt8}
    {dataLen : Nat → Nat} {tr : List (Label UdpBuffer)} {s : FilePool.State}
    (hr : Lts.Run (FilePool.Step cfg u) (FilePool.init fileBuff data dataLen) tr s)
    (hlt : fileBuff.packetStart < 2 ^ 64) : s.consumer.fileWriter.Carries fileBuff := by
  refine hr.invariant (I := fun _ s => s.consumer.fileWriter.Carries fileBuff) (FileWriter.carries_start hlt) ?_
  rintro tr ⟨p, k, wk, wr⟩ l s' - ih hs
  cases hs with
  | interrupt | producer => exact ih
  | consumer ht =>
    rcases ht.fileWriter_cases with hsame | ⟨f, b, rfl, hpass⟩
    · exact hsame ▸ ih
    · exact hpass ▸ FileWriter.Carries.pass ih b

/-! ### The antenna table in a header -/

theorem length_updateAntenna (antNumbers : List Nat) (currAnt maxAnts : Nat) :
    (updateAntenna antNumbers currAnt maxAnts).2.length = antNumbers.length := by
  fun_induction updateAntenna antNumbers currAnt maxAnts with
  | case1 | case2 | case4 => rfl
  | case3 _ _ _ _ _ _ _ _ heq ih => simpa [heq] using ih

theorem length_registerAntennas (cfg : Config) (antNumbers : List Nat) (packets : List Packet) :
    (registerAntennas cfg antNumbers packets).length = antNumbers.length := by
  induction packets generalizing antNumbers with
  | nil => rfl
  | cons p packets ih => exact (ih _).trans (length_updateAntenna ..)

theorem Table.lt {antNumbers : List Nat} (h : Table antNumbers) : ∀ a ∈ antNumbers, a < 2 ^ 32 := by
  obtain ⟨ants, n, rfl, -, hants⟩ := h
  intro a ha
  rcases List.mem_append.mp ha with ha | ha
  · exact (hants a ha).trans (by decide)
  · rw [List.eq_of_mem_replicate ha]
    decide

namespace Recorder
open FilePool Recording

variable {cfg : Config} {u : Uninit} {fileBuff : FileBuff} {networkData : Nat → Nat → UInt8}
  {networkLen fileLen : Nat → Nat} {tr : List Event} {s : State} {f : File} {first : List Packet}

theorem length_antNumbersOf (cfg : Config) (first : List Packet) : (antNumbersOf cfg first).length = maxNoAnts :=
  (length_registerAntennas ..).trans List.length_replicate

theorem length_take_antNumbersOf (cfg : Config) (first : List Packet) :
    ((antNumbersOf cfg first).take cfg.nAnts).length = cfg.nAnts := by
  have hle : cfg.nAnts ≤ maxNoAnts := cfg.nAnts_pos.2.1
  rw [List.length_take, length_antNumbersOf, Nat.min_eq_left hle]

/-- The structure after the first packets, with any packet start, is one that the converter reads back. -/
def setRecording (h : SetByMain cfg fileBuff) (first : List Packet) (packetStart : Nat) (hlt : packetStart < 2 ^ 64) :
    VoltRec.Recording where
  fileBuff := FileWriter.startingAt (setFirst cfg first fileBuff) packetStart
  admitted := by
    simp only [FileWriter.startingAt, setFirst, h.nAnts, h.nchans]
    exact cfg.admitted
  antNumbers_length := by
    have hants := length_antNumbersOf cfg first
    have hle : cfg.nAnts ≤ maxNoAnts := cfg.nAnts_pos.2.1
    simp only [FileWriter.startingAt, setFirst, List.length_append, List.length_take, List.length_drop, hants,
      h.antNumbers_length]
    omega
  antNumbers_lt := by
    intro a ha
    rcases List.mem_append.mp ha with ha | ha
    · exact (table_registerAntennas cfg (table_replicate _) first).lt a (List.mem_of_mem_take ha)
    · exact h.antNumbers_lt a (List.mem_of_mem_drop ha)
  firstChan_lt := h.firstChan ▸ cfg.firstChan_lt
  packetStart_lt := hlt

theorem inHeader_setRecording (h : SetByMain cfg fileBuff) (first : List Packet) {packetStart : Nat}
    (hlt : packetStart < 2 ^ 64) : (setRecording h first packetStart hlt).inHeader =
      ⟨cfg.nAnts, (antNumbersOf cfg first).take cfg.nAnts, cfg.nchans, cfg.firstChan, packetStart⟩ := by
  have hlen := length_take_antNumbersOf cfg first
  simp only [VoltRec.Recording.inHeader, setRecording, FileWriter.startingAt, setFirst, h.nAnts, h.nchans, h.firstChan]
  rw [List.take_left' hlen]

/-- What the run with the shared structure has written is what the run with the values of the first packets has. -/
theorem run_of_file (hr : Lts.Run (SharedStep cfg u) (init u fileBuff networkData networkLen fileLen) tr s)
    (hf : f ∈ s.writer.fileWriter.files) : ∃ first, firstBatch (inputs (fileTrace tr)) = some first ∧
      Lts.Run (Step cfg u) (init u (setFirst cfg first fileBuff) networkData networkLen fileLen) tr s := by
  rcases run_of_shared hr with ⟨hbefore, hrun⟩ | ⟨-, first, hfirst, hrun⟩
  · -- No block has been handed over, so there is no file.
    have hfaithful := faithful (below (run_file (hrun fileBuff))).run
    have hsame : (s.writer.share fun _ => fileBuff) = s.writer := hbefore.fileBuff ▸ s.writer.share_fileBuff
    have hne := ((sequenced (below (run_file (hrun fileBuff))).run).files f (by rw [← hsame] at hf; exact hf)).1
    obtain ⟨bl, hbl⟩ := List.exists_mem_of_ne_nil _ hne
    obtain ⟨n, d, ⟨index, hmem⟩, -⟩ := hfaithful.files bl
      (List.mem_flatMap.mpr ⟨f, by rw [← hsame] at hf; exact hf, hbl⟩)
    exact absurd hmem (hbefore.notHanded _ _ _ _)
  · exact ⟨first, hfirst, hrun⟩

/-! ### Files -/

/-- The payloads of a file by packet time. -/
def payloadAt (cfg : Config) (f : File) (T a c : Nat) (j : Fin rxDataLen) : UInt8 :=
  (((f.blocks[T / timeIntPerBuffer]?).map Block.bytes).getD [])[cfg.offset (T % timeIntPerBuffer) a c + j]?.getD 0

theorem laidOut_payloadAt (hlen : ∀ bl ∈ f.blocks, bl.bytes.length = cfg.dataLenOut) :
    ∀ k bl, f.blocks[k]? = some bl →
      LaidOut cfg bl.bytes fun r => payloadAt cfg f (k * timeIntPerBuffer + r) := by
  intro k bl hbl
  have hbytes := hlen bl (List.mem_of_getElem? hbl)
  refine ⟨hbytes, fun r hr a ha c hc j => ?_⟩
  have hlt : cfg.offset r a c + j < bl.bytes.length := by
    rw [hbytes, cfg.offset_eq hr ha hc, cfg.dataLenOut_eq]
    exact Radix.lt_mul (cfg.cell_lt hr ha hc) j.2
  simp only [payloadAt, Radix.div_mul_add hr, Radix.mod_mul_add hr, hbl, Option.map_some, Option.getD_some,
    List.getElem?_eq_getElem hlt]

/-- A block of a recording in the outputs of the converter: byte `b` of sample `i` of packet time `r` and channel
    packet `c` is that of the last datagram that belongs there of those fetched while the block was local. -/
def ConvertedBlock (cfg : Config) (first : List Packet) (tr : List (Label UdpBuffer)) (out : Nat → List UInt8)
    (k : Nat) (bl : Block) : Prop :=
  ∃ pre index n d post, tr = pre ++ .call (.returnBufferData .producer index bl.order n d) :: post ∧
    ∀ r < timeIntPerBuffer, ∀ a < cfg.nAnts, ∀ c < cfg.nchans, ∀ (i : Fin samplesPerPacket)
      (b : Fin (chansPerPacket * polsPerPacket)),
      (out a)[outPlace cfg.nchans (k * timeIntPerBuffer + r) i c b]? =
        some (cellByte cfg (antNumbersOf cfg first) (blockNo (pktStart first) bl.order)
          ((buffersSince bl.order pre).flatMap UdpBuffer.packets) r a c (sampleByte i b))

theorem convertedBlock_of_recorded {fileTr : List (Label UdpBuffer)} {out : Nat → List UInt8} {k : Nat} {bl : Block}
    (hbl : f.blocks[k]? = some bl) (hrec : Recorded cfg fileTr bl) (hfirst : firstBatch (inputs fileTr) = some first)
    (hout : ∀ a < cfg.nAnts,
      Transposed cfg (f.blocks.length * timeIntPerBuffer) (payloadAt cfg f) a (out a)) :
    ConvertedBlock cfg first fileTr out k bl := by
  obtain ⟨pre, index, n, d, post, first', htr, hfirst', hcells⟩ := hrec
  obtain rfl : first' = first := Option.some.inj (hfirst'.symm.trans hfirst)
  refine ⟨pre, index, n, d, post, htr, fun r hr a ha c hc i b => ?_⟩
  have hk : k < f.blocks.length := (List.getElem?_eq_some_iff.mp hbl).1
  rw [(hout a ha).cells _ (Radix.lt_mul hk hr) i c hc b]
  simp only [payloadAt, Radix.div_mul_add hr, Radix.mod_mul_add hr, hbl, Option.map_some, Option.getD_some,
    cfg.offset_eq hr ha hc, Config.cell]
  rw [hcells.cells r a c hr ha hc (sampleByte i b), Option.getD_some]

/-- The outputs of the converter: each antenna has one of the length of the file's frames, and every block is exact in
    them. -/
def ConvertedOutputs (cfg : Config) (first : List Packet) (tr : List (Label UdpBuffer)) (f : File)
    (outputs : Nat → Option (List UInt8)) : Prop :=
  ∃ out : Nat → List UInt8, (∀ a < cfg.nAnts, outputs a = some (out a) ∧
      (out a).length = rxDataLen * cfg.nchans * (f.blocks.length * timeIntPerBuffer)) ∧
    ∀ k bl, f.blocks[k]? = some bl → ConvertedBlock cfg first tr out k bl

/-- The converter reads the header of a recording, with the antennas of the first packets. Where it can create the
    outputs, it ends with all of them converted; where it cannot, it ends before the frame loop. -/
def ConvertedFile (cfg : Config) (tr : List (Label UdpBuffer)) (f : File) (refused : OutName → Bool)
    (datain : Nat → UInt8) (dataout : Nat → Nat → UInt8) : Prop :=
  ∃ first packetStart, firstBatch (inputs tr) = some first ∧
    readHeader (f.header.bytes ++ f.body) = .ok
      (⟨cfg.nAnts, (antNumbersOf cfg first).take cfg.nAnts, cfg.nchans, cfg.firstChan, packetStart⟩, f.body) ∧
    (f.consecFile = 0 → packetStart = pktStart first) ∧
    (Creatable refused ((antNumbersOf cfg first).take cfg.nAnts) →
      ∃ c, ConvertedOutputs cfg first tr f c.out ∧ ∀ n, f.blocks.length * timeIntPerBuffer < n →
        converterMain .fourBits refused none (f.header.bytes ++ f.body) datain dataout n = .error (.done c)) ∧
    (¬Creatable refused ((antNumbersOf cfg first).take cfg.nAnts) →
      ∃ out, ∀ n,
        converterMain .fourBits refused none (f.header.bytes ++ f.body) datain dataout n = .error (.openFailed out))

/-- From `recvfrom` to the converted files, whatever the order of the steps of the three threads: every file of the
    recording is converted exactly, and what the worker has fetched is what has arrived, in order. -/
theorem converted_arrivals (hmain : SetByMain cfg fileBuff)
    (hr : Lts.Run (SharedStep cfg u) (init u fileBuff networkData networkLen fileLen) tr s) (h : Regular tr)
    (hfew : slotsGiven (fileTrace tr) < 2 ^ 31) (hA : cfg.nAnts < maxNoAnts) (hf : f ∈ s.writer.fileWriter.files)
    (refused : OutName → Bool) (datain : Nat → UInt8) (dataout : Nat → Nat → UInt8) :
    ((inputs (fileTrace tr)).flatMap UdpBuffer.packets <+: Reception.arrivals (networkTrace tr)) ∧
      ConvertedFile cfg (fileTrace tr) f refused datain dataout := by
  obtain ⟨first, hfirst, hrun⟩ := run_of_file hr hf
  have hrecorded := recorded_exact (run_file hrun) hfew
  have hmem : ∀ bl ∈ f.blocks, Recorded cfg (fileTrace tr) bl := fun bl hbl =>
    hrecorded bl (List.mem_flatMap.mpr ⟨f, hf, hbl⟩)
  have hlen : ∀ bl ∈ f.blocks, bl.bytes.length = cfg.dataLenOut := fun bl hbl => by
    obtain ⟨_, _, _, _, _, _, _, _, hcells⟩ := hmem bl hbl
    exact hcells.length
  have hstart : pktStart first < 2 ^ 64 := Nat.lt_of_le_of_lt Nat.and_le_right (by decide)
  obtain ⟨packetStart, hlt, hheader, hzero⟩ := (carries (below (run_file hrun)).run hstart).headers f hf
  have hread := readHeader_bytes (setRecording hmain first packetStart hlt) f.body
  have hants : (setRecording hmain first packetStart hlt).fileBuff.nAnts = cfg.nAnts := hmain.nAnts
  rw [if_neg (by rw [hants]; omega), inHeader_setRecording hmain first hlt] at hread
  have hfile : readHeader (f.header.bytes ++ f.body) = .ok
      (⟨cfg.nAnts, (antNumbersOf cfg first).take cfg.nAnts, cfg.nchans, cfg.firstChan, packetStart⟩, f.body) := by
    rw [hheader]
    exact hread
  refine ⟨processed_of_arrivals hrun h, first, packetStart, hfirst, hfile, hzero, ?_⟩
  rcases openOutputs_cases refused none ((antNumbersOf cfg first).take cfg.nAnts) with
    ⟨hc, o, ho, -⟩ | ⟨hc, out, ho, -⟩
  · refine ⟨fun _ => ?_, fun hnot => absurd hc hnot⟩
    obtain ⟨c, hloop, hout⟩ := frameLoop_transposed (laidOut_payloadAt hlen) hA datain dataout o.out
    choose! data hdata hadded using hout
    have houtputs : ∀ a < cfg.nAnts, c.out a = some (data a) := by
      intro a ha
      rw [hadded a ha, (openOutputs_front readable_none ho).1 a (by rwa [length_take_antNumbersOf])]
      simp
    refine ⟨c, ⟨data, fun a ha => ⟨houtputs a ha, (hdata a ha).length⟩, fun k bl hbl => ?_⟩, fun n hn => ?_⟩
    · exact convertedBlock_of_recorded hbl (hmem bl (List.mem_of_getElem? hbl)) hfirst hdata
    · exact (converterMain_ok hfile ho n).trans (hloop n hn)
  · exact ⟨fun hyes => absurd hyes hc, fun _ => ⟨out, converterMain_error hfile ho⟩⟩

/-- The structure of one antenna, as the first packets leave it. -/
def oneAntSet : FileBuff := { oneAnt with antNumbers := List.replicate maxNoAnts 0 }

theorem setByMain_oneAntSet : SetByMain singleChannel oneAntSet :=
  ⟨rfl, rfl, rfl, rfl, by decide, by decide⟩

theorem firstBatch_first {bufs : List UdpBuffer} (h : firstBatch bufs = some first) :
    first ≠ [] ∧ first <+: bufs.flatMap UdpBuffer.packets := by
  induction bufs with
  | nil => cases h
  | cons b bufs ih =>
    by_cases hb : b.packets = []
    · rw [List.flatMap_cons, hb, List.nil_append]
      exact ih (by simpa [firstBatch, hb] using h)
    · obtain rfl : b.packets = first := by simpa [firstBatch, hb] using h
      exact ⟨hb, List.prefix_append _ _⟩

theorem converted_arrivals_firstDatagram : ∃ (tr : List Event) (s : State) (f : File),
    inputs (networkTrace tr) = [.datagram firstDatagram, .error] ∧ f ∈ s.writer.fileWriter.files ∧
      ((inputs (fileTrace tr)).flatMap UdpBuffer.packets <+: Reception.arrivals (networkTrace tr)) ∧
      ConvertedFile singleChannel (fileTrace tr) f (fun _ => false) (fun _ => 0) fun _ _ => 0 := by
  obtain ⟨tr, s, hr, hinputs, hfew, horders⟩ := run_recorded oneAntSet
  obtain ⟨f, hf⟩ : ∃ f, f ∈ s.writer.fileWriter.files := by
    refine List.exists_mem_of_ne_nil _ fun hnil => ?_
    simp [FileWriter.orders, FileWriter.blocks, hnil] at horders
  have hset : ∀ first, firstBatch (inputs (fileTrace tr)) = some first →
      setFirst singleChannel first oneAntSet = oneAntSet := by
    intro first hfirst
    obtain ⟨hne, hprefix⟩ := firstBatch_first hfirst
    have harrived := hprefix.trans (processed_of_arrivals hr (regular_firstDatagram hinputs))
    rw [Reception.arrivals, hinputs, show [RecvResult.datagram firstDatagram, .error].filterMap Reception.packet? =
      [firstDatagram.packet] from rfl, packet_firstDatagram] at harrived
    obtain rfl | ⟨rest, rfl, hrest⟩ := List.prefix_cons_iff.mp harrived
    · exact absurd rfl hne
    · rw [List.prefix_nil.mp hrest]
      rfl
  exact ⟨tr, s, f, hinputs, hf, converted_arrivals setByMain_oneAntSet (shared_of_run hr hset)
    (regular_firstDatagram hinputs) hfew (by decide) hf (fun _ => false) (fun _ => 0) fun _ _ => 0⟩

end Recorder

end VoltRec
