import VoltRec.DataFormats
import VoltRec.Lib.Memory
import VoltRec.Lib.LittleEndian

/-! `file_writer_work` of `full_custom/file_thread.c`. The buffers that `fetchBuffer` returns are input;
    `open` and `write` are taken to succeed. -/

namespace VoltRec

/-- A buffer as `fetchBuffer` returns it; the orders it finds are positive. -/
structure Fetched where
  index : Nat
  order : Nat
  dataLen : Nat
  data : Nat → UInt8
  pos : 0 < order

/-- The fields of `fileBuffStruct` that go into a file header. -/
structure FileBuff where
  nAnts : Nat
  antNumbers : List Nat
  nchans : Nat
  firstChan : Nat
  packetStart : Nat

/-- What one `write` of the main loop puts into a file. -/
structure Block where
  order : Nat
  bytes : List UInt8

/-- A file: the number in its name, what `writeHeader` put there, and the blocks behind it. -/
structure File where
  consecFile : Nat
  header : FileBuff
  blocks : List Block

/-- `writeHeader`; of the antenna numbers only `nAnts` are written. -/
def writeHeader (structure_ : FileBuff) : FileBuff :=
  { structure_ with antNumbers := structure_.antNumbers.take structure_.nAnts }

/-- The bytes that `writeHeader` puts into the file, on a platform with little-endian integers. -/
def FileBuff.bytes (header : FileBuff) : List UInt8 :=
  LittleEndian.encode 4 header.nAnts ++ header.antNumbers.flatMap (LittleEndian.encode 4) ++
    LittleEndian.encode 4 header.nchans ++ LittleEndian.encode 4 header.firstChan ++
    LittleEndian.encode 8 header.packetStart

/-- How the thread deals with a fetched buffer, with the arguments of the call that gives it back. -/
inductive Outcome
  /-- `returnEmptyBuffer` of a buffer that is not written. -/
  | discarded (index : Nat)
  /-- `returnBuffer`. -/
  | putBack (index order dataLen : Nat)
  /-- `write`, then `returnEmptyBuffer`. -/
  | written (index : Nat)

/-- The locals of the thread, the shared structure, and what it has done; the open file is the last. -/
structure FileWriter where
  fileBuff : FileBuff
  consecFile : Nat
  nMisses : Nat
  lastOrd : Nat
  files : List File
  log : List Outcome

namespace FileWriter

def start (fileBuff : FileBuff) : FileWriter where
  fileBuff := fileBuff
  consecFile := 0
  nMisses := 0
  lastOrd := 0
  files := []
  log := []

/-- `open` of the file with the current number, and `writeHeader`. -/
def openFile (w : FileWriter) : FileWriter :=
  { w with
    files := w.files ++ [{ consecFile := w.consecFile, header := writeHeader w.fileBuff, blocks := [] }] }

/-- `write` to the open file. -/
def write (w : FileWriter) (b : Fetched) : FileWriter :=
  { w with
    files := w.files.modifyLast fun f =>
      { f with blocks := f.blocks ++ [{ order := b.order, bytes := Memory.slice b.data 0 b.dataLen }] } }

/-- The end of a pass: the first file is opened where none is, and the buffer is written. -/
def store (w : FileWriter) (b : Fetched) : FileWriter :=
  let w := if w.lastOrd = 0 then w.openFile else w
  let w := { w with lastOrd := b.order }
  let w := w.write b
  { w with log := w.log ++ [.written b.index] }

/-- The start of a new file at a gap; unsigned 64-bit arithmetic. -/
def rollOver (w : FileWriter) (order : Nat) : FileWriter :=
  { w with
    nMisses := 0
    consecFile := w.consecFile + 1
    fileBuff :=
      { w.fileBuff with
        packetStart := (order * timeIntPerBuffer + w.fileBuff.packetStart + (2 ^ 64 - 1)) % 2 ^ 64 }
    lastOrd := order - 1 }.openFile

/-- One pass of the main loop with a fetched buffer. -/
def pass (w : FileWriter) (b : Fetched) : FileWriter :=
  if w.lastOrd + 1 ≠ b.order then
    if b.order ≤ w.lastOrd then { w with log := w.log ++ [.discarded b.index] }
    else
      let w := { w with nMisses := w.nMisses + 1 }
      if w.lastOrd ≠ 0 ∧ w.nMisses > maxOrderMisses then (w.rollOver b.order).store b
      else { w with log := w.log ++ [.putBack b.index b.order b.dataLen] }
  else { w with nMisses := 0 }.store b

end FileWriter

/-- `file_writer_work` on the buffers that it fetches. -/
def fileWriterWork (fileBuff : FileBuff) (bufs : List Fetched) : FileWriter :=
  bufs.foldl FileWriter.pass (.start fileBuff)

end VoltRec
