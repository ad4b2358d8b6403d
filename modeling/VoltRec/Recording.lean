import VoltRec.FilePool

/-! The two threads of the file pool with the bytes that `worker_work` of `full_custom/processing_thread.c` writes.
    A `memset` or `memcpy` writes its bytes one at a time, among the steps of the file writer, and the worker goes
    on with its loop bodies when it is through. -/

namespace VoltRec

namespace Recording
open FilePool

/-! ### What the worker writes -/

abbrev ByteWrite : Type := Memory.Write Nat UInt8

/-- `memset(localStruct[iK].data, 0, dataLenOut)` -/
def memsetWrites (cfg : Config) (index : Nat) : List ByteWrite := Memory.fillWrites index cfg.dataLenOut 0

/-- The `memcpy` of the packet loop, where the packet is accepted and its block is local. -/
def memcpyWrites (cfg : Config) (w : Worker) (p : Packet) : List ByteWrite :=
  match cfg.accepts w.antNumbers p.header with
  | none => []
  | some (currAntId, currChanNo) =>
    match findStructIndex w.localStruct (getPacketFilter (getPcktNo p.header)) with
    | none => []
    | some structIndex =>
      Memory.copyWrites (w.localStruct structIndex).index
        (cfg.offset (getPacketRest (getPcktNo p.header)) currAntId currChanNo) p.payload

/-- What the worker has to write after a turn: it clears each buffer that it gets, and stores each packet. -/
def writesAfter (cfg : Config) (pos : WorkerAt) : Label UdpBuffer → List ByteWrite
  | .call (.fetchEmptyBuffer _ index) => memsetWrites cfg index
  | .silent =>
    match pos with
    | .running w (.packet p :: _) => memcpyWrites cfg w p
    | _ => []
  | _ => []

/-! ### The threads -/

/-- Where the worker stands, and what it has still to write there. -/
structure WritingAt where
  pos : WorkerAt
  pending : List ByteWrite

inductive WorkerTurn (cfg : Config) (u : Uninit) : Turns UdpBuffer WritingAt
  | write {k : Bool} {pos : WorkerAt} {b : ByteWrite} {pending : List ByteWrite} :
      WorkerTurn cfg u k ⟨pos, b :: pending⟩ (.call (.write .producer b.index b.x b.v)) k ⟨pos, pending⟩
  | turn {k k' : Bool} {pos pos' : WorkerAt} {l : Label UdpBuffer} (h : FilePool.WorkerTurn cfg u k pos l k' pos')
      (hw : l.isWrite = false) : WorkerTurn cfg u k ⟨pos, []⟩ l k' ⟨pos', writesAfter cfg pos l⟩

abbrev State : Type := Threads WritingAt WriterAt

def init (u : Uninit) (fileBuff : FileBuff) (dataLen : Nat → Nat) : State :=
  .init nFileBuffers u.data dataLen ⟨.fetching [], []⟩ (.test (.start fileBuff))

abbrev Step (cfg : Config) (u : Uninit) : State → Label UdpBuffer → State → Prop :=
  Threads.Step (WorkerTurn cfg u) WriterTurn

/-- Without what is still to be written. -/
def filePool (s : State) : FilePool.State where
  pool := s.pool
  keepGoing := s.keepGoing
  producer := s.producer.pos
  consumer := s.consumer

end Recording

end VoltRec
