import VoltRec.Threads
import VoltRec.ProcessingThread
import VoltRec.FileThread

/-! The two threads of the file pool: `worker_work` of `full_custom/processing_thread.c` fills its buffers, six
    at a time, and `file_writer_work` of `full_custom/file_thread.c` empties them. Both use the models of their
    loop bodies, cut at the calls on the pool. What the worker fetches from the network pool is input. -/

namespace VoltRec

/-- The local block that an instruction hands over. -/
def Worker.handsOver (w : Worker) : Instr → Option (Fin 6)
  | .full iK => if (w.localStruct iK).nToFull = 0 then some iK else none
  | .earlier iK => if isEarlier w.lastSentPacketNo (w.localStruct iK).packetNo then some iK else none
  | _ => none

namespace FilePool

/-! ### `worker_work` -/

/-- Where the worker stands. -/
inductive WorkerAt
  /-- In the loop of the first calls of `fetchEmptyBuffer`, with the slots that it has. -/
  | fetching (slots : List Nat)
  /-- A call of that loop has failed and left `index` at -1. -/
  | noSlot
  /-- With these instructions of an iteration left; none is `while(keep_going)`. -/
  | running (w : Worker) (rest : List Instr)
  /-- In `fetchBuffer` on the network pool. -/
  | waiting (w : Worker)
  /-- Inside the `returnBuffer` of instruction `i`. -/
  | returning (w : Worker) (i : Instr) (rest : List Instr)
  /-- In the loop of `fetchEmptyBuffer` behind it. -/
  | swapping (w : Worker) (i : Instr) (rest : List Instr)
  /-- In the clean-up loop. -/
  | closing (w : Worker) (iK : Nat)
  | returned

/-- The slots of the first blocks, by block. -/
def firstSlots (slots : List Nat) (k : Nat) : Nat := slots.getD (k - 1) 0

inductive WorkerTurn (cfg : Config) (u : Uninit) : Turns UdpBuffer WorkerAt
  | fetchFirst {k : Bool} {slots : List Nat} {index : Nat} (more : slots.length < nFileBuffersAtATime) :
      WorkerTurn cfg u k (.fetching slots) (.call (.fetchEmptyBuffer .producer index)) k (.fetching (slots ++ [index]))
  | noFirst {k : Bool} {slots : List Nat} (more : slots.length < nFileBuffersAtATime) :
      WorkerTurn cfg u k (.fetching slots) (.call (.noEmpty .producer)) k .noSlot
  /-- `memset`; here and below, what is written into the buffers is left open. -/
  | writeFirst {k : Bool} {slots : List Nat} {index x : Nat} {v : UInt8} (mine : index ∈ slots) :
      WorkerTurn cfg u k (.fetching slots) (.call (.write .producer index x v)) k (.fetching slots)
  | start {k : Bool} {slots : List Nat} (all : slots.length = nFileBuffersAtATime) :
      WorkerTurn cfg u k (.fetching slots) .silent k (.running (.start cfg (firstSlots slots) u) [])
  | goOn {w : Worker} : WorkerTurn cfg u true (.running w []) .silent true (.waiting w)
  | leave {w : Worker} : WorkerTurn cfg u false (.running w []) .silent false (.closing w 0)
  /-- `fetchBuffer` fails. -/
  | noBuffer {k : Bool} {w : Worker} : WorkerTurn cfg u k (.waiting w) .silent k (.running w [])
  | buffer {k : Bool} {w : Worker} {b : UdpBuffer} :
      WorkerTurn cfg u k (.waiting w) (.input b) k (.running w (iteration b.packets))
  /-- An instruction that hands no block over asks for no slot. -/
  | instr {k : Bool} {w : Worker} {i : Instr} {rest : List Instr} (h : w.handsOver i = none) (slots : Nat → Nat) :
      WorkerTurn cfg u k (.running w (i :: rest)) .silent k (.running (w.exec cfg slots i) rest)
  /-- `memcpy` of a packet, or `memset`. -/
  | write {k : Bool} {w : Worker} {rest : List Instr} {iK : Fin 6} {x : Nat} {v : UInt8} :
      WorkerTurn cfg u k (.running w rest) (.call (.write .producer (w.localStruct iK).index x v)) k (.running w rest)
  | returnBuffer {k : Bool} {w : Worker} {i : Instr} {rest : List Instr} {iK : Fin 6} {data : Nat → UInt8}
      (h : w.handsOver i = some iK) :
      WorkerTurn cfg u k (.running w (i :: rest))
        (.call (.returnBufferData .producer (w.localStruct iK).index (w.localStruct iK).order cfg.dataLenOut data)) k
        (.returning w i rest)
  | integrity {k : Bool} {w : Worker} {i : Instr} {rest : List Instr} {iK : Fin 6} (h : w.handsOver i = some iK) :
      WorkerTurn cfg u k (.running w (i :: rest)) (.call (.dataIntegrity .producer (w.localStruct iK).index)) k
        (.running w (i :: rest))
  | ready {k : Bool} {w : Worker} {i : Instr} {rest : List Instr} :
      WorkerTurn cfg u k (.returning w i rest) (.call (.returnBufferReady .producer)) k (.swapping w i rest)
  | fetchNext {k : Bool} {w : Worker} {i : Instr} {rest : List Instr} {index : Nat} :
      WorkerTurn cfg u k (.swapping w i rest) (.call (.fetchEmptyBuffer .producer index)) k
        (.running (w.exec cfg (fun _ => index) i) rest)
  | noNext {k : Bool} {w : Worker} {i : Instr} {rest : List Instr} :
      WorkerTurn cfg u k (.swapping w i rest) (.call (.noEmpty .producer)) k (.swapping w i rest)
  | returnEmptyBuffer {k : Bool} {w : Worker} {iK : Fin 6} :
      WorkerTurn cfg u k (.closing w iK) (.call (.returnEmptyBuffer .producer (w.localStruct iK).index)) k
        (.closing w (iK + 1))
  | closingIntegrity {k : Bool} {w : Worker} {iK : Fin 6} :
      WorkerTurn cfg u k (.closing w iK) (.call (.dataIntegrity .producer (w.localStruct iK).index)) k (.closing w iK)
  | closed {k : Bool} {w : Worker} : WorkerTurn cfg u k (.closing w nFileBuffersAtATime) .silent k .returned

/-! ### `file_writer_work` -/

/-- Where the file writer stands. -/
inductive WriterAt
  /-- `while (keep_going || anyBufFull(..))` -/
  | test (f : FileWriter)
  | testFull (f : FileWriter)
  | waiting (f : FileWriter)
  | taking (f : FileWriter)
  /-- With a buffer, before it gives it back. -/
  | holding (f : FileWriter) (b : Fetched)
  /-- Inside the `returnBuffer` that puts it back. -/
  | returning (f : FileWriter)
  | returned (f : FileWriter)

inductive WriterTurn : Turns UdpBuffer WriterAt
  | goOn {f : FileWriter} : WriterTurn true (.test f) .silent true (.waiting f)
  | stopped {f : FileWriter} : WriterTurn false (.test f) .silent false (.testFull f)
  | anyFull {k : Bool} {f : FileWriter} {n : Nat} (h : n ≠ 0) :
      WriterTurn k (.testFull f) (.call (.anyBufFull .consumer n)) k (.waiting f)
  | leave {k : Bool} {f : FileWriter} : WriterTurn k (.testFull f) (.call (.anyBufFull .consumer 0)) k (.returned f)
  | fetchBufferWait {k : Bool} {f : FileWriter} :
      WriterTurn k (.waiting f) (.call (.fetchBufferWait .consumer)) k (.taking f)
  | waitOn {f : FileWriter} : WriterTurn true (.waiting f) (.call (.fetchBufferShut .consumer)) true (.waiting f)
  | shut {f : FileWriter} : WriterTurn false (.waiting f) (.call (.fetchBufferShut .consumer)) false (.test f)
  | fetchBufferTake {k : Bool} {f : FileWriter} (b : Fetched) :
      WriterTurn k (.taking f) (.call (.fetchBufferTake .consumer b.index b.order b.dataLen b.data)) k (.holding f b)
  | takeNone {k : Bool} {f : FileWriter} : WriterTurn k (.taking f) (.call (.takeNone .consumer)) k (.test f)
  /-- The buffer is written, or discarded because it comes too late. -/
  | returnEmptyBuffer {k : Bool} {f : FileWriter} {b : Fetched} {o : Outcome} (h : (f.pass b).log.getLast? = some o)
      (ho : o = .written b.index ∨ o = .discarded b.index) :
      WriterTurn k (.holding f b) (.call (.returnEmptyBuffer .consumer b.index)) k (.test (f.pass b))
  | returnBuffer {k : Bool} {f : FileWriter} {b : Fetched} {data : Nat → UInt8}
      (h : (f.pass b).log.getLast? = some (.putBack b.index b.order b.dataLen)) :
      WriterTurn k (.holding f b) (.call (.returnBufferData .consumer b.index b.order b.dataLen data)) k
        (.returning (f.pass b))
  | integrity {k : Bool} {f : FileWriter} {b : Fetched} :
      WriterTurn k (.holding f b) (.call (.dataIntegrity .consumer b.index)) k (.holding f b)
  | ready {k : Bool} {f : FileWriter} :
      WriterTurn k (.returning f) (.call (.returnBufferReady .consumer)) k (.test f)

/-! ### Both -/

abbrev State : Type := Threads WorkerAt WriterAt

def init (fileBuff : FileBuff) (data : Nat → Nat → UInt8) (dataLen : Nat → Nat) : State :=
  .init nFileBuffers data dataLen (.fetching []) (.test (.start fileBuff))

abbrev Step (cfg : Config) (u : Uninit) : State → Label UdpBuffer → State → Prop :=
  Threads.Step (WorkerTurn cfg u) WriterTurn

end FilePool
end VoltRec
