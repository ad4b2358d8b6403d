import VoltRec.Reception
import VoltRec.Recording

/-! The recorder of `full_custom/recorder.c`: the receiver, the worker and the file writer with the network pool
    between the first two, the file pool between the last two, and one flag `keep_going` for all. Each thread is
    as on its own pools; here the worker has one place in `worker_work` for both of its pools. -/

namespace VoltRec.Recorder
open FilePool Recording

/-! ### `worker_work` on both pools -/

/-- Where the worker stands on the network pool and on the file pool. -/
structure WorkerOnBoth where
  emptier : Reception.EmptierAt
  writing : WritingAt

/-- The worker is through with the packets of its buffer, or the buffer had none. -/
def packetsDone : List Instr → Bool
  | [] => true
  | .startFlush :: _ => true
  | _ => false

/-- Where the worker stands on the network pool while it takes a turn on the file pool or by itself: it reads
    packets out of its buffer, and has given the buffer back before it looks for blocks to hand over. -/
def beside : WorkerAt → Reception.EmptierAt → Bool
  | .fetching _, .test => true
  | .running _ (.scan _ :: _), .reading _ => true
  | .running _ (.packet _ :: _), .reading _ => true
  | .running _ (.scan _ :: _), _ => false
  | .running _ (.packet _ :: _), _ => false
  | .running _ (_ :: _), .test => true
  | .returning _ _ _, .test => true
  | .swapping _ _ _, .test => true
  | .closing _ _, .returned => true
  | _, _ => false

/-- A turn of the worker, with what it shows on the network pool and on the file pool. -/
inductive WorkerTurn (cfg : Config) (u : Uninit) :
    Bool → WorkerOnBoth → Option (Label RecvResult) → Option (Label UdpBuffer) → WorkerOnBoth → Prop
  /-- A byte of the `memset` or `memcpy` under way. -/
  | write {k : Bool} {e : Reception.EmptierAt} {pos : WorkerAt} {b : ByteWrite} {pending : List ByteWrite} :
      WorkerTurn cfg u k ⟨e, ⟨pos, b :: pending⟩⟩ none (some (.call (.write .producer b.index b.x b.v)))
        ⟨e, ⟨pos, pending⟩⟩
  | own {k : Bool} {e : Reception.EmptierAt} {pos pos' : WorkerAt} {l : Label UdpBuffer}
      (h : FilePool.WorkerTurn cfg u k pos l k pos') (hw : l.isWrite = false) (he : beside pos e = true) :
      WorkerTurn cfg u k ⟨e, ⟨pos, []⟩⟩ none (some l) ⟨e, ⟨pos', writesAfter cfg pos l⟩⟩
  | goOn {w : Worker} :
      WorkerTurn cfg u true ⟨.test, ⟨.running w [], []⟩⟩ (some .silent) (some .silent) ⟨.waiting, ⟨.waiting w, []⟩⟩
  | leave {w : Worker} :
      WorkerTurn cfg u false ⟨.test, ⟨.running w [], []⟩⟩ (some .silent) (some .silent)
        ⟨.returned, ⟨.closing w 0, []⟩⟩
  | fetchBufferWait {k : Bool} {w : Worker} :
      WorkerTurn cfg u k ⟨.waiting, ⟨.waiting w, []⟩⟩ (some (.call (.fetchBufferWait .consumer))) none
        ⟨.taking, ⟨.waiting w, []⟩⟩
  | waitOn {w : Worker} :
      WorkerTurn cfg u true ⟨.waiting, ⟨.waiting w, []⟩⟩ (some (.call (.fetchBufferShut .consumer))) none
        ⟨.waiting, ⟨.waiting w, []⟩⟩
  /-- `fetchBuffer` returns -1. -/
  | shut {w : Worker} :
      WorkerTurn cfg u false ⟨.waiting, ⟨.waiting w, []⟩⟩ (some (.call (.fetchBufferShut .consumer))) (some .silent)
        ⟨.test, ⟨.running w [], []⟩⟩
  | takeNone {k : Bool} {w : Worker} :
      WorkerTurn cfg u k ⟨.taking, ⟨.waiting w, []⟩⟩ (some (.call (.takeNone .consumer))) (some .silent)
        ⟨.test, ⟨.running w [], []⟩⟩
  | fetchBufferTake {k : Bool} {w : Worker} {index : Nat} {order : Int} (b : UdpBuffer) :
      WorkerTurn cfg u k ⟨.taking, ⟨.waiting w, []⟩⟩
        (some (.call (.fetchBufferTake .consumer index order b.dataLen b.data))) (some (.input b))
        ⟨.reading index, ⟨.running w (iteration b.packets), []⟩⟩
  | returnEmptyBuffer {k : Bool} {w : Worker} {rest : List Instr} {index : Nat} (h : packetsDone rest = true) :
      WorkerTurn cfg u k ⟨.reading index, ⟨.running w rest, []⟩⟩ (some (.call (.returnEmptyBuffer .consumer index)))
        none ⟨.test, ⟨.running w rest, []⟩⟩
  | integrity {k : Bool} {w : Worker} {rest : List Instr} {index : Nat} (h : packetsDone rest = true) :
      WorkerTurn cfg u k ⟨.reading index, ⟨.running w rest, []⟩⟩ (some (.call (.dataIntegrity .consumer index))) none
        ⟨.reading index, ⟨.running w rest, []⟩⟩

/-! ### All three threads -/

structure State where
  network : Pool Side
  file : Pool Side
  keepGoing : Bool
  receiver : Reception.RecvThread
  worker : WorkerOnBoth
  writer : WriterAt

/-- What a step shows, on the network pool and on the file pool. -/
inductive Event
  /-- The receiver, with `keep_going` after its step. -/
  | receiver (l : Label RecvResult) (keepGoing : Bool)
  | worker (network : Option (Label RecvResult)) (file : Option (Label UdpBuffer))
  | writer (l : Label UdpBuffer)
  /-- The signal handler sets `keep_going` to 0. -/
  | interrupt

/-- A step that does not show leaves the pool alone. -/
def onPool {ε : Type} : Option (Label ε) → Pool Side → Pool Side → Prop
  | some l, p, p' => l.OnPool p p'
  | none, p, p' => p' = p

inductive Step (cfg : Config) (u : Uninit) : State → Event → State → Prop
  | receiver {s : State} {l : Label RecvResult} {keepGoing : Bool} {t : Reception.RecvThread} {network : Pool Side}
      (h : Reception.RecvTurn s.keepGoing s.receiver l keepGoing t) (hp : l.OnPool s.network network) :
      Step cfg u s (.receiver l keepGoing) { s with network := network, keepGoing := keepGoing, receiver := t }
  | worker {s : State} {n : Option (Label RecvResult)} {f : Option (Label UdpBuffer)} {w : WorkerOnBoth}
      {network file : Pool Side} (h : WorkerTurn cfg u s.keepGoing s.worker n f w) (hn : onPool n s.network network)
      (hf : onPool f s.file file) :
      Step cfg u s (.worker n f) { s with network := network, file := file, worker := w }
  | writer {s : State} {l : Label UdpBuffer} {c : WriterAt} {file : Pool Side}
      (h : WriterTurn s.keepGoing s.writer l s.keepGoing c) (hp : l.OnPool s.file file) :
      Step cfg u s (.writer l) { s with file := file, writer := c }
  | interrupt {s : State} : Step cfg u s .interrupt { s with keepGoing := false }

/-- Both pools are fresh; `networkData` and `networkLen` are what the network pool happens to hold. -/
def init (u : Uninit) (fileBuff : FileBuff) (networkData : Nat → Nat → UInt8) (networkLen fileLen : Nat → Nat) :
    State where
  network := .init nUdpBuffers networkData networkLen
  file := .init nFileBuffers u.data fileLen
  keepGoing := true
  receiver := { order := 1, pos := .test }
  worker := ⟨.test, ⟨.fetching [], []⟩⟩
  writer := .test (.start fileBuff)

/-! ### The two pools by themselves -/

/-- What the network pool sees of a step. -/
def Event.network : Event → Option (Label RecvResult)
  | .receiver l _ => some l
  | .worker n _ => n
  | .writer _ => none
  | .interrupt => some .interrupt

/-- What the file pool sees of a step; that the receiver stops all threads is an interrupt there. -/
def Event.file : Event → Option (Label UdpBuffer)
  | .receiver _ keepGoing => if keepGoing then none else some .interrupt
  | .worker _ f => f
  | .writer l => some l
  | .interrupt => some .interrupt

def networkTrace (tr : List Event) : List (Label RecvResult) := tr.filterMap Event.network
def fileTrace (tr : List Event) : List (Label UdpBuffer) := tr.filterMap Event.file

def State.reception (s : State) : Reception.State where
  pool := s.network
  keepGoing := s.keepGoing
  producer := s.receiver
  consumer := s.worker.emptier

def State.recording (s : State) : Recording.State where
  pool := s.file
  keepGoing := s.keepGoing
  producer := s.worker.writing
  consumer := s.writer

end VoltRec.Recorder
