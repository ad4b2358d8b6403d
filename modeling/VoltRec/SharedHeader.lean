import VoltRec.Recorder

/-! `fileBuffStruct` of `full_custom/data_formats.h` as the threads share it. `main` of `full_custom/recorder.c` sets
    the counts and the first channel, the worker sets the antenna numbers and the packet start at its first packets,
    and the file writer, which is started before the worker, copies all of it into the headers of its files. -/

namespace VoltRec

/-- What the worker writes into the structure; the entries behind the first `nAnts` stay as they are. -/
def Worker.fillIn (cfg : Config) (w : Worker) (fileBuff : FileBuff) : FileBuff :=
  { fileBuff with
    packetStart := w.packetStart
    antNumbers := w.fileAntNumbers ++ fileBuff.antNumbers.drop cfg.nAnts }

/-- The file writer after another thread has written to the structure. -/
def FilePool.WriterAt.share (g : FileBuff → FileBuff) : FilePool.WriterAt → FilePool.WriterAt
  | .test f => .test { f with fileBuff := g f.fileBuff }
  | .testFull f => .testFull { f with fileBuff := g f.fileBuff }
  | .waiting f => .waiting { f with fileBuff := g f.fileBuff }
  | .taking f => .taking { f with fileBuff := g f.fileBuff }
  | .holding f b => .holding { f with fileBuff := g f.fileBuff } b
  | .returning f => .returning { f with fileBuff := g f.fileBuff }
  | .returned f => .returned { f with fileBuff := g f.fileBuff }

namespace Recorder
open FilePool

/-- The structure after `main` has dealt with its arguments; it leaves the antennas and the packet start open. -/
structure SetByMain (cfg : Config) (fileBuff : FileBuff) : Prop where
  nAnts : fileBuff.nAnts = cfg.nAnts
  nchans : fileBuff.nchans = cfg.nchans
  firstChan : fileBuff.firstChan = cfg.firstChan
  antNumbers_length : fileBuff.antNumbers.length = maxNoAnts
  antNumbers_lt : ∀ a ∈ fileBuff.antNumbers, a < 2 ^ 32
  packetStart_lt : fileBuff.packetStart < 2 ^ 64

/-- What a step does to the structure: the worker writes to it under `if (!first_loop_done)`, in the step for its
    first packets. -/
def sharing (cfg : Config) (s : State) : Event → FileBuff → FileBuff
  | .worker _ (some .silent) =>
    match s.worker.writing.pos with
    | .running w (.scan packets :: _) => if w.firstLoopDone then id else (w.firstScan cfg packets).fillIn cfg
    | _ => id
  | _ => id

/-- A step of the three threads, with the structure shared. -/
def SharedStep (cfg : Config) (u : Uninit) (s : State) (ev : Event) (s' : State) : Prop :=
  ∃ t, Step cfg u s ev t ∧ s' = { t with writer := t.writer.share (sharing cfg s ev) }

end Recorder

end VoltRec
