import VoltRec.VoltOuterThread
import Mathlib.Algebra.Group.Int.Defs
import Mathlib.Logic.Function.Basic

/-! The recording window of `half_hashpipe/ata_volt_outer_thread.c`: `check_start_stop`, the update of the window at the
    first packet of a block, and the copies of the status buffer that become the headers of the output blocks. Of the
    status buffer these are the keys that decide the window and its start time; what `run` computes in floating point,
    the dwell in blocks and the start time, is an input. The thread locks the buffer for the update, for the check and
    for the copy, and other programs can set their keys whenever it does not. -/

namespace VoltRec.VoltOuter

inductive RunStates
  | idle
  | listen
  | record
deriving DecidableEq

/-- Keys of the status buffer, where `none` is a key that is not there: `STTVALID`, `PKTSTART`, `PKTSTOP`, `DAQSTATE`,
    the three keys of the start time, and those that the start time is computed from. -/
structure Status (κ τ : Type) where
  sttvalid : Option Nat
  pktstart : Option Nat
  pktstop : Option Nat
  daqstate : RunStates
  stt : Option τ
  clock : κ

variable {κ τ : Type}

def checkStartStop (startTime : κ → Nat → τ) (st : Status κ τ) (pktidx : Nat) : Status κ τ × RunStates :=
  let sttvalid := st.sttvalid.getD 0
  let pktstart := st.pktstart.getD 0
  let pktstop := st.pktstop.getD 0
  if pktstart ≤ pktidx ∧ pktidx < pktstop then
    let st := { st with daqstate := .record }
    if sttvalid ≠ 1 then
      ({ st with sttvalid := some 1, stt := some (startTime st.clock pktidx) }, .record)
    else (st, .record)
  else
    let st := { st with daqstate := .listen }
    if sttvalid ≠ 0 then ({ st with sttvalid := some 0 }, .listen) else (st, .listen)

/-- The block management with the status buffer, the status in the headers of the output blocks, and the locals of the
    window; `sent` are the blocks handed downstream with their headers, the newest first. -/
structure StatusThread (κ τ : Type) where
  thread : Thread
  status : Status κ τ
  headers : Int → Status κ τ
  startSeqNum : Nat
  statusSeqNum : Nat
  sent : List (Int × Status κ τ)

/-- The keys that other programs set. -/
structure Outside (κ : Type) where
  pktstart : Option Nat
  pktstop : Option Nat
  clock : κ

def Status.set (st : Status κ τ) (keys : Outside κ) : Status κ τ :=
  { st with pktstart := keys.pktstart, pktstop := keys.pktstop, clock := keys.clock }

/-- A packet that has passed the tests, with the dwell in blocks, and what other programs set before the thread locks
    the status buffer for the window, for the check, and for the copy behind the wait for a free block. -/
structure StatusInput (κ : Type) where
  pktSeqNum : PktSeqNum
  dwellBlocks : Nat
  beforeUpdate : List (Outside κ)
  beforeCheck : List (Outside κ)
  beforeCopy : List (Outside κ)

/-- `block_num * pktidx_per_block` as an unsigned number. -/
def firstPktidx (cfg : Config) (blockNum : Int) : Nat := (blockNum * cfg.pktidxPerBlock % 2 ^ 64).toNat

namespace StatusThread

/-- `status_seq_num` is not initialised, and the first two headers are copies of earlier states of the buffer. -/
def start (wblk0 wblk1 : BlockInfo) (status : Status κ τ) (headers : Int → Status κ τ) (statusSeqNum : Nat) :
    StatusThread κ τ where
  thread := VoltOuter.start wblk0 wblk1
  status := status
  headers := headers
  startSeqNum := 0
  statusSeqNum := statusSeqNum
  sent := []

def outside (s : StatusThread κ τ) (sets : List (Outside κ)) : StatusThread κ τ :=
  { s with status := sets.foldl Status.set s.status }

/-- `We update the status buffer at the start of each block` -/
def updateWindow (cfg : Config) (s : StatusThread κ τ) (pktSeqNum dwellBlocks : Nat) : StatusThread κ τ :=
  if pktSeqNum % cfg.pktidxPerBlock = 0 ∧ pktSeqNum ≠ s.statusSeqNum then
    let startSeqNum := s.status.pktstart.getD s.startSeqNum
    let startSeqNum := startSeqNum - startSeqNum % cfg.pktidxPerBlock
    let stopSeqNum := (startSeqNum + cfg.pktidxPerBlock * dwellBlocks) % 2 ^ 64
    { s with
      statusSeqNum := pktSeqNum
      startSeqNum := startSeqNum
      status := { s.status with pktstart := some startSeqNum, pktstop := some stopSeqNum } }
  else s

/-- The check with the first PKTIDX of `wblk[0]`. -/
def check (startTime : κ → Nat → τ) (cfg : Config) (s : StatusThread κ τ) : StatusThread κ τ :=
  { s with status := (checkStartStop startTime s.status (firstPktidx cfg s.thread.wblk0.blockNum)).1 }

/-- `wait_for_block_free` for `wblk[1]` copies the status buffer. -/
def copyStatus (s : StatusThread κ τ) : StatusThread κ τ :=
  { s with headers := Function.update s.headers s.thread.wblk1.blockIdxOut s.status }

/-- The status in `Manage blocks based on pkt_blk_num`, which makes `thread` of the working blocks. -/
def manageStatus (startTime : κ → Nat → τ) (cfg : Config) (s : StatusThread κ τ) (thread : Thread) (pktBlkNum : Int)
    (beforeCopy : List (Outside κ)) : StatusThread κ τ :=
  if pktBlkNum = s.thread.wblk1.blockNum + 1 then
    let sent := (s.thread.wblk0.blockNum, s.headers s.thread.wblk0.blockIdxOut) :: s.sent
    (({ s with thread := thread, sent := sent }.check startTime cfg).outside beforeCopy).copyStatus
  else if pktBlkNum < s.thread.wblk0.blockNum - 1 ∨ pktBlkNum > s.thread.wblk1.blockNum + 1 then
    ({ s with thread := thread }.check startTime cfg).outside beforeCopy
  else { s with thread := thread }.outside beforeCopy

/-- The thread before it manages the blocks for a packet. -/
def beforeManage (cfg : Config) (s : StatusThread κ τ) (i : StatusInput κ) : StatusThread κ τ :=
  ((s.outside i.beforeUpdate).updateWindow cfg i.pktSeqNum.val i.dwellBlocks).outside i.beforeCheck

/-- One packet. -/
def step (startTime : κ → Nat → τ) (cfg : Config) (s : StatusThread κ τ) (i : StatusInput κ) :
    Option (StatusThread κ τ) :=
  let s := s.beforeManage cfg i
  let pktBlkNum := i.pktSeqNum.pktBlkNum cfg
  (manage cfg s.thread pktBlkNum).map fun thread =>
    let s := s.manageStatus startTime cfg thread pktBlkNum i.beforeCopy
    { s with thread := copyPacket cfg s.thread pktBlkNum }

def run (startTime : κ → Nat → τ) (cfg : Config) (s : StatusThread κ τ) (inputs : List (StatusInput κ)) :
    Option (StatusThread κ τ) := inputs.foldlM (step startTime cfg) s

end StatusThread

end VoltRec.VoltOuter
