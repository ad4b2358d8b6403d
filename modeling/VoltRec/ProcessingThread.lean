import VoltRec.Common
import VoltRec.Lib.Memory
import Mathlib.Data.List.FinRange

/-! `worker_work` of `full_custom/processing_thread.c`: it sorts the packets of the network pool into six
    local blocks and hands blocks over to the file pool.

    The thread is a machine that executes a list of instructions, one for each pass of one of its loops
    and one for each statement between the loops; `program` lists them for a sequence of network buffers.
    What the other threads decide is input: the buffers, and the slot that each `fetchEmptyBuffer` on the
    file pool answers with in the end (`slots k` for block `k`). -/

namespace VoltRec

/-! ### Packets -/

structure Packet where
  header : Nat
  payload : Fin rxDataLen → UInt8

/-- A buffer that `fetchBuffer` hands out; the pool allocates `udpBufferSize` bytes for it. -/
structure UdpBuffer where
  data : Nat → UInt8
  dataLen : Nat
  fits : dataLen ≤ udpBufferSize

namespace UdpBuffer

def nOfPackets (b : UdpBuffer) : Nat := b.dataLen / rxMsgLen

def packet (b : UdpBuffer) (iK : Nat) : Packet where
  header := be64toh b.data (iK * rxMsgLen)
  payload := fun j => b.data (iK * rxMsgLen + rxBuffLen + j)

def packets (b : UdpBuffer) : List Packet := (List.range b.nOfPackets).map b.packet

end UdpBuffer

/-! ### Configuration -/

/-- The check at the start of `worker_work`; where it fails the thread returns at once. -/
def admits (nAnts nchans : Nat) : Bool :=
  !(nAnts < 1 || nAnts > maxNoAnts || nchans < 1 || nchans > maxChannelPackets ||
    nFileBuffers ≤ nFileBuffersAtATime)

/-- The fields of `fileBuffStruct` that `worker_work` reads. -/
structure Config where
  nAnts : Nat
  nchans : Nat
  firstChan : Nat
  admitted : admits nAnts nchans = true
  firstChan_lt : firstChan < 2 ^ 32

namespace Config

def packetsPerBlock (cfg : Config) : Nat := cfg.nAnts * cfg.nchans * timeIntPerBuffer % 2 ^ 32
def dataLenOut (cfg : Config) : Nat := cfg.packetsPerBlock * rxDataLen

/-- Unsigned 64-bit subtraction and division, stored into an `int`. -/
def currChanNo (cfg : Config) (header : Nat) : Int :=
  toInt ((getChanNo header + (2 ^ 64 - cfg.firstChan)) % 2 ^ 64 / chansPerPacket : Nat)

/-- The test of the packet loop, with the antenna and the channel index of an accepted packet. -/
def accepts (cfg : Config) (antNumbers : List Nat) (header : Nat) : Option (Nat × Nat) :=
  match getAntIndex antNumbers (getAntNo header) cfg.nAnts with
  | none => none
  | some currAntId =>
    if isVersionVolt header ∧ currAntId < maxNoAnts ∧ 0 ≤ cfg.currChanNo header ∧
      cfg.currChanNo header < cfg.nchans then
      some (currAntId, (cfg.currChanNo header).toNat)
    else none

/-- The place of a cell in a block, in 32-bit arithmetic. -/
def offset (cfg : Config) (currPacketRest currAntId currChanNo : Nat) : Nat :=
  (currPacketRest * cfg.nAnts * cfg.nchans + currAntId * cfg.nchans + currChanNo) * rxDataLen % 2 ^ 32

end Config

/-! ### State -/

/-- `work_local_struct`; `data` is the buffer of slot `index`. -/
structure WorkLocalStruct where
  packetNo : Nat
  index : Nat
  order : Nat
  nToFull : Int

/-- What a call of `returnBuffer` passes on: the local block as it is then, and its buffer. -/
structure Handed where
  packetNo : Nat
  index : Nat
  order : Nat
  nToFull : Int
  dataLen : Nat
  data : Nat → UInt8

/-- What the thread has done, in the order done. -/
inductive Event
  /-- One pass of the packet loop. -/
  | packet (p : Packet)
  /-- `fetchEmptyBuffer` gave slot `index`, which takes block `order`. -/
  | alloc (order index : Nat)
  /-- `returnBuffer` in the loop over full blocks. -/
  | full (b : Handed)
  /-- Most blocks are started; the block `nextOrder - 3` becomes the reference. -/
  | mostlyStarted (nextOrder : Nat)
  /-- `returnBuffer` in the loop over earlier blocks. -/
  | early (b : Handed)

/-- The fields of `fileBuffStruct` that the thread sets, and its locals; `localStruct` has
    `nFileBuffersAtATime` entries. -/
structure Worker where
  packetStart : Nat
  fileAntNumbers : List Nat
  antNumbers : List Nat
  localStruct : Fin 6 → WorkLocalStruct
  nextOrder : Nat
  nextStructPacketNo : Nat
  lastSentPacketNo : Int
  nStarted : Nat
  noMissing : Nat
  firstLoopDone : Bool
  /-- The buffers of the file pool, by slot. -/
  data : Nat → Nat → UInt8
  log : List Event

/-- What the variables hold that no statement has set yet. -/
structure Uninit where
  packetStart : Nat
  fileAntNumbers : List Nat
  packetNo : Fin 6 → Nat
  nextStructPacketNo : Nat
  lastSentPacketNo : Int
  le_lastSentPacketNo : -2 ^ 63 ≤ lastSentPacketNo
  lastSentPacketNo_lt : lastSentPacketNo < 2 ^ 63
  data : Nat → Nat → UInt8

def findStructIndex (localStruct : Fin 6 → WorkLocalStruct) (currPacketNo : Nat) :
    Option (Fin 6) :=
  (List.finRange 6).find? fun iK => (localStruct iK).packetNo == currPacketNo

/-! ### Statements -/

/-- The lowest packet number of the buffer, at the start of its block. -/
def pktStart (packets : List Packet) : Nat :=
  getPacketFilter (packets.foldl (fun pktStart p => min pktStart (getPcktNo p.header)) longMax)

def registerAntennas (cfg : Config) (antNumbers : List Nat) (packets : List Packet) : List Nat :=
  packets.foldl (fun antNumbers p => (updateAntenna antNumbers (getAntNo p.header) cfg.nAnts).2) antNumbers

namespace Worker

/-- The local blocks and the buffers once the six first calls of `fetchEmptyBuffer` are through. They all
    succeed: the pool is fresh and has more slots than that. -/
def start (cfg : Config) (slots : Nat → Nat) (u : Uninit) : Worker where
  packetStart := u.packetStart
  fileAntNumbers := u.fileAntNumbers
  antNumbers := List.replicate maxNoAnts noAntenna
  localStruct := fun iK =>
    { packetNo := u.packetNo iK, index := slots (iK + 1), order := iK + 1, nToFull := cfg.packetsPerBlock }
  nextOrder := nFileBuffersAtATime + 1
  nextStructPacketNo := u.nextStructPacketNo
  lastSentPacketNo := u.lastSentPacketNo
  nStarted := 0
  noMissing := 0
  firstLoopDone := false
  data := (List.finRange 6).foldl
    (fun data (iK : Fin 6) =>
      Function.update data (slots (iK + 1)) (Memory.fill (data (slots (iK + 1))) 0 cfg.dataLenOut 0)) u.data
  log := (List.finRange 6).map fun (iK : Fin 6) => .alloc (iK + 1) (slots (iK + 1))

/-- The block under `if (!first_loop_done)`. -/
def firstScan (cfg : Config) (w : Worker) (packets : List Packet) : Worker :=
  if w.firstLoopDone then w
  else
    { w with
      antNumbers := registerAntennas cfg w.antNumbers packets
      packetStart := pktStart packets
      localStruct := fun iK =>
        { w.localStruct iK with packetNo := pktStart packets + iK * timeIntPerBuffer }
      fileAntNumbers := (registerAntennas cfg w.antNumbers packets).take cfg.nAnts
      nextStructPacketNo := (pktStart packets + nFileBuffersAtATime * timeIntPerBuffer) &&& pcktNoMask
      firstLoopDone := true }

/-- One pass of the packet loop. -/
def packetStep (cfg : Config) (w : Worker) (p : Packet) : Worker :=
  let w := { w with log := w.log ++ [.packet p] }
  match cfg.accepts w.antNumbers p.header with
  | none => w
  | some (currAntId, currChanNo) =>
    match findStructIndex w.localStruct (getPacketFilter (getPcktNo p.header)) with
    | none => w
    | some structIndex =>
      let ls := w.localStruct structIndex
      let offset := cfg.offset (getPacketRest (getPcktNo p.header)) currAntId currChanNo
      { w with
        data := Function.update w.data ls.index (Memory.copy (w.data ls.index) offset p.payload)
        localStruct := Function.update w.localStruct structIndex { ls with nToFull := ls.nToFull - 1 } }

/-- `returnBuffer` of a local block, logged as `e`, and the new block put in its place once
    `fetchEmptyBuffer` has given a slot. -/
def handOver (cfg : Config) (slots : Nat → Nat) (w : Worker) (iK : Fin 6)
    (e : Handed → Event) : Worker :=
  let ls := w.localStruct iK
  let b : Handed :=
    { packetNo := ls.packetNo, index := ls.index, order := ls.order, nToFull := ls.nToFull,
      dataLen := cfg.dataLenOut, data := w.data ls.index }
  let index := slots w.nextOrder
  { w with
    data := Function.update w.data index (Memory.fill (w.data index) 0 cfg.dataLenOut 0)
    localStruct := Function.update w.localStruct iK
      { packetNo := w.nextStructPacketNo, index := index, order := w.nextOrder, nToFull := cfg.packetsPerBlock }
    nextOrder := w.nextOrder + 1
    nextStructPacketNo := (w.nextStructPacketNo + timeIntPerBuffer) &&& pcktNoMask
    log := w.log ++ [e b, .alloc w.nextOrder index] }

/-- One pass of the loop over full blocks. -/
def fullStep (cfg : Config) (slots : Nat → Nat) (w : Worker) (iK : Fin 6) : Worker :=
  if (w.localStruct iK).nToFull = 0 then
    { w with lastSentPacketNo := (w.localStruct iK).packetNo }.handOver cfg slots iK .full
  else if (w.localStruct iK).nToFull < cfg.packetsPerBlock then { w with nStarted := w.nStarted + 1 }
  else w

/-- "if we have most started, we mark last sent as half of the buffer size" -/
def checkStarted (w : Worker) : Worker :=
  if w.nStarted > nFileBuffersAtATime - 2 then
    { w with
      lastSentPacketNo :=
        ((w.nextStructPacketNo + (2 ^ 64 - timeIntPerBuffer * nFileBuffersAtATime / 2)) % 2 ^ 64 &&& pcktNoMask : Nat)
      log := w.log ++ [.mostlyStarted w.nextOrder] }
  else w

end Worker

/-- The test of the loop over earlier blocks. The comparisons of `packetNo` with a signed number convert
    that number to 64 bits without sign. -/
def isEarlier (lastSentPacketNo : Int) (packetNo : Nat) : Bool :=
  (lastSentPacketNo > nFileBuffersAtATime / 2 && (packetNo : Int) < lastSentPacketNo % 2 ^ 64) ||
    (lastSentPacketNo ≤ nFileBuffersAtATime / 2 && packetNo > pcktNoMask >>> 1 &&
      (packetNo : Int) < (pcktNoMask + lastSentPacketNo - nFileBuffersAtATime / 2) % 2 ^ 64)

namespace Worker

/-- One pass of the loop over earlier blocks. -/
def earlierStep (cfg : Config) (slots : Nat → Nat) (w : Worker) (iK : Fin 6) : Worker :=
  if isEarlier w.lastSentPacketNo (w.localStruct iK).packetNo then
    { w with noMissing := ((w.noMissing + (w.localStruct iK).nToFull) % 2 ^ 64).toNat }.handOver cfg slots iK .early
  else w

end Worker

/-! ### The thread -/

inductive Instr
  | scan (packets : List Packet)
  | packet (p : Packet)
  /-- `int nStarted = 0` -/
  | startFlush
  | full (iK : Fin 6)
  | checkStarted
  | earlier (iK : Fin 6)

def Worker.exec (cfg : Config) (slots : Nat → Nat) (w : Worker) : Instr → Worker
  | .scan packets => w.firstScan cfg packets
  | .packet p => w.packetStep cfg p
  | .startFlush => { w with nStarted := 0 }
  | .full iK => w.fullStep cfg slots iK
  | .checkStarted => w.checkStarted
  | .earlier iK => w.earlierStep cfg slots iK

/-- The part of an iteration that takes the packets in. -/
def takeIn (packets : List Packet) : List Instr := .scan packets :: packets.map .packet

/-- The part of an iteration up to the loop over earlier blocks. -/
def sendFull : List Instr := .startFlush :: (List.finRange 6).map .full ++ [.checkStarted]

def sendEarlier : List Instr := (List.finRange 6).map .earlier

/-- One iteration of the main loop; a buffer with no whole packet is given back at once. -/
def iteration (packets : List Packet) : List Instr :=
  if packets = [] then [] else takeIn packets ++ sendFull ++ sendEarlier

def program (bufs : List UdpBuffer) : List Instr := bufs.flatMap fun b => iteration b.packets

/-- The thread after the instructions `is`. -/
def workerAfter (cfg : Config) (slots : Nat → Nat) (u : Uninit) (is : List Instr) : Worker :=
  is.foldl (Worker.exec cfg slots) (.start cfg slots u)

/-- `worker_work` on the network buffers `bufs`. -/
def workerWork (cfg : Config) (slots : Nat → Nat) (u : Uninit) (bufs : List UdpBuffer) : Worker :=
  workerAfter cfg slots u (program bufs)

end VoltRec
