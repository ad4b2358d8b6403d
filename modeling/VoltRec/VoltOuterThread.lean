import Mathlib.Algebra.Group.Nat.Defs
import Mathlib.Tactic.Common

/-! The working blocks of `half_hashpipe/ata_volt_outer_thread.c`: `block_info` with its functions, and the
    part of `run` that moves the two working blocks over the output databuf. Block numbers come from 48-bit
    timestamps, so they are plain integers; fields of 32 bits and the header values wrap as in C. -/

namespace VoltRec.VoltOuter

/-- The databuf and the observation, fixed for the run. -/
structure Config where
  nBlock : Nat
  pktidxPerBlock : Nat
  effBlockSize : Nat
  payloadSize : Nat
  two_le_nBlock : 2 ≤ nBlock
  pktidxPerBlock_pos : 0 < pktidxPerBlock
  pktidxPerBlock_lt : pktidxPerBlock < 2 ^ 32
  effBlockSize_pos : 0 < effBlockSize
  effBlockSize_lt : effBlockSize < 2 ^ 31
  payloadSize_pos : 0 < payloadSize

/-- `eff_block_size / feng_spead_info.payload_size`. -/
def Config.pktsPerBlock (cfg : Config) : Nat := cfg.effBlockSize / cfg.payloadSize

/-- `block_info`; there is one output databuf. -/
structure BlockInfo where
  blockIdxOut : Int
  blockNum : Int
  pktidxPerBlock : Nat
  pktsPerBlock : Nat
  npacket : Nat
  ndrop : Nat

/-- What `finalize_block` puts into the header of a block. -/
structure Header where
  pktidx : Int
  npkt : Int
  ndrop : Int
  dropstat : String

/-- What the thread does with the output databuf. -/
inductive Op
  /-- `wait_for_block_free` has returned. -/
  | waitFree (blockIdx : Int)
  /-- The packet data went into the working block of number `blockNum`. -/
  | copy (blockIdx blockNum pktBlkNum : Int)
  /-- `hpguppi_input_databuf_set_filled`. -/
  | setFilled (blockIdx blockNum : Int) (header : Header)
  /-- The working blocks start over after a discontinuity. -/
  | reinit

/-- The part of the thread's locals that the block management uses; the newest operation is first. -/
structure Thread where
  wblk0 : BlockInfo
  wblk1 : BlockInfo
  ndropTotal : Nat
  nlate : Nat
  log : List Op

/-! ### The functions on `block_info` -/

def resetBlockInfoStats (bi : BlockInfo) : BlockInfo := { bi with npacket := 0, ndrop := 0 }

def initBlockInfo (bi : BlockInfo) (blockIdxOut blockNum : Int) (pktsPerBlock : Nat) : BlockInfo :=
  let bi := if blockIdxOut ≥ 0 then { bi with blockIdxOut := blockIdxOut } else bi
  let bi := { bi with blockNum := blockNum }
  let bi := if pktsPerBlock > 0 then { bi with pktsPerBlock := pktsPerBlock } else bi
  resetBlockInfoStats bi

/-- The `ndrop` that `finalize_block` leaves in the structure. -/
def finalNdrop (bi : BlockInfo) : Nat :=
  if bi.pktsPerBlock > bi.npacket then (bi.pktsPerBlock - bi.npacket) % 2 ^ 32 else bi.ndrop

/-- The arguments of `hputi8` and `hputi4` are converted to signed integers of 64 and 32 bits. -/
def header (bi : BlockInfo) : Header where
  pktidx := (bi.blockNum * bi.pktidxPerBlock).bmod (2 ^ 64)
  npkt := (bi.npacket : Int).bmod (2 ^ 32)
  ndrop := (finalNdrop bi : Int).bmod (2 ^ 32)
  dropstat := toString ((finalNdrop bi : Int).bmod (2 ^ 32)) ++ "/" ++ toString bi.pktsPerBlock

/-- `none` is `pthread_exit`. -/
def finalizeBlock (bi : BlockInfo) : Option (BlockInfo × Op) :=
  if bi.blockIdxOut < 0 then none
  else some ({ bi with ndrop := finalNdrop bi }, .setFilled bi.blockIdxOut bi.blockNum (header bi))

/-- `none` is `pthread_exit`. -/
def incrementBlock (nBlock : Nat) (bi : BlockInfo) (blockNum : Int) : Option BlockInfo :=
  if nBlock < 1 then none
  else
    let bi := { bi with blockIdxOut := (bi.blockIdxOut + 1).tmod nBlock }
    some (resetBlockInfoStats { bi with blockNum := blockNum })

/-! ### The block management of `run` -/

/-- The working blocks are locals, so before the initialisation they hold anything. -/
def start (wblk0 wblk1 : BlockInfo) : Thread where
  wblk0 := initBlockInfo wblk0 0 0 0
  wblk1 := initBlockInfo wblk1 1 1 0
  ndropTotal := 0
  nlate := 0
  log := [.waitFree 1, .waitFree 0]

/-- `Time to advance the blocks!!!` -/
def advance (cfg : Config) (t : Thread) (pktBlkNum : Int) : Option Thread := do
  let (finalized, filled) ← finalizeBlock t.wblk0
  let wblk1 ← incrementBlock cfg.nBlock t.wblk1 pktBlkNum
  some { t with
    wblk0 := t.wblk1
    wblk1 := wblk1
    ndropTotal := t.ndropTotal + finalized.ndrop
    log := .waitFree wblk1.blockIdxOut :: filled :: t.log }

/-- The re-initialisation for the block after that of the packet. -/
def reset (cfg : Config) (t : Thread) (pktBlkNum : Int) : Thread :=
  { t with
    wblk0 := initBlockInfo t.wblk0 (-1) (pktBlkNum + 0 + 1) cfg.pktsPerBlock
    wblk1 := initBlockInfo t.wblk1 (-1) (pktBlkNum + 1 + 1) cfg.pktsPerBlock
    log := .reinit :: t.log }

/-- `Manage blocks based on pkt_blk_num` -/
def manage (cfg : Config) (t : Thread) (pktBlkNum : Int) : Option Thread :=
  if pktBlkNum = t.wblk1.blockNum + 1 then advance cfg t pktBlkNum
  else if pktBlkNum < t.wblk0.blockNum - 1 ∨ pktBlkNum > t.wblk1.blockNum + 1 then some (reset cfg t pktBlkNum)
  else if pktBlkNum = t.wblk0.blockNum - 1 then some { t with nlate := t.nlate + 1 }
  else some t

/-- The update of the working block that takes the packet. -/
def countPacket (cfg : Config) (bi : BlockInfo) : BlockInfo :=
  { bi with
    pktsPerBlock := cfg.pktsPerBlock
    pktidxPerBlock := cfg.pktidxPerBlock
    npacket := (bi.npacket + 1) % 2 ^ 32 }

def copyOp (bi : BlockInfo) (pktBlkNum : Int) : Op := .copy bi.blockIdxOut bi.blockNum pktBlkNum

/-- `wblk_idx` is an `int`. -/
def copyPacket (cfg : Config) (t : Thread) (pktBlkNum : Int) : Thread :=
  let wblkIdx := (pktBlkNum - t.wblk0.blockNum).bmod (2 ^ 32)
  if wblkIdx = 0 then
    { t with wblk0 := countPacket cfg t.wblk0, log := copyOp t.wblk0 pktBlkNum :: t.log }
  else if wblkIdx = 1 then
    { t with wblk1 := countPacket cfg t.wblk1, log := copyOp t.wblk1 pktBlkNum :: t.log }
  else t

/-- The part of the packet loop about the working blocks. -/
def step (cfg : Config) (t : Thread) (pktBlkNum : Int) : Option Thread :=
  (manage cfg t pktBlkNum).map fun t => copyPacket cfg t pktBlkNum

/-- The thread after packets of these blocks. -/
def run (cfg : Config) (wblk0 wblk1 : BlockInfo) (pktBlkNums : List Int) : Option Thread :=
  pktBlkNums.foldlM (step cfg) (start wblk0 wblk1)

/-- A value of `timestamp / hclocks`; the timestamp is a SPEAD immediate of 48 bits. -/
structure PktSeqNum where
  val : Nat
  isLt : val < 2 ^ 48

def PktSeqNum.pktBlkNum (cfg : Config) (pktSeqNum : PktSeqNum) : Int := pktSeqNum.val / cfg.pktidxPerBlock

end VoltRec.VoltOuter
