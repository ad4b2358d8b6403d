import VoltRec.MkFeng
import VoltRec.Lib.Memory

/-! The packet loop of `half_hashpipe/ata_volt_outer_thread.c` with the packets themselves: the parsing, the tests
    before the block management, and the copy of the payload into the databuf block of a working block
    (`USE_WORKER_THREADS` is not defined). Of the memory a packet is what follows its address. Payloads and the data of
    blocks start at multiples of 64 bytes. -/

namespace VoltRec.VoltOuter

def blockDataSize : Nat := 128 * 1024 * 1024

/-- `memcpy_nt` of whole units of `2 ^ sizeNt` bytes, from place `src` of the payload to place `dst`; both count from a
    multiple of the unit. Loads and stores of units at other places fault (`none`). Where the function is `memcpy`,
    `sizeNt` is 0. -/
def memcpyNt (sizeNt : Nat) (payload : Nat → UInt8) (m : Nat → UInt8) (dst src len : Nat) : Option (Nat → UInt8) :=
  if len >>> sizeNt ≠ 0 ∧ (dst % 2 ^ sizeNt ≠ 0 ∨ src % 2 ^ sizeNt ≠ 0) then none
  else some (Memory.copy m dst fun j : Fin ((len >>> sizeNt) * 2 ^ sizeNt) => payload (src + j))

/-- `while(bytes_to_copy > 0)`, with at most `fuel` passes; the difference is converted to an `int`. -/
def copyRows (sizeNt istride ostride : Nat) (payload : Nat → UInt8) :
    Nat → (Nat → UInt8) → Nat → Nat → Int → Option (Nat → UInt8)
  | 0, _, _, _, _ => none
  | fuel + 1, m, dst, src, bytesToCopy =>
    if bytesToCopy > 0 then do
      let m ← memcpyNt sizeNt payload m dst src istride
      copyRows sizeNt istride ostride payload fuel m (dst + ostride) (src + istride)
        ((bytesToCopy - istride).bmod (2 ^ 32))
    else some m

/-- Where the copy starts in the block; the sums of a pointer are those of 64 bits. -/
def dstOffset (oi : MkObsInfo) (fesi : MkFengSpeadInfo) (pktidxPerBlock istride ostride : Nat) : Nat :=
  let slotIdx : Int := (mkPktidx oi fesi % pktidxPerBlock : Int).bmod (2 ^ 32)
  let blockChan : Int := (mkBlockChan oi fesi : Int).bmod (2 ^ 32)
  ((slotIdx * istride + blockChan * ostride + fesi.heapOffset / istride * ostride : Int) % 2 ^ 64).toNat

/-- `copy_packet_data_to_databuf` on the data of the block; `none` is a division by zero, a fault of `memcpy_nt`, or a
    loop that takes more passes than the packet has bytes. -/
def copyPacketDataToDatabuf (sizeNt : Nat) (oi : MkObsInfo) (pktidxPerBlock : Nat) (data : Nat → UInt8)
    (fesi : MkFengSpeadInfo) (payload : Nat → UInt8) : Option (Nat → UInt8) := do
  let bytesToCopy : Int := (fesi.payloadSize : Int).bmod (2 ^ 32)
  let istride := 4 * oi.hntime % 2 ^ 32
  let ntime ← mkNtime blockDataSize oi
  let ostride := 4 * ntime % 2 ^ 32
  if istride = 0 ∨ pktidxPerBlock = 0 then none
  else
    copyRows sizeNt istride ostride payload (bytesToCopy.toNat + 1) data
      (dstOffset oi fesi pktidxPerBlock istride ostride) 0 bytesToCopy

/-- An observation for which a databuf block has room, with the sizes that `run` computes from it; `SIZE_NT` is part
    of the build. -/
structure Observation where
  oi : MkObsInfo
  cfg : Config
  sizeNt : Nat
  valid : mkObsInfoValid oi = true
  schan_nonneg : 0 ≤ oi.schan
  schan_lt : oi.schan < 2 ^ 31
  /-- The samples of a heap in one channel are whole units of `memcpy_nt`. -/
  aligned : 2 ^ sizeNt ∣ 4 * oi.hntime
  /-- The heaps of one time fit into a block. -/
  fits : 4 * (oi.nants * oi.nstrm * oi.hnchan) * oi.hntime ≤ blockDataSize
  pktidxPerBlock : mkPktidxPerBlock blockDataSize oi = some cfg.pktidxPerBlock
  effBlockSize : mkBlockSize blockDataSize oi = some cfg.effBlockSize
  payloadSize : cfg.payloadSize = 1024

/-- The locals of `run` that the packets go through, and the data of the output blocks by their index. -/
structure DataThread where
  thread : Thread
  fengSpeadInfo : MkFengSpeadInfo
  blocks : Int → Nat → UInt8

namespace DataThread

def start (wblk0 wblk1 : BlockInfo) (blocks : Int → Nat → UInt8) : DataThread where
  thread := VoltOuter.start wblk0 wblk1
  fengSpeadInfo := .zeroed
  blocks := blocks

/-- The call of `copy_packet_data_to_databuf` for a working block. -/
def copyTo (o : Observation) (wblk : BlockInfo) (blocks : Int → Nat → UInt8) (fesi : MkFengSpeadInfo)
    (payload : Nat → UInt8) : Option (Int → Nat → UInt8) :=
  (copyPacketDataToDatabuf o.sizeNt o.oi o.cfg.pktidxPerBlock (blocks wblk.blockIdxOut) fesi payload).map
    fun data => Function.update blocks wblk.blockIdxOut data

/-- What follows the tests of a packet: the block management, the copy, and the count. -/
def place (o : Observation) (t : DataThread) (payload : Nat → UInt8) : Option DataThread := do
  let pktBlkNum : Int := (mkPktidx o.oi t.fengSpeadInfo / o.cfg.pktidxPerBlock : Nat)
  let thread ← manage o.cfg t.thread pktBlkNum
  let wblkIdx := (pktBlkNum - thread.wblk0.blockNum).bmod (2 ^ 32)
  let blocks ←
    if wblkIdx = 0 then copyTo o thread.wblk0 t.blocks t.fengSpeadInfo payload
    else if wblkIdx = 1 then copyTo o thread.wblk1 t.blocks t.fengSpeadInfo payload
    else some t.blocks
  some { t with thread := copyPacket o.cfg thread pktBlkNum, blocks := blocks }

/-- One pass of the packet loop. -/
def step (o : Observation) (t : DataThread) (p : Nat → UInt8) : Option DataThread :=
  let t := { t with fengSpeadInfo := mkParseMkfengIbvSpeadPacket p t.fengSpeadInfo }
  if t.fengSpeadInfo.payloadSize ≠ 1024 then some t
  else if t.fengSpeadInfo.fengId ≥ o.oi.nants then some t
  else t.place o fun j => p (offsetPayload + j)

/-- The thread after some packets. -/
def run (o : Observation) (t : DataThread) (ps : List (Nat → UInt8)) : Option DataThread := ps.foldlM (step o) t

end DataThread

end VoltRec.VoltOuter
