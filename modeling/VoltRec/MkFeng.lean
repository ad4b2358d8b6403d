import VoltRec.AtaObsInfo
import VoltRec.VoltOuterThread

/-! `half_hashpipe/hpguppi_mkfeng.h`: the SPEAD header of an F-engine packet, and the sizes and places that follow from
    the observation. The packet loop of `half_hashpipe/ata_volt_outer_thread.c` uses them as the functions of an
    `mk_obs_info`. -/

namespace VoltRec.VoltOuter

/-! ### SPEAD headers -/

def speadImmMask : Nat := 0x0000ffffffffffff

/-- The ids as a little-endian platform reads them. -/
def speadIdImmHeapOffset : Nat := 0x0380
def speadIdImmPayloadSize : Nat := 0x0480
def speadIdImmTimestamp : Nat := 0x0096
def speadIdImmFengId : Nat := 0x01c1
def speadIdImmFengChan : Nat := 0x03c1

structure MkFengSpeadInfo where
  heapOffset : Nat
  payloadSize : Nat
  timestamp : Nat
  fengId : Nat
  fengChan : Nat
deriving DecidableEq

def MkFengSpeadInfo.zeroed : MkFengSpeadInfo := ⟨0, 0, 0, 0, 0⟩

def speadImmValue (item : Nat) : Nat := item &&& speadImmMask

/-- The offset of `spdhdr` in `mk_ibv_spead_pkt`, behind the link, IP and UDP headers and `pad0`. -/
def offsetSpdhdr : Nat := 14 + 20 + 8 + 22

/-- The offset of `payload`, behind the twelve words of `spdhdr` and `pad1`. -/
def offsetPayload : Nat := offsetSpdhdr + 12 * 8 + 32

/-- A 16-bit number in the order of a little-endian platform, and in network order. -/
def uint16At (m : Nat → UInt8) (off : Nat) : Nat := (m off).toNat + 256 * (m (off + 1)).toNat
def ntohsAt (m : Nat → UInt8) (off : Nat) : Nat := 256 * (m off).toNat + (m (off + 1)).toNat

/-- One pass of the item loop, for the item of the word at `off`. -/
def parseItem (p : Nat → UInt8) (fesi : MkFengSpeadInfo) (off : Nat) : MkFengSpeadInfo :=
  let value := speadImmValue (be64toh p off)
  let id := uint16At p off
  if id = speadIdImmHeapOffset then { fesi with heapOffset := value }
  else if id = speadIdImmPayloadSize then { fesi with payloadSize := value }
  else if id = speadIdImmTimestamp then { fesi with timestamp := value }
  else if id = speadIdImmFengId then { fesi with fengId := value }
  else if id = speadIdImmFengChan then { fesi with fengChan := value }
  else fesi

/-- The number of items, from the last two bytes of the first word. -/
def nitems (p : Nat → UInt8) : Nat := ntohsAt p (offsetSpdhdr + 6)

/-- `mk_parse_mkfeng_ibv_spead_packet` of the packet that starts at `p`. The fields that it has no item for stay as
    they are; the payload starts at `offsetPayload`. -/
def mkParseMkfengIbvSpeadPacket (p : Nat → UInt8) (fesi : MkFengSpeadInfo) : MkFengSpeadInfo :=
  (List.range (nitems p)).foldl (fun fesi i => parseItem p fesi (offsetSpdhdr + 8 * (i + 1))) fesi

/-! ### Sizes and places -/

/-- The fields but for `schan` have no sign, and all but `hclocks` have 32 bits. -/
structure MkObsInfo where
  fenchan : Nat
  nants : Nat
  nstrm : Nat
  hntime : Nat
  hnchan : Nat
  hclocks : Nat
  schan : Int
deriving DecidableEq

def mkObsInfoInvalidSchan : Int := -1

def mkObsInfoValid (oi : MkObsInfo) : Bool :=
  oi.fenchan != 0 && oi.nants != 0 && oi.nstrm != 0 && oi.hntime != 0 && oi.hnchan != 0 && oi.hclocks != 0 &&
    oi.schan != mkObsInfoInvalidSchan

/-- The division is by the clocks of a valid observation. -/
def calcMkPktidx (timestamp hclocks : Nat) : Nat := timestamp / hclocks

def mkPktidx (oi : MkObsInfo) (fesi : MkFengSpeadInfo) : Nat := calcMkPktidx fesi.timestamp oi.hclocks

def calcMkObsnchan (nants nstrm hnchan : Nat) : Nat := nants * nstrm * hnchan % 2 ^ 32

def mkObsnchan (oi : MkObsInfo) : Nat := calcMkObsnchan oi.nants oi.nstrm oi.hnchan

/-- 64-bit arithmetic. -/
def calcMkBlockChan (fengId nstrm hnchan fengChan schan : Nat) : Nat :=
  (fengId * nstrm * hnchan + (fengChan + (2 ^ 64 - schan))) % 2 ^ 64

/-- `schan` is passed as a number without sign. -/
def mkBlockChan (oi : MkObsInfo) (fesi : MkFengSpeadInfo) : Nat :=
  calcMkBlockChan fesi.fengId oi.nstrm oi.hnchan fesi.fengChan (oi.schan % 2 ^ 32).toNat

/-- `none` is a division by zero, here and below. -/
def calcMkPktidxPerBlock (blockSize nchan hntime : Nat) : Option Nat :=
  if 4 * nchan * hntime % 2 ^ 32 = 0 then none
  else some (prevpow2 (blockSize / (4 * nchan * hntime % 2 ^ 32) % 2 ^ 32))

def mkPktidxPerBlock (blockSize : Nat) (oi : MkObsInfo) : Option Nat :=
  calcMkPktidxPerBlock blockSize (mkObsnchan oi) oi.hntime

def calcMkNtime (blockSize nchan hntime : Nat) : Option Nat :=
  (calcMkPktidxPerBlock blockSize nchan hntime).map fun n => hntime * n % 2 ^ 32

def mkNtime (blockSize : Nat) (oi : MkObsInfo) : Option Nat := calcMkNtime blockSize (mkObsnchan oi) oi.hntime

def calcMkBlockSize (blockSize nchan hntime : Nat) : Option Nat :=
  (calcMkPktidxPerBlock blockSize nchan hntime).map fun n => 4 * nchan * hntime * n % 2 ^ 32

def mkBlockSize (blockSize : Nat) (oi : MkObsInfo) : Option Nat := calcMkBlockSize blockSize (mkObsnchan oi) oi.hntime

end VoltRec.VoltOuter
