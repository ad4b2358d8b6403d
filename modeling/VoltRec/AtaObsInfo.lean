import VoltRec.DataFormats

/-! `ata_obs_info` of `half_hashpipe/ata_volt_outer_thread.h` and the functions on it: the size of the blocks of an
    observation, and the antenna lookup. The sizes of a packet are those of `full_custom/data_formats.h`. -/

namespace VoltRec.VoltOuter

def maxants : Nat := 4
def bytesPerComplexSample : Nat := 1

structure AtaObsInfo where
  nchan : Nat
  nants : Nat
  schan : Int
  antids : List Nat

/-- `none` is the result -1. The comparison of an id with the signed `antid` converts the latter to 32 bits without
    sign. -/
def getAtaAntIndex (info : AtaObsInfo) (antid : Int) : Option Nat :=
  if info.nants ≥ maxants then none
  else (info.antids.take info.nants).findIdx? fun a : Nat => (a : Int) == antid % 2 ^ 32

/-! ### Block sizes -/

/-- `__builtin_clz` of a number from 1 to 2^32 - 1. -/
def clz (x : Nat) : Nat := 31 - x.log2

def prevpow2 (x : Nat) : Nat := if x = 0 then 0 else 0x80000000 >>> clz x

/-- The product in the two functions that follow, in 32-bit arithmetic. -/
def bytesPerPktidx (info : AtaObsInfo) : Nat :=
  info.nants * info.nchan * samplesPerPacket * polsPerPacket * chansPerPacket * bytesPerComplexSample % 2 ^ 32

/-- `none` is a division by zero. -/
def ataPktidxPerBlock (blockSize : Nat) (info : AtaObsInfo) : Option Nat :=
  if bytesPerPktidx info = 0 then none else some (prevpow2 (blockSize / bytesPerPktidx info % 2 ^ 32))

def ataBlockSize (blockSize : Nat) (info : AtaObsInfo) : Option Nat :=
  (ataPktidxPerBlock blockSize info).map fun n => n * bytesPerPktidx info % 2 ^ 32

end VoltRec.VoltOuter
