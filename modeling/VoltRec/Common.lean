import VoltRec.DataFormats
import Mathlib.Logic.Function.Basic

/-! The buffer pool and the antenna table of `full_custom/common.c`. Every function is one critical
    section, or two where the source takes two locks one after the other. -/

namespace VoltRec

/-! ### The buffer pool -/

/-- `udpBuffStruct`. The order of a slot is 0 when it is empty, -1 when a thread uses it, and positive
    when it is published. -/
structure UdpBuff where
  data : Nat → Nat → UInt8
  dataLen : Nat → Nat
  orderNo : List Int
  nReady : Nat

/-- `init_udpBuff`; the buffers and their lengths keep what `malloc` left there. -/
def initUdpBuff (numberOfBuffers : Nat) (data : Nat → Nat → UInt8) (dataLen : Nat → Nat) : UdpBuff where
  data := data
  dataLen := dataLen
  orderNo := List.replicate numberOfBuffers 0
  nReady := 0

/-- `none` is the result -1. -/
def findEmpty (no : List Int) : Option Nat := no.findIdx? (· == 0)

/-- The scan of `findLowest` from index `iK` on, with its two locals. -/
def findLowestFrom : List Int → Nat → Int → Option Nat → Option Nat
  | [], _, _, retVal => retVal
  | o :: no, iK, lowVal, retVal =>
    if o < lowVal ∧ o > 0 then findLowestFrom no (iK + 1) o (some iK) else findLowestFrom no (iK + 1) lowVal retVal

/-- `none` is the result -1. -/
def findLowest (no : List Int) : Option Nat := findLowestFrom no 0 intMax none

namespace UdpBuff

/-- `none` is the result -1: no slot is empty. -/
def fetchEmptyBuffer (s : UdpBuff) : Option (UdpBuff × Nat) :=
  (findEmpty s.orderNo).map fun index => ({ s with orderNo := s.orderNo.set index (-1) }, index)

/-- The first update of `returnBuffer`, under `dataMutex`; `none` is the exit `data integrity!`. -/
def returnBufferData (s : UdpBuff) (index : Nat) (order : Int) (dataLen : Nat) : Option UdpBuff :=
  if s.orderNo[index]? = some (-1) then
    some { s with orderNo := s.orderNo.set index order, dataLen := Function.update s.dataLen index dataLen }
  else none

/-- The second update of `returnBuffer`, under `NReadyMutex` as well. -/
def returnBufferReady (s : UdpBuff) : UdpBuff := { s with nReady := s.nReady + 1 }

/-- `none` is the exit `data integrity!`. -/
def returnEmptyBuffer (s : UdpBuff) (index : Nat) : Option UdpBuff :=
  if s.orderNo[index]? = some (-1) then some { s with orderNo := s.orderNo.set index 0 } else none

/-- The structure is passed by value, so the increment stays in the copy. -/
def anyBufFull (structure_ : UdpBuff) : Nat :=
  let localNready := structure_.nReady
  let _copy := { structure_ with nReady := structure_.nReady + 1 }
  localNready

/-- One pass of the wait loop of `fetchBuffer`, under `NReadyMutex`; `none` leaves the loop shut. -/
def fetchBufferWait (s : UdpBuff) : Option UdpBuff :=
  if s.nReady > 0 then some { s with nReady := s.nReady - 1 } else none

/-- The part of `fetchBuffer` after the wait loop, under `dataMutex`: the slot, its order and its length.
    `none` is the result -1. -/
def fetchBufferTake (s : UdpBuff) : Option (UdpBuff × Nat × Int × Nat) :=
  (findLowest s.orderNo).map fun index =>
    ({ s with orderNo := s.orderNo.set index (-1) }, index, s.orderNo.getD index 0, s.dataLen index)

end UdpBuff

/-! ### The antenna table -/

/-- The free marker: `-1` stored into a `uint32_t`. -/
def noAntenna : Nat := 0xffffffff

/-- The result code and the table afterwards. -/
def updateAntenna : List Nat → Nat → Nat → Int × List Nat
  | ant :: antNumbers, currAnt, maxAnts + 1 =>
    if ant = currAnt then (0, ant :: antNumbers)
    else if ant = noAntenna then (1, currAnt :: antNumbers)
    else
      let (code, antNumbers') := updateAntenna antNumbers currAnt maxAnts
      (code, ant :: antNumbers')
  | antNumbers, _, _ => (-1, antNumbers)

/-- `none` is the result -1. -/
def getAntIndex (antNumbers : List Nat) (currAnt maxAnts : Nat) : Option Nat :=
  (antNumbers.take maxAnts).findIdx? (· == currAnt)

end VoltRec
