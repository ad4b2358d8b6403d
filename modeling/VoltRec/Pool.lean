import VoltRec.Common
import VoltRec.Lib.Transition
import Mathlib.Data.Finset.Card

/-! The threads that share a buffer pool. An action is one critical section of a call, under the locks
    that the source takes there, or a write to a buffer between two calls; the actions of all threads
    interleave in any order that the locks allow. -/

namespace VoltRec

variable {T : Type}

/-! ### Actions -/

/-- An action of a thread, with what the call was given and what it found. The last two arguments of
    `returnBufferData` and `fetchBufferTake` are the length and the contents of the buffer then. -/
inductive Act (T : Type)
  | fetchEmptyBuffer (t : T) (index : Nat)
  /-- `fetchEmptyBuffer` returns -1. -/
  | noEmpty (t : T)
  | returnBufferData (t : T) (index : Nat) (order : Int) (dataLen : Nat) (data : Nat → UInt8)
  | returnBufferReady (t : T)
  | returnEmptyBuffer (t : T) (index : Nat)
  /-- The exit `data integrity!` of the two calls that give a slot back. -/
  | dataIntegrity (t : T) (index : Nat)
  /-- `fetchBuffer` leaves its wait loop. -/
  | fetchBufferWait (t : T)
  /-- `fetchBuffer` finds `NReady` zero; it waits on or returns -1. -/
  | fetchBufferShut (t : T)
  | fetchBufferTake (t : T) (index : Nat) (order : Int) (dataLen : Nat) (data : Nat → UInt8)
  /-- `fetchBuffer` is past its wait loop and finds no slot. -/
  | takeNone (t : T)
  | anyBufFull (t : T) (localNready : Nat)
  /-- A byte written to a buffer. -/
  | write (t : T) (index x : Nat) (v : UInt8)

/-- A pool and where its threads stand in their calls. -/
structure Pool (T : Type) where
  buff : UdpBuff
  /-- The thread between the two updates of `returnBuffer`; it has `dataMutex`. -/
  publishing : Option T
  /-- The threads that have left the wait loop of `fetchBuffer` and not yet looked for a slot. -/
  claimed : Finset T

namespace Pool

def init (numberOfBuffers : Nat) (data : Nat → Nat → UInt8) (dataLen : Nat → Nat) : Pool T where
  buff := initUdpBuff numberOfBuffers data dataLen
  publishing := none
  claimed := ∅

/-- The thread is not inside a call. -/
def Idle (s : Pool T) (t : T) : Prop := s.publishing ≠ some t ∧ t ∉ s.claimed

/-- What an action does. A section under `dataMutex` runs only while no thread is publishing. -/
inductive Exec [DecidableEq T] : Pool T → Act T → Pool T → Prop
  | fetchEmptyBuffer {s : Pool T} {t : T} {buff : UdpBuff} {index : Nat} (idle : s.Idle t)
      (free : s.publishing = none) (h : s.buff.fetchEmptyBuffer = some (buff, index)) :
      Exec s (.fetchEmptyBuffer t index) { s with buff := buff }
  | noEmpty {s : Pool T} {t : T} (idle : s.Idle t) (free : s.publishing = none)
      (h : s.buff.fetchEmptyBuffer = none) : Exec s (.noEmpty t) s
  | returnBufferData {s : Pool T} {t : T} {buff : UdpBuff} {index dataLen : Nat} {order : Int} (idle : s.Idle t)
      (free : s.publishing = none) (h : s.buff.returnBufferData index order dataLen = some buff) :
      Exec s (.returnBufferData t index order dataLen (s.buff.data index))
        { s with buff := buff, publishing := some t }
  | returnBufferReady {s : Pool T} {t : T} (h : s.publishing = some t) :
      Exec s (.returnBufferReady t) { s with buff := s.buff.returnBufferReady, publishing := none }
  | returnEmptyBuffer {s : Pool T} {t : T} {buff : UdpBuff} {index : Nat} (idle : s.Idle t)
      (free : s.publishing = none) (h : s.buff.returnEmptyBuffer index = some buff) :
      Exec s (.returnEmptyBuffer t index) { s with buff := buff }
  | dataIntegrity {s : Pool T} {t : T} {index : Nat} (idle : s.Idle t) (free : s.publishing = none)
      (h : s.buff.returnEmptyBuffer index = none) : Exec s (.dataIntegrity t index) s
  | fetchBufferWait {s : Pool T} {t : T} {buff : UdpBuff} (idle : s.Idle t)
      (h : s.buff.fetchBufferWait = some buff) :
      Exec s (.fetchBufferWait t) { s with buff := buff, claimed := insert t s.claimed }
  | fetchBufferShut {s : Pool T} {t : T} (idle : s.Idle t) (h : s.buff.fetchBufferWait = none) :
      Exec s (.fetchBufferShut t) s
  | fetchBufferTake {s : Pool T} {t : T} {buff : UdpBuff} {index dataLen : Nat} {order : Int} (past : t ∈ s.claimed)
      (free : s.publishing = none) (h : s.buff.fetchBufferTake = some (buff, index, order, dataLen)) :
      Exec s (.fetchBufferTake t index order dataLen (s.buff.data index))
        { s with buff := buff, claimed := s.claimed.erase t }
  | takeNone {s : Pool T} {t : T} (past : t ∈ s.claimed) (free : s.publishing = none)
      (h : s.buff.fetchBufferTake = none) : Exec s (.takeNone t) { s with claimed := s.claimed.erase t }
  | anyBufFull {s : Pool T} {t : T} (idle : s.Idle t) : Exec s (.anyBufFull t s.buff.anyBufFull) s
  | write {s : Pool T} {t : T} {index x : Nat} {v : UInt8} (idle : s.Idle t) :
      Exec s (.write t index x v)
        { s with
          buff :=
            { s.buff with
              data := Function.update s.buff.data index (Function.update (s.buff.data index) x v) } }

end Pool

/-! ### Threads that use only slots they hold -/

/-- The slots that an action takes and gives back. -/
def Act.transfer (holder : Nat → Option T) : Act T → Nat → Option T
  | .fetchEmptyBuffer t index => Function.update holder index (some t)
  | .returnBufferData _ index _ _ _ => Function.update holder index none
  | .returnEmptyBuffer _ index => Function.update holder index none
  | .fetchBufferTake t index _ _ _ => Function.update holder index (some t)
  | _ => holder

/-- The thread holds the slot that it gives back or writes to. -/
def Act.Held (holder : Nat → Option T) : Act T → Prop
  | .returnBufferData t index _ _ _ => holder index = some t
  | .returnEmptyBuffer t index => holder index = some t
  | .dataIntegrity t index => holder index = some t
  | .write t index _ _ => holder index = some t
  | _ => True

/-- A pool with the thread that holds each slot. -/
structure Owned (T : Type) where
  pool : Pool T
  holder : Nat → Option T

namespace Owned

def init (numberOfBuffers : Nat) (data : Nat → Nat → UInt8) (dataLen : Nat → Nat) : Owned T where
  pool := .init numberOfBuffers data dataLen
  holder := fun _ => none

def Step [DecidableEq T] (s : Owned T) (a : Act T) (s' : Owned T) : Prop :=
  s.pool.Exec a s'.pool ∧ a.Held s.holder ∧ s'.holder = a.transfer s.holder

end Owned

/-- `returnBuffer` with an order that `findLowest` can find. -/
def Act.Bounded : Act T → Prop
  | .returnBufferData _ _ order _ _ => 0 < order ∧ order < intMax
  | _ => True

/-- What a run has published in a slot, with order, length and contents. -/
def Act.published (index : Nat) : Act T → Option (Int × Nat × (Nat → UInt8))
  | .returnBufferData _ i order dataLen data => if i = index then some (order, dataLen, data) else none
  | _ => none

/-- What a run has fetched from a slot. -/
def Act.taken (index : Nat) : Act T → Option (Int × Nat × (Nat → UInt8))
  | .fetchBufferTake _ i order dataLen data => if i = index then some (order, dataLen, data) else none
  | _ => none

/-! ### The calls of one thread -/

/-- A call that takes a slot or gives one back. -/
inductive Call
  | fetchEmptyBuffer (index : Nat)
  | returnBuffer (index : Nat) (order : Int) (dataLen : Nat)
  | returnEmptyBuffer (index : Nat)
  | fetchBuffer (index : Nat)
  deriving DecidableEq

/-- The call of thread `me` that an action decides. -/
def Act.call [DecidableEq T] (me : T) : Act T → Option Call
  | .fetchEmptyBuffer t index => if t = me then some (.fetchEmptyBuffer index) else none
  | .returnBufferData t index order dataLen _ => if t = me then some (.returnBuffer index order dataLen) else none
  | .returnEmptyBuffer t index => if t = me then some (.returnEmptyBuffer index) else none
  | .fetchBufferTake t index _ _ _ => if t = me then some (.fetchBuffer index) else none
  | _ => none

/-- The thread has slot `index` after its calls. -/
def heldAfter (index : Nat) (calls : List Call) : Bool :=
  calls.foldl (fun held c =>
    match c with
    | .fetchEmptyBuffer i => if i = index then true else held
    | .returnBuffer i _ _ => if i = index then false else held
    | .returnEmptyBuffer i => if i = index then false else held
    | .fetchBuffer i => if i = index then true else held) false

end VoltRec
