import VoltRec.Threads
import VoltRec.UdpThread

/-! The two threads of the network pool: `udp_recv_work` of `full_custom/udp_thread.c` with every exit of its
    read loop, and `worker_work` as far as it empties the pool. What `recvfrom` returns is input. -/

namespace VoltRec.Reception

/-! ### `udp_recv_work` -/

/-- Where the thread stands. -/
inductive ReceiverAt
  /-- `while(keep_going)` -/
  | test
  | fetching
  /-- Before pass `iK` of the read loop. -/
  | reading (currentBuffNo iK dataSize : Nat)
  /-- In `memcpy`, at byte `j`. -/
  | copying (currentBuffNo iK dataSize : Nat) (d : Datagram) (j : Nat)
  /-- The branch `iResult == 0`: before its `returnBuffer`, inside, and behind it. -/
  | zero (currentBuffNo dataSize : Nat)
  | zeroReturning (currentBuffNo dataSize : Nat)
  | zeroReturned (currentBuffNo dataSize : Nat)
  /-- Behind the read loop: before `returnBuffer`, and inside. -/
  | leaving (currentBuffNo dataSize : Nat)
  | returning
  | returned

structure RecvThread where
  order : Nat
  pos : ReceiverAt

inductive RecvTurn : Turns RecvResult RecvThread
  | goOn {t : RecvThread} (h : t.pos = .test) : RecvTurn true t .silent true { t with pos := .fetching }
  | leave {t : RecvThread} (h : t.pos = .test) : RecvTurn false t .silent false { t with pos := .returned }
  | fetchEmptyBuffer {k : Bool} {t : RecvThread} {index : Nat} (h : t.pos = .fetching) :
      RecvTurn k t (.call (.fetchEmptyBuffer .producer index)) k { t with pos := .reading index 0 0 }
  | noEmpty {k : Bool} {t : RecvThread} (h : t.pos = .fetching) :
      RecvTurn k t (.call (.noEmpty .producer)) k { t with pos := .test }
  /-- The size of the very first datagram is not checked. -/
  | datagram {k : Bool} {t : RecvThread} {index iK dataSize : Nat} {d : Datagram}
      (h : t.pos = .reading index iK dataSize) (more : iK < nReadsDefault)
      (size : t.order = 1 ∧ iK = 0 ∨ d.len = rxMsgLen) :
      RecvTurn k t (.input (.datagram d)) k { t with pos := .copying index iK dataSize d 0 }
  | wrongSize {k : Bool} {t : RecvThread} {index iK dataSize : Nat} {d : Datagram}
      (h : t.pos = .reading index iK dataSize) (more : iK < nReadsDefault)
      (size : ¬(t.order = 1 ∧ iK = 0) ∧ d.len ≠ rxMsgLen) :
      RecvTurn k t (.input (.datagram d)) false { t with pos := .leaving index dataSize }
  | zero {k : Bool} {t : RecvThread} {index iK dataSize : Nat} (h : t.pos = .reading index iK dataSize)
      (more : iK < nReadsDefault) : RecvTurn k t (.input .zero) k { t with pos := .zero index dataSize }
  | error {k : Bool} {t : RecvThread} {index iK dataSize : Nat} (h : t.pos = .reading index iK dataSize)
      (more : iK < nReadsDefault) : RecvTurn k t (.input .error) k { t with pos := .leaving index dataSize }
  | write {k : Bool} {t : RecvThread} {index iK dataSize j : Nat} {d : Datagram}
      (h : t.pos = .copying index iK dataSize d j) (more : j < d.len) :
      RecvTurn k t (.call (.write .producer index (dataSize + j) (d.bytes j))) k
        { t with pos := .copying index iK dataSize d (j + 1) }
  | copied {k : Bool} {t : RecvThread} {index iK dataSize : Nat} {d : Datagram}
      (h : t.pos = .copying index iK dataSize d d.len) :
      RecvTurn k t .silent k { t with pos := .reading index (iK + 1) (dataSize + d.len) }
  | readAll {k : Bool} {t : RecvThread} {index dataSize : Nat} (h : t.pos = .reading index nReadsDefault dataSize) :
      RecvTurn k t .silent k { t with pos := .leaving index dataSize }
  | zeroReturn {k : Bool} {t : RecvThread} {index dataSize : Nat} {data : Nat → UInt8}
      (h : t.pos = .zero index dataSize) :
      RecvTurn k t (.call (.returnBufferData .producer index t.order dataSize data)) k
        { t with pos := .zeroReturning index dataSize }
  | zeroIntegrity {k : Bool} {t : RecvThread} {index dataSize : Nat} (h : t.pos = .zero index dataSize) :
      RecvTurn k t (.call (.dataIntegrity .producer index)) k t
  | zeroReady {k : Bool} {t : RecvThread} {index dataSize : Nat} (h : t.pos = .zeroReturning index dataSize) :
      RecvTurn k t (.call (.returnBufferReady .producer)) k { t with pos := .zeroReturned index dataSize }
  | stop {k : Bool} {t : RecvThread} {index dataSize : Nat} (h : t.pos = .zeroReturned index dataSize) :
      RecvTurn k t .silent false { t with pos := .leaving index dataSize }
  | returnBuffer {k : Bool} {t : RecvThread} {index dataSize : Nat} {data : Nat → UInt8}
      (h : t.pos = .leaving index dataSize) :
      RecvTurn k t (.call (.returnBufferData .producer index t.order dataSize data)) k { t with pos := .returning }
  | integrity {k : Bool} {t : RecvThread} {index dataSize : Nat} (h : t.pos = .leaving index dataSize) :
      RecvTurn k t (.call (.dataIntegrity .producer index)) k t
  | ready {k : Bool} {t : RecvThread} (h : t.pos = .returning) :
      RecvTurn k t (.call (.returnBufferReady .producer)) k { order := t.order + 1, pos := .test }

/-! ### `worker_work` -/

/-- Where the worker stands; between `returnEmptyBuffer` and the next test it uses the file pool only. -/
inductive EmptierAt
  | test
  | waiting
  | taking
  | reading (indexIn : Nat)
  | returned

inductive EmptierTurn : Turns RecvResult EmptierAt
  | goOn : EmptierTurn true .test .silent true .waiting
  | leave : EmptierTurn false .test .silent false .returned
  | fetchBufferWait {k : Bool} : EmptierTurn k .waiting (.call (.fetchBufferWait .consumer)) k .taking
  /-- `fetchBuffer` waits on, or it returns -1 because `keep_going` is 0. -/
  | waitOn : EmptierTurn true .waiting (.call (.fetchBufferShut .consumer)) true .waiting
  | shut : EmptierTurn false .waiting (.call (.fetchBufferShut .consumer)) false .test
  | fetchBufferTake {k : Bool} {index dataLen : Nat} {order : Int} {data : Nat → UInt8} :
      EmptierTurn k .taking (.call (.fetchBufferTake .consumer index order dataLen data)) k (.reading index)
  | takeNone {k : Bool} : EmptierTurn k .taking (.call (.takeNone .consumer)) k .test
  | returnEmptyBuffer {k : Bool} {index : Nat} :
      EmptierTurn k (.reading index) (.call (.returnEmptyBuffer .consumer index)) k .test
  | integrity {k : Bool} {index : Nat} :
      EmptierTurn k (.reading index) (.call (.dataIntegrity .consumer index)) k (.reading index)

/-! ### Both -/

abbrev State : Type := Threads RecvThread EmptierAt

def init (numberOfBuffers : Nat) (data : Nat → Nat → UInt8) (dataLen : Nat → Nat) : State :=
  .init numberOfBuffers data dataLen { order := 1, pos := .test } .test

abbrev Step : State → Label RecvResult → State → Prop := Threads.Step RecvTurn EmptierTurn

end VoltRec.Reception
