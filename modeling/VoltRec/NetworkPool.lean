import VoltRec.Pool

/-! The network pool: `udp_recv_work` of `full_custom/udp_thread.c` fills its buffers and `worker_work` of
    `full_custom/processing_thread.c` empties them. Only the calls on the pool are modelled here, with the
    locals that decide which call comes next. -/

namespace VoltRec

inductive Side
  | producer
  | consumer
  deriving DecidableEq

namespace Network

/-- `order` and `currentBuffNo` of the producer, `indexIn` of the consumer; a slot is there while the thread
    is between the call that gives it and the one that takes it back. -/
structure Locals where
  order : Nat
  filling : Option Nat
  reading : Option Nat

/-- The actions that the two loops come to, and what they do to the locals. -/
inductive Turn : Locals → Act Side → Locals → Prop
  | fetchEmptyBuffer {l : Locals} {index : Nat} (h : l.filling = none) :
      Turn l (.fetchEmptyBuffer .producer index) { l with filling := some index }
  | noEmpty {l : Locals} (h : l.filling = none) : Turn l (.noEmpty .producer) l
  | write {l : Locals} {index x : Nat} {v : UInt8} (h : l.filling = some index) :
      Turn l (.write .producer index x v) l
  | returnBufferData {l : Locals} {index dataLen : Nat} {data : Nat → UInt8} (h : l.filling = some index) :
      Turn l (.returnBufferData .producer index l.order dataLen data) { l with order := l.order + 1, filling := none }
  | returnBufferReady {l : Locals} : Turn l (.returnBufferReady .producer) l
  | integrityFilling {l : Locals} {index : Nat} (h : l.filling = some index) :
      Turn l (.dataIntegrity .producer index) l
  | fetchBufferWait {l : Locals} (h : l.reading = none) : Turn l (.fetchBufferWait .consumer) l
  | fetchBufferShut {l : Locals} (h : l.reading = none) : Turn l (.fetchBufferShut .consumer) l
  | fetchBufferTake {l : Locals} {index dataLen : Nat} {order : Int} {data : Nat → UInt8} (h : l.reading = none) :
      Turn l (.fetchBufferTake .consumer index order dataLen data) { l with reading := some index }
  | takeNone {l : Locals} (h : l.reading = none) : Turn l (.takeNone .consumer) l
  | returnEmptyBuffer {l : Locals} {index : Nat} (h : l.reading = some index) :
      Turn l (.returnEmptyBuffer .consumer index) { l with reading := none }
  | integrityReading {l : Locals} {index : Nat} (h : l.reading = some index) :
      Turn l (.dataIntegrity .consumer index) l

end Network

structure Network where
  pool : Pool Side
  locals : Network.Locals

namespace Network

def init (numberOfBuffers : Nat) (data : Nat → Nat → UInt8) (dataLen : Nat → Nat) : Network where
  pool := .init numberOfBuffers data dataLen
  locals := { order := 1, filling := none, reading := none }

def Step (s : Network) (a : Act Side) (s' : Network) : Prop :=
  s.pool.Exec a s'.pool ∧ Turn s.locals a s'.locals

end Network

/-- An order with the length and the contents that go with it. -/
abbrev Message := Int × Nat × (Nat → UInt8)

def Act.sent {T : Type} : Act T → Option Message
  | .returnBufferData _ _ order dataLen data => some (order, dataLen, data)
  | _ => none

def Act.received {T : Type} : Act T → Option Message
  | .fetchBufferTake _ _ order dataLen data => some (order, dataLen, data)
  | _ => none

/-- What the producer has published, in the order of its calls. -/
def sent (tr : List (Act Side)) : List Message := tr.filterMap Act.sent

/-- What the consumer has fetched, in the order of its calls. -/
def received (tr : List (Act Side)) : List Message := tr.filterMap Act.received

/-- Slot `index` is published and not yet given back by the consumer. -/
def InFlight (index : Nat) (tr : List (Act Side)) : Prop :=
  ∃ pre order dataLen data suf, tr = pre ++ .returnBufferData .producer index order dataLen data :: suf ∧
    .returnEmptyBuffer .consumer index ∉ suf

end VoltRec
