import VoltRec.NetworkPool

/-! Two threads on a pool and the flag `keep_going`. Each thread is given by its turns: the steps that it
    comes to where it stands, on its own and with what it reads. Every run of the two interleaves their
    turns in any order that the pool allows, and the signal handler stops them at any point. -/

namespace VoltRec

variable {ε P C : Type}

/-- What a step shows. -/
inductive Label (ε : Type)
  | call (a : Act Side)
  /-- What a thread gets from outside of the two. -/
  | input (e : ε)
  /-- A step of one thread that the pool has no part in. -/
  | silent
  /-- The signal handler sets `keep_going` to 0. -/
  | interrupt

/-- The turns of a thread, with `keep_going` before and after. -/
abbrev Turns (ε P : Type) := Bool → P → Label ε → Bool → P → Prop

/-- `P` and `C` say where the two threads stand. -/
structure Threads (P C : Type) where
  pool : Pool Side
  keepGoing : Bool
  producer : P
  consumer : C

/-- A call runs on the pool, and any other step leaves it alone. -/
def Label.OnPool : Label ε → Pool Side → Pool Side → Prop
  | .call a, p, p' => p.Exec a p'
  | _, p, p' => p' = p

namespace Threads

def init (numberOfBuffers : Nat) (data : Nat → Nat → UInt8) (dataLen : Nat → Nat) (producer : P) (consumer : C) :
    Threads P C where
  pool := .init numberOfBuffers data dataLen
  keepGoing := true
  producer := producer
  consumer := consumer

inductive Step (producerTurns : Turns ε P) (consumerTurns : Turns ε C) : Threads P C → Label ε → Threads P C → Prop
  | producer {s : Threads P C} {l : Label ε} {keepGoing : Bool} {p : P} {pool : Pool Side}
      (h : producerTurns s.keepGoing s.producer l keepGoing p) (hp : l.OnPool s.pool pool) :
      Step producerTurns consumerTurns s l { s with pool := pool, keepGoing := keepGoing, producer := p }
  | consumer {s : Threads P C} {l : Label ε} {keepGoing : Bool} {c : C} {pool : Pool Side}
      (h : consumerTurns s.keepGoing s.consumer l keepGoing c) (hp : l.OnPool s.pool pool) :
      Step producerTurns consumerTurns s l { s with pool := pool, keepGoing := keepGoing, consumer := c }
  | interrupt {s : Threads P C} : Step producerTurns consumerTurns s .interrupt { s with keepGoing := false }

end Threads

def Label.act? : Label ε → Option (Act Side)
  | .call a => some a
  | _ => none

def Label.isWrite : Label ε → Bool
  | .call (.write _ _ _ _) => true
  | _ => false

def Label.input? : Label ε → Option ε
  | .input e => some e
  | _ => none

/-- What the threads have got from outside in a run. -/
def inputs (tr : List (Label ε)) : List ε := tr.filterMap Label.input?

/-- The actions of a run on the pool. -/
def acts (tr : List (Label ε)) : List (Act Side) := tr.filterMap Label.act?

/-- The calls of a thread in a run, as far as they take a slot or give one back. -/
def calls (me : Side) (tr : List (Label ε)) : List Call := (acts tr).filterMap (Act.call me)

/-- Slot `index` is with thread `me`: a call of the thread has taken it, and none since has given it back. -/
def Holds (me : Side) (tr : List (Label ε)) (index : Nat) : Prop := heldAfter index (calls me tr) = true

end VoltRec
