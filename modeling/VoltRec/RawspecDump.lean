import VoltRec.Lib.Memory

/-! The dumps of `half_hashpipe/hpguppi_rawspec.c`: the callbacks of the rawspec library for the output products of a
    context, the output threads, and `rawspec_stop`. The library fills the power buffer of a product between its two
    callbacks only. A thread that is joined has returned, so a joining call runs only then. -/

namespace VoltRec.Rawspec

/-- An output thread in `write_all`; `buf` is the offset of the pointer in the power buffer. -/
structure OutputThread where
  fd : Bool
  buf : Nat
  bytesRemaining : Nat

/-- `rawspec_callback_data_t`, with what it points to. `fd` says whether the descriptor is not -1, `outputThread` is
    the thread until it returns, and `dumping` says that the library is between its callbacks. -/
structure Product where
  fd : Bool
  outputThreadValid : Bool
  outputThread : Option OutputThread
  hPwrbuf : Nat → UInt8
  file : List UInt8
  dumping : Bool

inductive Event
  /-- `RAWSPEC_CALLBACK_PRE_DUMP` -/
  | preDump
  /-- The library writes a byte of the power buffer. -/
  | fill (x : Nat) (v : UInt8)
  /-- `RAWSPEC_CALLBACK_POST_DUMP`, with the contents of the power buffer. -/
  | postDump (dump : List UInt8)
  /-- The same where `pthread_create` fails. -/
  | notCreated
  /-- `write` of the output thread returns a number of bytes, or -1. -/
  | write (bytesWritten : Nat)
  | writeFails
  /-- All bytes are written. -/
  | done
  /-- The part of `rawspec_stop` for the product. -/
  | stop

def Product.joinable (p : Product) : Prop := p.outputThreadValid = true → p.outputThread = none

/-- The steps of a product whose power buffer has `size` bytes. -/
inductive Product.Step (size : Nat) : Product → Event → Product → Prop
  | preDump {p : Product} (idle : p.dumping = false) (join : p.joinable) :
      Step size p .preDump { p with outputThreadValid := false, dumping := true }
  | fill {p : Product} {x : Nat} {v : UInt8} (dumping : p.dumping = true) :
      Step size p (.fill x v) { p with hPwrbuf := Function.update p.hPwrbuf x v }
  | postDump {p : Product} (dumping : p.dumping = true) :
      Step size p (.postDump (Memory.slice p.hPwrbuf 0 size))
        { p with outputThread := some ⟨p.fd, 0, size⟩, outputThreadValid := true, dumping := false }
  | notCreated {p : Product} (dumping : p.dumping = true) : Step size p .notCreated { p with dumping := false }
  | write {p : Product} {t : OutputThread} {bytesWritten : Nat} (running : p.outputThread = some t)
      (more : t.bytesRemaining ≠ 0) (h : bytesWritten ≤ t.bytesRemaining) (fd : t.fd = true) :
      Step size p (.write bytesWritten)
        { p with
          file := p.file ++ Memory.slice p.hPwrbuf t.buf bytesWritten
          outputThread := some ⟨t.fd, t.buf + bytesWritten, t.bytesRemaining - bytesWritten⟩ }
  | writeFails {p : Product} {t : OutputThread} (running : p.outputThread = some t) (more : t.bytesRemaining ≠ 0) :
      Step size p .writeFails { p with outputThread := none }
  | done {p : Product} {t : OutputThread} (running : p.outputThread = some t) (all : t.bytesRemaining = 0) :
      Step size p .done { p with outputThread := none }
  | stop {p : Product} (idle : p.dumping = false) (join : p.joinable) :
      Step size p .stop { p with outputThreadValid := false, fd := false }

/-- The products of a context, by their index in `user_data`. -/
abbrev Context (no : Nat) : Type := Fin no → Product

/-- One product takes a step. -/
inductive Step {no : Nat} (size : Fin no → Nat) : Context no → Fin no × Event → Context no → Prop
  | product {c : Context no} {i : Fin no} {e : Event} {p : Product} (h : Product.Step (size i) (c i) e p) :
      Step size c (i, e) (Function.update c i p)

/-- The library idles, no thread runs, and the files are open, with what has been written to them before. -/
def init {no : Nat} (files : Fin no → List UInt8) (hPwrbuf : Fin no → Nat → UInt8) : Context no :=
  fun i => ⟨true, false, none, hPwrbuf i, files i, false⟩

end VoltRec.Rawspec
