import VoltRec.ProcessingThread

/-! `udp_recv_work` of `full_custom/udp_thread.c`. What `recvfrom` returns is input, and so are the buffers
    that `fetchEmptyBuffer` gives in the end, one for each pass of the main loop that another thread has not
    stopped. The check of the buffer size compares constants and passes. -/

namespace VoltRec

/-! ### Results of `recvfrom` -/

/-- A datagram of at least one byte, cut to the length of the receive buffer; the bytes from `len` on do not
    matter. -/
structure Datagram where
  len : Nat
  bytes : Nat → UInt8
  pos : 0 < len
  le : len ≤ rxMsgLen

inductive RecvResult
  | datagram (d : Datagram)
  | zero
  | error

/-! ### The thread -/

/-- The arguments of a `returnBuffer`, with the contents of the buffer, and the numbers of the calls of `recvfrom`
    before the buffer was fetched and before it was returned. -/
structure Published where
  order : Nat
  dataLen : Nat
  data : Nat → UInt8
  firstRecv : Nat
  nRecv : Nat

/-- The locals of the read loop; `nRecv` counts the calls of `recvfrom` of the whole run, `firstRecv` those before the
    loop. -/
structure Reader where
  firstRecv : Nat
  nRecv : Nat
  data : Nat → UInt8
  dataSize : Nat
  keepGoing : Bool
  published : List Published

/-- `returnBuffer` of the current buffer. -/
def Reader.returnBuffer (r : Reader) (order : Nat) : Reader :=
  { r with
    published := r.published ++
      [{ order := order, dataLen := r.dataSize, data := r.data, firstRecv := r.firstRecv, nRecv := r.nRecv }] }

/-- `memcpy` of a datagram behind the data. -/
def Reader.append (r : Reader) (d : Datagram) : Reader :=
  { r with
    data := Memory.copy r.data r.dataSize fun j : Fin d.len => d.bytes j
    dataSize := r.dataSize + d.len }

/-- The read loop from `iK` on, with `n` passes left. -/
def readLoop (recv : Nat → RecvResult) (order : Nat) : Nat → Nat → Reader → Reader
  | 0, _, r => r
  | n + 1, iK, r =>
    let iResult := recv r.nRecv
    let r := { r with nRecv := r.nRecv + 1 }
    match iResult with
    | .datagram d =>
      if order = 1 ∧ iK = 0 then readLoop recv order n (iK + 1) (r.append d)
      else if d.len ≠ rxMsgLen then { r with keepGoing := false }
      else readLoop recv order n (iK + 1) (r.append d)
    | .zero => { r.returnBuffer order with keepGoing := false }
    | .error => r

/-- `udp_recv_work` between two passes of its main loop. -/
structure Receiver where
  order : Nat
  nRecv : Nat
  keepGoing : Bool
  published : List Published

def Receiver.start : Receiver := { order := 1, nRecv := 0, keepGoing := true, published := [] }

/-- The locals before the read loop on the buffer `data`. -/
def Receiver.reader (s : Receiver) (data : Nat → UInt8) : Reader where
  firstRecv := s.nRecv
  nRecv := s.nRecv
  data := data
  dataSize := 0
  keepGoing := s.keepGoing
  published := s.published

/-- One pass of the main loop, into the buffer `data`. -/
def Receiver.pass (recv : Nat → RecvResult) (s : Receiver) (data : Nat → UInt8) : Receiver :=
  let r := readLoop recv s.order nReadsDefault 0 (s.reader data)
  let r := r.returnBuffer s.order
  { order := s.order + 1, nRecv := r.nRecv, keepGoing := r.keepGoing, published := r.published }

/-- `udp_recv_work`. -/
def udpRecvWork (recv : Nat → RecvResult) (bufs : List (Nat → UInt8)) : Receiver :=
  bufs.foldl (fun s data => if s.keepGoing then s.pass recv data else s) .start

end VoltRec
