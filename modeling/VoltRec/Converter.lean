import VoltRec.FileThread
import VoltRec.Lib.Loop

/-! `convert`, `write_ext_header` and `main` of `full_custom/converter.c`, in both builds, on Linux: one call of
    `read` or `write` on a regular file moves all the bytes asked for that there are, up to a limit. The disk has
    room for what is written, and `malloc` finds the memory. -/

namespace VoltRec

/-- The program without `MY_DO_EIGHTBITS` and with it. -/
inductive Build
  | fourBits
  | eightBits

def Build.bitsMultiplayer : Build → Nat
  | .fourBits => 1
  | .eightBits => 2

/-! ### `convert` -/

/-- The source of a `memcpy`, in bytes from `datain`. The antenna's part is unsigned 32-bit arithmetic; the
    others are products of `int`s, which overflow only for an `iL` of 2^18 or more. -/
def inOffset (nChanpkts iK iL iM : Nat) : Nat :=
  iK * (rxDataLen * nChanpkts) % 2 ^ 32 + iL * rxDataLen + iM * polsPerPacket * chansPerPacket

/-- The destination of a `memcpy`, in bytes from `dataout[iK]`; the same arithmetic. -/
def outOffset (nChanpkts iL iM : Nat) : Nat :=
  iL * polsPerPacket * chansPerPacket + iM * nChanpkts * polsPerPacket * chansPerPacket % 2 ^ 32

/-- The parts of a sample, `datare` and `dataim`, each with its sign extended. -/
def unpack (currsample : Int8) : Int8 × Int8 :=
  let datare := currsample >>> 4
  let dataim := currsample &&& 0x0f
  (if datare &&& 0x08 ≠ 0 then datare ||| 0xf0 else datare,
    if dataim &&& 0x08 ≠ 0 then dataim ||| 0xf0 else dataim)

/-- The body of the loop over `iM`, on the output buffer of antenna `iK`. -/
def convertSample (build : Build) (datain : Nat → UInt8) (nChanpkts iK iL iM : Nat) (dataout : Nat → UInt8) :
    Nat → UInt8 :=
  match build with
  | .fourBits =>
    Memory.copy dataout (outOffset nChanpkts iL iM)
      fun j : Fin (chansPerPacket * polsPerPacket) => datain (inOffset nChanpkts iK iL iM + j)
  | .eightBits =>
    (List.range (chansPerPacket * polsPerPacket)).foldl (fun dataout iN =>
      let indexin :=
        (iK * (rxDataLen * nChanpkts) + iL * rxDataLen + iM * polsPerPacket * chansPerPacket + iN) % 2 ^ 32
      let indexout :=
        2 * (iL * polsPerPacket * chansPerPacket + iM * nChanpkts * polsPerPacket * chansPerPacket + iN) % 2 ^ 32
      let (datare, dataim) := unpack (datain indexin).toInt8
      Function.update (Function.update dataout indexout datare.toUInt8) (indexout + 1) dataim.toUInt8) dataout

def convert (build : Build) (datain : Nat → UInt8) (dataout : Nat → Nat → UInt8) (nAnts nChanpkts : Nat) :
    Nat → Nat → UInt8 :=
  (List.range nAnts).foldl (fun dataout iK =>
    (List.range nChanpkts).foldl (fun dataout iL =>
      (List.range samplesPerPacket).foldl (fun dataout iM =>
        Function.update dataout iK (convertSample build datain nChanpkts iK iL iM (dataout iK))) dataout) dataout)
    dataout

/-! ### The indices of `convert`, with their overflows -/

/-- A product of two `int`s; `none` is an overflow, which is undefined. -/
def intMul (x y : Nat) : Option Nat := if x * y ≤ intMax then some (x * y) else none

/-- Where byte `iN` of sample `iM` is read, from `datain`: byte `iN` of the `memcpy`, or `indexin`. -/
def indexin (build : Build) (nChanpkts iK iL iM iN : Nat) : Option Nat := do
  let packet ← intMul iL rxDataLen
  match build with
  | .fourBits => return iK * (rxDataLen * nChanpkts) % 2 ^ 32 + packet + iM * polsPerPacket * chansPerPacket + iN
  | .eightBits =>
    return (iK * (rxDataLen * nChanpkts) + packet + iM * polsPerPacket * chansPerPacket + iN) % 2 ^ 32

/-- Where it is written, from `dataout[iK]`; `indexout` is the first of two places. -/
def indexout (build : Build) (nChanpkts iL iM iN : Nat) : Option Nat := do
  let packet ← intMul (iL * polsPerPacket) chansPerPacket
  match build with
  | .fourBits => return packet + iM * nChanpkts * polsPerPacket * chansPerPacket % 2 ^ 32 + iN
  | .eightBits => return 2 * (packet + iM * nChanpkts * polsPerPacket * chansPerPacket + iN) % 2 ^ 32

/-! ### The header -/

/-- The most bytes that one call of `read` or `write` moves. -/
def maxRwCount : Nat := 0x7ffff000

/-- The locals of `main` that come from the header. -/
structure InHeader where
  nAnts : Nat
  antIDs : List Nat
  nChanpkts : Nat
  chanStart : Nat
  pktStart : Nat
deriving DecidableEq

/-- How the parsing ends the program. -/
inductive HeaderError
  /-- `error("read header")`. -/
  | readHeader
  /-- The antenna numbers do not fit into `antIDs`; what happens then is undefined. -/
  | overrun
  /-- The exit after the check of `nAnts`. -/
  | tooManyAnts (nAnts : Nat)
deriving DecidableEq

/-- `read` of one integer of `len` bytes. -/
def readInt (len : Nat) (rest : List UInt8) : Except HeaderError (Nat × List UInt8) :=
  if rest.length < len then .error .readHeader else .ok (LittleEndian.decode (rest.take len), rest.drop len)

/-- `read` of `n` integers into `antIDs`. -/
def readAntIDs : Nat → List UInt8 → Except HeaderError (List Nat × List UInt8)
  | 0, rest => .ok ([], rest)
  | n + 1, rest => do
    let (antID, rest) ← readInt 4 rest
    let (antIDs, rest) ← readAntIDs n rest
    .ok (antID :: antIDs, rest)

/-- How many bytes the `read` into `antIDs` stores. -/
def antIDsStored (file : List UInt8) : Nat :=
  match readInt 4 file with
  | .ok (nAnts, rest) => min (min (4 * nAnts) maxRwCount) rest.length
  | .error _ => 0

/-- `reading header`, up to the check of `nAnts`. -/
def readHeader (file : List UInt8) : Except HeaderError (InHeader × List UInt8) := do
  let (nAnts, rest) ← readInt 4 file
  if nAnts > maxNoAnts ∧ rest.length > 4 * maxNoAnts then throw .overrun
  let (antIDs, rest) ← readAntIDs nAnts rest
  let (nChanpkts, rest) ← readInt 4 rest
  let (chanStart, rest) ← readInt 4 rest
  let (pktStart, rest) ← readInt 8 rest
  if nAnts ≥ maxNoAnts then throw (.tooManyAnts nAnts)
  return ({ nAnts, antIDs, nChanpkts, chanStart, pktStart }, rest)

/-! ### The frame loop -/

def inBufferLen (nAnts nChanpkts : Nat) : Nat := rxDataLen * nAnts * nChanpkts

def Build.outBufferLen (build : Build) (nChanpkts : Nat) : Nat := rxDataLen * nChanpkts * build.bitsMultiplayer

/-- What `in_fd` has left, the buffers, and what the file behind each of `out_fds` has got; `none` is a file that has
    not been opened. -/
structure Conversion where
  rest : List UInt8
  datain : Nat → UInt8
  dataout : Nat → Nat → UInt8
  out : Nat → Option (List UInt8)

/-- How `main` ends. -/
inductive Exit
  | header (e : HeaderError)
  /-- `error("open")`, with what the output files have got so far. -/
  | openFailed (out : Nat → Option (List UInt8))
  /-- `error("write")`. -/
  | writeFailed (s : Conversion)
  /-- `return 0`, behind the frame loop. -/
  | done (s : Conversion)

namespace Conversion

/-- The result of `read(in_fd, datain, len)`. -/
def readCount (s : Conversion) (len : Nat) : Nat := min (min len maxRwCount) s.rest.length

def read (s : Conversion) (len : Nat) : Conversion :=
  { s with
    rest := s.rest.drop (s.readCount len)
    datain := Memory.copy s.datain 0 fun j : Fin (s.readCount len) =>
      s.rest.get ⟨j, Nat.lt_of_lt_of_le j.isLt (Nat.min_le_right ..)⟩ }

/-- The result of `write(out_fds[iK], dataout[iK], len)`. -/
def writeCount (len : Nat) : Nat := min len maxRwCount

def write (s : Conversion) (iK len : Nat) : Conversion :=
  { s with
    out := Function.update s.out iK
      ((s.out iK).map fun file => file ++ Memory.slice (s.dataout iK) 0 (writeCount len)) }

/-- The body of the frame loop behind a full `read`. -/
def frame (build : Build) (nAnts nChanpkts : Nat) (s : Conversion) : Except Exit Conversion :=
  let s := { s with dataout := convert build s.datain s.dataout nAnts nChanpkts }
  (List.range nAnts).foldlM (fun s iK =>
    let s := s.write iK (build.outBufferLen nChanpkts)
    if writeCount (build.outBufferLen nChanpkts) < build.outBufferLen nChanpkts then .error (.writeFailed s)
    else .ok s) s

/-- One pass of the frame loop. -/
def pass (build : Build) (nAnts nChanpkts : Nat) (s : Conversion) : Except Exit Conversion :=
  let len := inBufferLen nAnts nChanpkts
  if s.readCount len < len then .error (.done (s.read len)) else (s.read len).frame build nAnts nChanpkts

/-- `n` passes of `while(is_ok)`, unless the program ends before. -/
def frameLoop (build : Build) (nAnts nChanpkts : Nat) (n : Nat) (s : Conversion) : Except Exit Conversion :=
  Loop.passes (pass build nAnts nChanpkts) n s

end Conversion

/-! ### The external header -/

def myBufferSize : Nat := 4096

/-- An open file behind the position of its descriptor, and how many calls of `read` it has had. -/
structure InFile where
  rest : List UInt8
  reads : Nat

/-- `read(in_fd, buf, len)`. The system answers call `k` with `answers k` bytes, but with no more than asked for
    and with one at least, or with -1 (`none`); at the end of the file there are none to give. -/
def InFile.read (answers : Nat → Option Nat) (f : InFile) (len : Nat) : Option (List UInt8) × InFile :=
  match answers f.reads with
  | none => (none, { f with reads := f.reads + 1 })
  | some n => (some (f.rest.take (max 1 (min n len))), ⟨f.rest.drop (max 1 (min n len)), f.reads + 1⟩)

theorem InFile.length_read {answers : Nat → Option Nat} {f f' : InFile} {len : Nat} {b : UInt8} {buf : List UInt8}
    (h : f.read answers len = (some (b :: buf), f')) : f'.rest.length < f.rest.length := by
  unfold InFile.read at h
  split at h
  · cases h
  · obtain ⟨htake, rfl⟩ := Prod.mk.inj h
    have hne : f.rest ≠ [] := fun hnil => by simp [hnil] at htake
    have := List.length_pos_iff.mpr hne
    simp only [List.length_drop]
    omega

/-- What `write_ext_header` writes to `out_fd`. An error ends its loop as the end of the file does, since the
    test for -1 stands behind the test for a positive count. -/
def writeExtHeader (answers : Nat → Option Nat) (f : InFile) : List UInt8 × InFile :=
  match h : f.read answers myBufferSize with
  | (some (b :: buf), f') =>
    have := InFile.length_read h
    let (out, f'') := writeExtHeader answers f'
    (b :: buf ++ out, f'')
  | (_, f') => ([], f')
termination_by f.rest.length

/-! ### The output files -/

/-- The two names that end in `_ant%u.txt` and `_ant%u.bin`. -/
inductive OutName
  | txt (antID : Nat)
  | bin (antID : Nat)
deriving DecidableEq

/-- The file of the second argument, with what the calls of `read` on it answer. -/
structure HeaderFile where
  content : List UInt8
  answers : Nat → Option Nat

/-- The output files that `main` has created, and `header_fd`. -/
structure Outputs where
  names : List OutName
  out : Nat → Option (List UInt8)
  headerFd : InFile

namespace Outputs

def start (header : Option HeaderFile) : Outputs where
  names := []
  out := fun _ => none
  headerFd := ⟨header.elim [] HeaderFile.content, 0⟩

/-- `open` of an output file. Its flags include `S_IWUSR`, which is the value of `O_EXCL`, so the call fails where
    the file exists; `refused` are the names at which it fails from the start. -/
def create (refused : OutName → Bool) (o : Outputs) (name : OutName) : Except Exit Outputs :=
  if refused name ∨ name ∈ o.names then .error (.openFailed o.out) else .ok { o with names := name :: o.names }

/-- The body of the loop over the antennas; of the text file it models only that it is created. -/
def openOutput (refused : OutName → Bool) (header : Option HeaderFile) (o : Outputs) (iK antID : Nat) :
    Except Exit Outputs := do
  let o ← o.create refused (.txt antID)
  let o ← o.create refused (.bin antID)
  match header with
  | none => return { o with out := Function.update o.out iK (some []) }
  | some header =>
    let (buf, headerFd) := writeExtHeader header.answers o.headerFd
    return { o with out := Function.update o.out iK (some buf), headerFd := headerFd }

end Outputs

def openOutputs (refused : OutName → Bool) (header : Option HeaderFile) (antIDs : List Nat) : Except Exit Outputs :=
  antIDs.zipIdx.foldlM (fun o (antID, iK) => o.openOutput refused header iK antID) (.start header)

/-! ### `main` -/

/-- `main` of the converter on an input file, up to pass `n` of the frame loop. -/
def converterMain (build : Build) (refused : OutName → Bool) (header : Option HeaderFile) (file : List UInt8)
    (datain : Nat → UInt8) (dataout : Nat → Nat → UInt8) (n : Nat) : Except Exit Conversion := do
  let (h, body) ← (readHeader file).mapError .header
  let o ← openOutputs refused header h.antIDs
  Conversion.frameLoop build h.nAnts h.nChanpkts n ⟨body, datain, dataout, o.out⟩

/-- What the file thread writes behind the header. -/
def File.body (f : File) : List UInt8 := f.blocks.flatMap Block.bytes

end VoltRec
