import VoltRec.Common
import VoltRec.FileThread

/-! The main loop of `file_writer_work` on its pool, once `keep_going` is 0 and no other thread uses the
    pool: every call is then one update, and the two updates of `returnBuffer` are not interrupted. -/

namespace VoltRec

/-- `fetchBuffer`; no buffer is the result -1. -/
def UdpBuff.fetchBuffer (s : UdpBuff) : UdpBuff × Option Fetched :=
  match s.fetchBufferWait with
  | none => (s, none)
  | some s =>
    match s.fetchBufferTake with
    | none => (s, none)
    | some (s, index, order, dataLen) =>
      -- `findLowest` finds positive orders only.
      (s, if pos : 0 < order.toNat then
          some { index := index, order := order.toNat, dataLen := dataLen, data := s.data index, pos := pos }
        else none)

/-- The call that gives the buffer back; `none` is the exit `data integrity!`. -/
def Outcome.giveBack (pool : UdpBuff) : Outcome → Option UdpBuff
  | .discarded index => pool.returnEmptyBuffer index
  | .putBack index order dataLen => (pool.returnBufferData index order dataLen).map UdpBuff.returnBufferReady
  | .written index => pool.returnEmptyBuffer index

/-- The file thread and the pool that it empties. -/
structure Drain where
  pool : UdpBuff
  writer : FileWriter

namespace Drain

/-- The body of the main loop; `none` is the exit `data integrity!`. -/
def pass (s : Drain) : Option Drain :=
  match s.pool.fetchBuffer with
  | (pool, none) => some { s with pool := pool }
  | (pool, some b) => do
    let writer := s.writer.pass b
    let outcome ← writer.log.getLast?
    let pool ← outcome.giveBack pool
    some { pool := pool, writer := writer }

/-- `while (keep_going || anyBufFull(..))`, with at most `fuel` passes. -/
def loop : Nat → Drain → Option Drain
  | 0, _ => none
  | fuel + 1, s => if s.pool.anyBufFull = 0 then some s else s.pass.bind (loop fuel)

end Drain

end VoltRec
