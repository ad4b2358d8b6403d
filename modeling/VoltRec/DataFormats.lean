import Mathlib.Data.Nat.Bitwise
import Mathlib.Tactic.Common

/-! Sizes and header macros of `full_custom/data_formats.h`, and the byte order of the headers. -/

namespace VoltRec

def nReadsDefault : Nat := 32 * 5
def nUdpBuffers : Nat := 10
def nFileBuffers : Nat := 20
def nFileBuffersAtATime : Nat := 6
def udpBufferSize : Nat := 1000000000
def fileBufferSize : Nat := 1000000000
def maxOrderMisses : Nat := 200

def timeIntPerBuffer : Nat := 128
/-- `x & ~(0x07f)` on a 64-bit word. -/
def getPacketFilter (x : Nat) : Nat := x &&& 0xffffffffffffff80
def getPacketRest (x : Nat) : Nat := x &&& 0x07f

def rxDataLen : Nat := 8192
def rxBuffLen : Nat := 8
def rxMsgLen : Nat := rxDataLen + rxBuffLen

theorem rxMsgLen_pos : 0 < rxMsgLen := by decide

def maxNoAnts : Nat := 4
def maxChannelPackets : Nat := 32

def samplesPerPacket : Nat := 16
def polsPerPacket : Nat := 2
def chansPerPacket : Nat := 256

def antNoMask : Nat := 0x003f
def chanNoMask : Nat := 0x0fff
def pcktNoMask : Nat := 0x03fffffffff
def voltVersionMask : Nat := 0x0080

def getAntNo (x : Nat) : Nat := x &&& antNoMask
def getChanNo (x : Nat) : Nat := (x >>> 6) &&& chanNoMask
def getPcktNo (x : Nat) : Nat := (x >>> 18) &&& pcktNoMask
def isVersionVolt (x : Nat) : Bool := ((x >>> 56) &&& voltVersionMask) != 0

/-- `INT_MAX` and `LONG_MAX` of the platform. -/
def intMax : Nat := 2 ^ 31 - 1
def longMax : Nat := 2 ^ 63 - 1

/-- A value stored into an `int`: its low 32 bits, read as a signed number. -/
def toInt (x : Int) : Int := x.bmod (2 ^ 32)

/-! ### The macros as arithmetic -/

theorem getAntNo_eq (x : Nat) : getAntNo x = x % 2 ^ 6 := Nat.and_two_pow_sub_one_eq_mod x 6

theorem getChanNo_eq (x : Nat) : getChanNo x = x / 2 ^ 6 % 2 ^ 12 := by
  rw [getChanNo, Nat.shiftRight_eq_div_pow]
  exact Nat.and_two_pow_sub_one_eq_mod _ 12

/-- `be64toh` of the eight bytes from `off` on. -/
def be64toh (m : Nat → UInt8) (off : Nat) : Nat :=
  (List.range 8).foldl (fun x j => x * 256 + (m (off + j)).toNat) 0

theorem getPcktNo_eq (x : Nat) : getPcktNo x = x / 2 ^ 18 % 2 ^ 38 := by
  rw [getPcktNo, Nat.shiftRight_eq_div_pow]
  exact Nat.and_two_pow_sub_one_eq_mod _ 38

theorem and_pcktNoMask (x : Nat) : x &&& pcktNoMask = x % 2 ^ 38 := Nat.and_two_pow_sub_one_eq_mod x 38

theorem getPacketRest_eq (x : Nat) : getPacketRest x = x % timeIntPerBuffer := Nat.and_two_pow_sub_one_eq_mod x 7

theorem getPacketFilter_eq {x : Nat} (h : x < 2 ^ 64) :
    getPacketFilter x = x / timeIntPerBuffer * timeIntPerBuffer := by
  have hmask : (0xffffffffffffff80 : Nat) = (2 ^ 57 - 1) <<< 7 := by decide
  apply Nat.eq_of_testBit_eq
  intro i
  rw [getPacketFilter, hmask, Nat.testBit_and, Nat.testBit_shiftLeft]
  show _ = (x / 2 ^ 7 * 2 ^ 7).testBit i
  rw [← Nat.shiftLeft_eq, Nat.testBit_shiftLeft, ← Nat.shiftRight_eq_div_pow, Nat.testBit_shiftRight]
  by_cases hi : 7 ≤ i
  · simp only [ge_iff_le, hi, decide_true, Bool.true_and, Nat.add_sub_cancel' hi, Nat.testBit_two_pow_sub_one]
    by_cases hi' : i - 7 < 57
    · simp [hi']
    · have : x < 2 ^ i := Nat.lt_of_lt_of_le h (Nat.pow_le_pow_right (by decide) (by omega))
      simp [Nat.testBit_lt_two_pow this]
  · simp [hi]

end VoltRec
