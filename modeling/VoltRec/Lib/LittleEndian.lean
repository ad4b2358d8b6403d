import Mathlib.Algebra.Group.Nat.Defs
import Mathlib.Tactic.Common

/-! Unsigned integers in memory, least significant byte first. -/

namespace LittleEndian

def encode : Nat → Nat → List UInt8
  | 0, _ => []
  | len + 1, x => UInt8.ofNat x :: encode len (x / 256)

def decode (bytes : List UInt8) : Nat := bytes.foldr (fun b x => b.toNat + 256 * x) 0

@[simp] theorem length_encode (len x : Nat) : (encode len x).length = len := by
  induction len generalizing x with
  | zero => rfl
  | succ len ih => simp [encode, ih]

theorem decode_encode (len x : Nat) : decode (encode len x) = x % 256 ^ len := by
  induction len generalizing x with
  | zero => simp [encode, decode, Nat.mod_one]
  | succ len ih =>
    have hcons : decode (encode (len + 1) x) = x % 256 + 256 * decode (encode len (x / 256)) := by
      simp [encode, decode]
    rw [hcons, ih, Nat.pow_succ', Nat.mod_mul]

theorem decode_encode_of_lt {len x : Nat} (h : x < 256 ^ len) : decode (encode len x) = x := by
  rw [decode_encode, Nat.mod_eq_of_lt h]

end LittleEndian
