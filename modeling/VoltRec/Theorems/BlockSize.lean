import VoltRec.AtaObsInfo
import Mathlib.Order.Bounds.Basic
import Mathlib.Data.Nat.Log
import Mathlib.Tactic.Ring

/-! The size of a block. A block holds as many packet indices as fit, rounded down to a power of two. The bytes of
    one index are counted in 32 bits, so for enough antennas and channels the count is too low, or zero. -/

namespace VoltRec.VoltOuter

theorem prevpow2_spec {x : Nat} (hpos : 0 < x) (hlt : x < 2 ^ 32) :
    ∃ k, prevpow2 x = 2 ^ k ∧ 2 ^ k ≤ x ∧ x < 2 ^ (k + 1) := by
  have hne : x ≠ 0 := Nat.ne_of_gt hpos
  have hlog : x.log2 < 32 := (Nat.log2_lt hne).mpr hlt
  refine ⟨x.log2, ?_, Nat.log2_self_le hne, Nat.lt_log2_self⟩
  rw [prevpow2, if_neg hne, clz, Nat.shiftRight_eq_div_pow, show (0x80000000 : Nat) = 2 ^ 31 from rfl,
    Nat.pow_div (by omega) (by decide)]
  congr 1
  omega

/-- `n` is the largest power of two that has room `n` times in a block, or 0. -/
def LargestPow2 (unit blockSize n : Nat) : Prop :=
  if blockSize < unit then n = 0 else IsGreatest {m | (∃ k, m = 2 ^ k) ∧ m * unit ≤ blockSize} n

theorem largestPow2_prevpow2 {unit blockSize : Nat} (hpos : 0 < unit) (hlt : blockSize < 2 ^ 32) :
    LargestPow2 unit blockSize (prevpow2 (blockSize / unit)) ∧ prevpow2 (blockSize / unit) * unit ≤ blockSize ∧
      (prevpow2 (blockSize / unit) ≠ 0 → blockSize < 2 * (prevpow2 (blockSize / unit) * unit)) := by
  rcases Nat.lt_or_ge blockSize unit with hsmall | hbig
  · rw [Nat.div_eq_of_lt hsmall, LargestPow2, if_pos hsmall]
    simp [prevpow2]
  · have hdiv : blockSize / unit < 2 ^ 32 := Nat.lt_of_le_of_lt (Nat.div_le_self _ _) hlt
    obtain ⟨k, hk, hle, hgt⟩ := prevpow2_spec (Nat.div_pos hbig hpos) hdiv
    have hfit : 2 ^ k * unit ≤ blockSize := (Nat.le_div_iff_mul_le hpos).mp hle
    have hhalf : blockSize < 2 ^ (k + 1) * unit := (Nat.div_lt_iff_lt_mul hpos).mp hgt
    rw [hk, LargestPow2, if_neg (Nat.not_lt.mpr hbig)]
    refine ⟨⟨⟨⟨k, rfl⟩, hfit⟩, ?_⟩, hfit, fun _ => ?_⟩
    · rintro _ ⟨⟨j, rfl⟩, hj⟩
      have hjk : 2 ^ j < 2 ^ (k + 1) := Nat.lt_of_le_of_lt ((Nat.le_div_iff_mul_le hpos).mpr hj) hgt
      exact Nat.pow_le_pow_right (by decide) (Nat.lt_succ_iff.mp ((Nat.pow_lt_pow_iff_right (by decide)).mp hjk))
    · rwa [Nat.pow_succ', Nat.mul_assoc] at hhalf

/-- The bytes of one packet index. -/
def unit (info : AtaObsInfo) : Nat := 8192 * info.nants * info.nchan

theorem bytesPerPktidx_eq (info : AtaObsInfo) : bytesPerPktidx info = unit info % 2 ^ 32 := by
  rw [bytesPerPktidx, unit]
  congr 1
  simp only [samplesPerPacket, polsPerPacket, chansPerPacket, bytesPerComplexSample]
  ring

/-- The two functions give the largest power of two and the bytes that it takes up, more than half of the block. -/
def Sized (blockSize : Nat) (info : AtaObsInfo) : Prop :=
  ∃ n, ataPktidxPerBlock blockSize info = some n ∧ ataBlockSize blockSize info = some (n * unit info) ∧
    LargestPow2 (unit info) blockSize n ∧ n * unit info ≤ blockSize ∧
    (n * unit info ≠ 0 → blockSize < 2 * (n * unit info))

theorem ataPktidxPerBlock_eq {blockSize : Nat} (info : AtaObsInfo) (hlt : blockSize < 2 ^ 32)
    (hne : bytesPerPktidx info ≠ 0) :
    ataPktidxPerBlock blockSize info = some (prevpow2 (blockSize / bytesPerPktidx info)) := by
  rw [ataPktidxPerBlock, if_neg hne, Nat.mod_eq_of_lt (Nat.lt_of_le_of_lt (Nat.div_le_self _ _) hlt)]

/-- A block is sized right if and only if the bytes of one index are less than 2^32, or a block is smaller than
    what is left of them. -/
theorem sized_iff (blockSize : Nat) (info : AtaObsInfo) (hlt : blockSize < 2 ^ 32) (hants : 1 ≤ info.nants)
    (hchan : info.nchan ≠ 0) : Sized blockSize info ↔ unit info < 2 ^ 32 ∨ blockSize < unit info % 2 ^ 32 := by
  have hunit : 0 < unit info := Nat.mul_pos (Nat.mul_pos (by decide) hants) (Nat.pos_of_ne_zero hchan)
  have hbytes := bytesPerPktidx_eq info
  constructor
  · rintro ⟨n, hn, -, hlargest, -⟩
    by_contra hcon
    obtain ⟨hbig, hroom⟩ := not_or.mp hcon
    have hne : bytesPerPktidx info ≠ 0 := fun h0 => by
      rw [ataPktidxPerBlock, if_pos h0] at hn
      cases hn
    rw [ataPktidxPerBlock_eq info hlt hne] at hn
    rw [LargestPow2, if_pos (by omega)] at hlargest
    -- The code divides by a smaller number, of which there is room in the block.
    have hpos : 0 < blockSize / bytesPerPktidx info := Nat.div_pos (by omega) (Nat.pos_of_ne_zero hne)
    obtain ⟨k, hk, -⟩ := prevpow2_spec hpos (Nat.lt_of_le_of_lt (Nat.div_le_self _ _) hlt)
    have h2 : 0 < 2 ^ k := Nat.two_pow_pos k
    have hn' := Option.some.inj hn
    omega
  · rintro (hsmall | hroom)
    · rw [Nat.mod_eq_of_lt hsmall] at hbytes
      obtain ⟨hlargest, hle, hhalf⟩ := largestPow2_prevpow2 hunit hlt
      have hn := ataPktidxPerBlock_eq info hlt (by omega)
      refine ⟨_, hn, ?_, hbytes ▸ hlargest, hbytes ▸ hle, fun hne => ?_⟩
      · rw [ataBlockSize, hn, Option.map_some, hbytes, Nat.mod_eq_of_lt (Nat.lt_of_le_of_lt hle hlt)]
      · rw [hbytes] at hne ⊢
        exact hhalf fun h0 => hne (by rw [h0, Nat.zero_mul])
    · have hn := ataPktidxPerBlock_eq info hlt (by omega)
      rw [hbytes, Nat.div_eq_of_lt hroom] at hn
      have hle := Nat.mod_le (unit info) (2 ^ 32)
      refine ⟨0, hn, ?_, ?_, by omega, fun hne => absurd (Nat.zero_mul _) hne⟩
      · rw [ataBlockSize, hn]
        simp [prevpow2]
      · rw [LargestPow2, if_pos (by omega)]

theorem sized_kilochannel :
    Sized (128 * 1024 * 1024) ⟨1024, 1, 0, []⟩ ↔
      unit ⟨1024, 1, 0, []⟩ < 2 ^ 32 ∨ 128 * 1024 * 1024 < unit ⟨1024, 1, 0, []⟩ % 2 ^ 32 :=
  sized_iff _ _ (by decide) (by decide) (by decide)

/-- For 2^19 channels the bytes of one index are 2^32, and the division is by zero. -/
theorem manyChannels_not_sized : ¬∀ (blockSize : Nat) (info : AtaObsInfo), blockSize < 2 ^ 32 → 1 ≤ info.nants →
    info.nants ≤ maxants → info.nchan ≠ 0 → info.nchan < 2 ^ 32 → Sized blockSize info := by
  intro h
  obtain ⟨n, hn, -⟩ := h (128 * 1024 * 1024) ⟨2 ^ 19, 1, 0, []⟩ (by decide) (by decide) (by decide) (by decide)
    (by decide)
  rw [ataPktidxPerBlock, if_pos (by decide)] at hn
  cases hn

end VoltRec.VoltOuter
