import VoltRec.Theorems.Cells
import VoltRec.Converter
import VoltRec.Lib.Loop

/-! One frame of the converter without the eight-bit option: the samples of a packet time follow one another, and
    the channel packets of a sample stand side by side. -/

namespace VoltRec

variable {nAnts nchans a c s b : Nat}

/-! ### Offsets -/

/-- Unsigned numbers of 32 bits reach every place of a frame and of the output buffers. -/
structure Build.Fits (build : Build) (nAnts nchans : Nat) : Prop where
  inBuffer : inBufferLen nAnts nchans ≤ 2 ^ 32
  outBuffer : build.outBufferLen nchans ≤ 2 ^ 32

theorem inBufferLen_eq (nAnts nchans : Nat) : inBufferLen nAnts nchans = nAnts * nchans * rxDataLen := by
  rw [inBufferLen]
  ring

theorem outBufferLen_eq (build : Build) (nchans : Nat) :
    build.outBufferLen nchans = build.bitsMultiplayer * (samplesPerPacket * nchans * 512) := by
  simp only [Build.outBufferLen, rxDataLen, samplesPerPacket]
  ring

theorem inBufferLen_gt (ha : a < nAnts) (hc : c < nchans) (hs : s < samplesPerPacket) (hb : b < 512) :
    (a * nchans + c) * rxDataLen + (s * 512 + b) < inBufferLen nAnts nchans := by
  rw [inBufferLen_eq]
  exact Radix.lt_mul (Radix.lt_mul ha hc) (Radix.lt_mul hs hb)

theorem outBufferLen_gt (hc : c < nchans) (hs : s < samplesPerPacket) (hb : b < 512) :
    (s * nchans + c) * 512 + b < Build.fourBits.outBufferLen nchans := by
  rw [outBufferLen_eq, Build.bitsMultiplayer, Nat.one_mul]
  exact Radix.lt_mul (Radix.lt_mul hs hc) hb

theorem outBufferLen_eightBits (nchans : Nat) :
    Build.eightBits.outBufferLen nchans = 2 * Build.fourBits.outBufferLen nchans := by
  simp only [Build.outBufferLen, Build.bitsMultiplayer]
  omega

section Places
variable (ha : a < nAnts) (hc : c < nchans) (hs : s < samplesPerPacket) (hb : b < 512)

include hc hs in
theorem outOffset_eq (h : Build.fourBits.Fits nAnts nchans) : outOffset nchans c s = (s * nchans + c) * 512 := by
  have hlt := outBufferLen_gt (b := 0) hc hs (by decide)
  have hle := h.outBuffer
  simp only [outOffset, polsPerPacket, chansPerPacket]
  omega

include ha hc in
theorem inOffset_eq (h : Build.fourBits.Fits nAnts nchans) :
    inOffset nchans a c s = (a * nchans + c) * rxDataLen + s * 512 := by
  have hlt := inBufferLen_gt (s := 0) (b := 0) ha hc (by decide) (by decide)
  have hle := h.inBuffer
  have hmul : a * (8192 * nchans) = a * nchans * 8192 := by ring
  simp only [rxDataLen] at hlt
  simp only [inOffset, rxDataLen, polsPerPacket, chansPerPacket, hmul]
  omega

include ha hc hs hb in
theorem indexin_eq (h : Build.eightBits.Fits nAnts nchans) :
    (a * (rxDataLen * nchans) + c * rxDataLen + s * polsPerPacket * chansPerPacket + b) % 2 ^ 32 =
      (a * nchans + c) * rxDataLen + (s * 512 + b) := by
  have hlt := inBufferLen_gt ha hc hs hb
  have hle := h.inBuffer
  have hmul : a * (8192 * nchans) = a * nchans * 8192 := by ring
  simp only [rxDataLen] at hlt
  simp only [rxDataLen, polsPerPacket, chansPerPacket, hmul]
  omega

include hc hs hb in
theorem indexout_eq (h : Build.eightBits.Fits nAnts nchans) :
    2 * (c * polsPerPacket * chansPerPacket + s * nchans * polsPerPacket * chansPerPacket + b) % 2 ^ 32 =
      2 * ((s * nchans + c) * 512 + b) := by
  have hlt := outBufferLen_gt hc hs hb
  have hle := outBufferLen_eightBits nchans ▸ h.outBuffer
  simp only [polsPerPacket, chansPerPacket]
  omega

end Places

/-! ### One frame -/

section Frame
variable {build : Build} {datain : Nat → UInt8} (ha : a < nAnts) (hc : c < nchans) (hs : s < samplesPerPacket)
  (hb : b < 512)

include ha hc hs in
/-- Only the pass for the antenna, the channel packet and the sample of a place touches it. -/
theorem convert_place {x : Nat} {v : UInt8} (hset : ∀ m, convertSample build datain nchans a c s m x = v)
    (hkeep : ∀ iL < nchans, ∀ iM < samplesPerPacket, ¬(iL = c ∧ iM = s) →
      ∀ m, convertSample build datain nchans a iL iM m x = m x) (dataout : Nat → Nat → UInt8) :
    convert build datain dataout nAnts nchans a x = v := by
  let view : (Nat → Nat → UInt8) → UInt8 := fun dataout => dataout a x
  have hmem : ∀ {i n : Nat}, i ∈ List.range n → i < n := List.mem_range.mp
  refine Loop.foldl_set view (List.mem_range.mpr ha) (fun m => ?_) (fun iK _ hiK m => ?_) dataout
  · refine Loop.foldl_set view (List.mem_range.mpr hc) (fun m => ?_) (fun iL hiL hne m => ?_) m
    · refine Loop.foldl_set view (List.mem_range.mpr hs) (fun m => ?_) (fun iM hiM hne m => ?_) m
      · show Function.update m a _ a _ = _
        rw [Function.update_self, hset]
      · show Function.update m a _ a _ = _
        rw [Function.update_self, hkeep c hc iM (hmem hiM) fun h => hne h.2]
    · refine Loop.foldl_keep view (fun iM hiM m => ?_) m
      show Function.update m a _ a _ = _
      rw [Function.update_self, hkeep iL (hmem hiL) iM (hmem hiM) fun h => hne h.1]
  · refine Loop.foldl_keep view (fun iL _ m => Loop.foldl_keep view (fun iM _ m => ?_) m) m
    show Function.update m iK _ a _ = _
    rw [Function.update_of_ne (Ne.symm hiK)]

include hc hb in
/-- Different samples do not share a place of the output. -/
theorem outPlace_ne {iL iM b' : Nat} (hiL : iL < nchans) (hb' : b' < 512) (hne : ¬(iL = c ∧ iM = s)) :
    (s * nchans + c) * 512 + b ≠ (iM * nchans + iL) * 512 + b' := by
  intro h
  obtain ⟨h1, -⟩ := Radix.inj hb hb' h
  obtain ⟨h2, h3⟩ := Radix.inj hc hiL h1
  exact hne ⟨h3.symm, h2.symm⟩

include ha hc hs hb in
/-- A byte of the output of antenna `a`, whatever the output buffers held before. -/
theorem convert_cell (h : Build.fourBits.Fits nAnts nchans) (dataout : Nat → Nat → UInt8) :
    convert .fourBits datain dataout nAnts nchans a ((s * nchans + c) * 512 + b) =
      datain ((a * nchans + c) * rxDataLen + (s * 512 + b)) := by
  refine convert_place ha hc hs (fun m => ?_) (fun iL hiL iM hiM hne m => ?_) dataout
  · rw [← outOffset_eq hc hs h, ← Nat.add_assoc, ← inOffset_eq ha hc h]
    simp only [convertSample]
    exact Memory.copy_add (⟨b, hb⟩ : Fin (chansPerPacket * polsPerPacket))
  · simp only [convertSample]
    refine Memory.copy_of_not_mem ?_
    rw [outOffset_eq hiL hiM h]
    refine Radix.disjoint hb fun heq => hne ?_
    obtain ⟨h1, h2⟩ := Radix.inj hc hiL heq
    exact ⟨h2.symm, h1.symm⟩

end Frame

end VoltRec
