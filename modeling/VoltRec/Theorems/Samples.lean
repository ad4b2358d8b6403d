import VoltRec.Theorems.FrameLoop

/-! From the blocks of the recorder to the samples in the output files. The place of a packet in a block, the frames
    that the loop reads and the strides of `convert` compose to one transposition. -/

namespace VoltRec

/-! ### Places -/

/-- A block of the recorder: the payload for packet `r`, antenna `a` and channel packet `c` is where the
    packet loop puts it. -/
def LaidOut (cfg : Config) (bytes : List UInt8) (payload : Nat → Nat → Nat → Fin rxDataLen → UInt8) : Prop :=
  bytes.length = cfg.dataLenOut ∧ ∀ r < timeIntPerBuffer, ∀ a < cfg.nAnts, ∀ c < cfg.nchans, ∀ j : Fin rxDataLen,
    bytes[cfg.offset r a c + j]? = some (payload r a c j)

/-- The byte of a payload that belongs to byte `b` of sample `i`: 256 channels of two polarisations each. -/
def sampleByte (i : Fin samplesPerPacket) (b : Fin (chansPerPacket * polsPerPacket)) : Fin rxDataLen :=
  ⟨i * (chansPerPacket * polsPerPacket) + b, Radix.lt_mul i.2 b.2⟩

/-- The place of that byte in the output: by packet time, sample, channel packet. -/
def outPlace (nchans T i c b : Nat) : Nat :=
  ((T * samplesPerPacket + i) * nchans + c) * (chansPerPacket * polsPerPacket) + b

theorem laidOut_slice (cfg : Config) (m : Nat → UInt8) :
    LaidOut cfg (Memory.slice m 0 cfg.dataLenOut) fun r a c j => m (cfg.offset r a c + j) := by
  refine ⟨Memory.length_slice, fun r hr a ha c hc j => ?_⟩
  have hlt : cfg.offset r a c + j < cfg.dataLenOut := by
    rw [cfg.offset_eq hr ha hc, cfg.dataLenOut_eq]
    exact Radix.lt_mul (cfg.cell_lt hr ha hc) j.2
  rw [Memory.getElem?_slice hlt, Nat.zero_add]

/-- The frames of a body are the packet times of its blocks. -/
theorem body_getElem? {cfg : Config} {f : File} {payload : Nat → Nat → Nat → Fin rxDataLen → UInt8}
    (h : ∀ k block, f.blocks[k]? = some block →
      LaidOut cfg block.bytes fun r => payload (k * timeIntPerBuffer + r)) {T a c : Nat}
    (hT : T < f.blocks.length * timeIntPerBuffer) (ha : a < cfg.nAnts) (hc : c < cfg.nchans) (j : Fin rxDataLen) :
    f.body[T * inBufferLen cfg.nAnts cfg.nchans + ((a * cfg.nchans + c) * rxDataLen + j)]? =
      some (payload T a c j) := by
  obtain ⟨k, r, hk, hr, rfl⟩ := Radix.exists_digits hT
  have hget : f.blocks[k]? = some f.blocks[k] := List.getElem?_eq_getElem hk
  have hlen : ∀ block ∈ f.blocks, block.bytes.length = cfg.dataLenOut := by
    intro block hblock
    obtain ⟨i, hi⟩ := List.getElem?_of_mem hblock
    exact (h i block hi).1
  have hoff := cfg.offset_eq hr ha hc
  have hlt : cfg.offset r a c + j < cfg.dataLenOut := by
    rw [hoff, cfg.dataLenOut_eq]
    exact Radix.lt_mul (cfg.cell_lt hr ha hc) j.2
  have hplace : (k * timeIntPerBuffer + r) * inBufferLen cfg.nAnts cfg.nchans +
      ((a * cfg.nchans + c) * rxDataLen + j) = k * cfg.dataLenOut + (cfg.offset r a c + j) := by
    rw [hoff, cfg.dataLenOut_eq, inBufferLen, Config.cell]
    ring
  rw [hplace, File.body, Radix.getElem?_flatMap hlen hget hlt]
  exact (h k _ hget).2 r hr a ha c hc j

theorem body_length {cfg : Config} {f : File} {payload : Nat → Nat → Nat → Fin rxDataLen → UInt8}
    (h : ∀ k block, f.blocks[k]? = some block →
      LaidOut cfg block.bytes fun r => payload (k * timeIntPerBuffer + r)) :
    f.body.length = f.blocks.length * timeIntPerBuffer * inBufferLen cfg.nAnts cfg.nchans := by
  have hlen : ∀ block ∈ f.blocks, block.bytes.length = cfg.dataLenOut := by
    intro block hblock
    obtain ⟨i, hi⟩ := List.getElem?_of_mem hblock
    exact (h i block hi).1
  rw [File.body, Radix.length_flatMap hlen, cfg.dataLenOut_eq, inBufferLen]
  ring

/-- Every place of the output belongs to one byte. -/
theorem outPlace_unique {frames nchans x : Nat} (hx : x < rxDataLen * nchans * frames) :
    ∃! p : Fin frames × Fin samplesPerPacket × Fin nchans × Fin (chansPerPacket * polsPerPacket),
      outPlace nchans p.1 p.2.1 p.2.2.1 p.2.2.2 = x := by
  have hx' : x < frames * samplesPerPacket * nchans * (chansPerPacket * polsPerPacket) := by
    calc x < rxDataLen * nchans * frames := hx
      _ = frames * samplesPerPacket * nchans * (chansPerPacket * polsPerPacket) := by
        simp only [rxDataLen, samplesPerPacket, chansPerPacket, polsPerPacket]
        ring
  obtain ⟨y, b, hy, hb, rfl⟩ := Radix.exists_digits hx'
  obtain ⟨z, c, hz, hc, rfl⟩ := Radix.exists_digits hy
  obtain ⟨T, i, hT, hi, rfl⟩ := Radix.exists_digits hz
  refine ⟨⟨⟨T, hT⟩, ⟨i, hi⟩, ⟨c, hc⟩, ⟨b, hb⟩⟩, rfl, ?_⟩
  rintro ⟨T', i', c', b'⟩ heq
  obtain ⟨h1, hb'⟩ := Radix.inj b'.2 hb heq
  obtain ⟨h2, hc'⟩ := Radix.inj c'.2 hc h1
  obtain ⟨hT', hi'⟩ := Radix.inj i'.2 hi h2
  exact Prod.ext (Fin.ext hT') (Prod.ext (Fin.ext hi') (Prod.ext (Fin.ext hc') (Fin.ext hb')))

/-! ### Outputs -/

section
variable {cfg : Config} {f : File} {payload : Nat → Nat → Nat → Fin rxDataLen → UInt8}

theorem inOneCall_of_lt (hA : cfg.nAnts < maxNoAnts) : Build.fourBits.InOneCall cfg.nAnts cfg.nchans := by
  obtain ⟨-, -, -, hn⟩ := cfg.nAnts_pos
  simp only [maxNoAnts] at hA
  constructor
  · calc inBufferLen cfg.nAnts cfg.nchans ≤ rxDataLen * 4 * 32 :=
          Nat.mul_le_mul (Nat.mul_le_mul (Nat.le_refl _) hA.le) hn
      _ ≤ maxRwCount := by decide
  · calc Build.fourBits.outBufferLen cfg.nchans ≤ rxDataLen * 32 * 1 :=
          Nat.mul_le_mul (Nat.mul_le_mul (Nat.le_refl _) hn) (Nat.le_refl _)
      _ ≤ maxRwCount := by decide

theorem frame_pos (cfg : Config) : 0 < inBufferLen cfg.nAnts cfg.nchans := by
  obtain ⟨hA, -, hn, -⟩ := cfg.nAnts_pos
  exact inBufferLen_pos.mpr ⟨hA, hn⟩

/-- The output of antenna `a`: the payloads of `frames` packet times by time, sample and channel packet, each byte
    at one place. -/
structure Transposed (cfg : Config) (frames : Nat) (payload : Nat → Nat → Nat → Fin rxDataLen → UInt8) (a : Nat)
    (out : List UInt8) : Prop where
  length : out.length = rxDataLen * cfg.nchans * frames
  cells : ∀ T < frames, ∀ i : Fin samplesPerPacket, ∀ c < cfg.nchans, ∀ b : Fin (chansPerPacket * polsPerPacket),
    out[outPlace cfg.nchans T i c b]? = some (payload T a c (sampleByte i b))
  unique : ∀ x < out.length,
    ∃! p : Fin frames × Fin samplesPerPacket × Fin cfg.nchans × Fin (chansPerPacket * polsPerPacket),
      outPlace cfg.nchans p.1 p.2.1 p.2.2.1 p.2.2.2 = x

variable (h : ∀ k block, f.blocks[k]? = some block →
  LaidOut cfg block.bytes fun r => payload (k * timeIntPerBuffer + r))
include h

theorem body_frames : f.body.length / inBufferLen cfg.nAnts cfg.nchans = f.blocks.length * timeIntPerBuffer := by
  rw [body_length h, Nat.mul_div_cancel _ (frame_pos cfg)]

theorem transposed_convertedData (hA : cfg.nAnts < maxNoAnts) (dataout : Nat → Nat → UInt8) {a : Nat}
    (ha : a < cfg.nAnts) :
    Transposed cfg (f.blocks.length * timeIntPerBuffer) payload a
      (convertedData .fourBits cfg.nAnts cfg.nchans f.body dataout a) := by
  have hlen : (convertedData .fourBits cfg.nAnts cfg.nchans f.body dataout a).length =
      rxDataLen * cfg.nchans * (f.blocks.length * timeIntPerBuffer) := by
    rw [length_convertedData, body_frames h, Build.outBufferLen, Build.bitsMultiplayer]
    ring
  refine ⟨hlen, fun T hT i c hc b => ?_, fun x hx => outPlace_unique (hlen ▸ hx)⟩
  have hlt := outBufferLen_gt hc i.2 b.2
  have hplace : outPlace cfg.nchans T i c b =
      T * Build.fourBits.outBufferLen cfg.nchans + ((i * cfg.nchans + c) * 512 + b) := by
    simp only [outPlace, Build.outBufferLen, Build.bitsMultiplayer, rxDataLen, samplesPerPacket, chansPerPacket,
      polsPerPacket]
    ring
  rw [hplace, convertedData, Radix.getElem?_flatMap (fun _ _ => length_convertedFrame ..)
    (List.getElem?_range ((body_frames h).symm ▸ hT)) hlt, convertedFrame, Memory.getElem?_slice hlt, Nat.zero_add,
    convert_cell ha hc i.2 b.2 (inOneCall_of_lt hA).fits, List.getD_eq_getElem?_getD]
  exact congrArg (some ∘ (Option.getD · 0)) (body_getElem? h hT ha hc (sampleByte i b))

/-- The frame loop ends, with the transposed payloads behind what the outputs had. -/
theorem frameLoop_transposed (hA : cfg.nAnts < maxNoAnts) (datain : Nat → UInt8) (dataout : Nat → Nat → UInt8)
    (out : Nat → Option (List UInt8)) :
    ∃ s, (∀ n, f.blocks.length * timeIntPerBuffer < n →
        Conversion.frameLoop .fourBits cfg.nAnts cfg.nchans n ⟨f.body, datain, dataout, out⟩ = .error (.done s)) ∧
      ∀ a < cfg.nAnts, ∃ data, Transposed cfg (f.blocks.length * timeIntPerBuffer) payload a data ∧
        s.out a = (out a).map (· ++ data) := by
  obtain ⟨t, ht, hend, hout⟩ := Conversion.frameLoop_ends (inOneCall_of_lt hA) (frame_pos cfg) dataout
    ⟨f.body, datain, dataout, out⟩
  exact ⟨_, fun n hn => Loop.passes_ends ht hend ((body_frames h).trans_lt hn), fun a ha =>
    ⟨_, transposed_convertedData h hA dataout ha, hout a ha⟩⟩

end

/-- The output of each antenna holds the bytes of its payloads, each once. -/
theorem converted (cfg : Config) (hA : cfg.nAnts < maxNoAnts) (f : File)
    (payload : Nat → Nat → Nat → Fin rxDataLen → UInt8)
    (h : ∀ k block, f.blocks[k]? = some block →
      LaidOut cfg block.bytes fun r => payload (k * timeIntPerBuffer + r))
    (datain : Nat → UInt8) (dataout : Nat → Nat → UInt8) (n : Nat) (hn : f.blocks.length * timeIntPerBuffer < n) :
    ∃ s, Conversion.frameLoop .fourBits cfg.nAnts cfg.nchans n ⟨f.body, datain, dataout, fun _ => some []⟩ =
        .error (.done s) ∧
      ∀ a < cfg.nAnts, ∃ out, s.out a = some out ∧
        Transposed cfg (f.blocks.length * timeIntPerBuffer) payload a out := by
  obtain ⟨s, hloop, hout⟩ := frameLoop_transposed h hA datain dataout fun _ => some []
  refine ⟨s, hloop n hn, fun a ha => ?_⟩
  obtain ⟨data, hdata, hs⟩ := hout a ha
  exact ⟨data, hs, hdata⟩

/-- Two antennas and two channel packets. -/
def twoByTwo : Config := ⟨2, 2, 0, rfl, Nat.two_pow_pos 32⟩

/-- A file of one block, with the numbers of the packets' samples. -/
def countingFile : File where
  consecFile := 0
  header := { nAnts := 2, antNumbers := [1, 2], nchans := 2, firstChan := 0, packetStart := 0 }
  blocks := [{ order := 1, bytes := Memory.slice (fun x => Nat.toUInt8 (x / 512)) 0 twoByTwo.dataLenOut }]

theorem converted_countingFile :
    ∃ s, Conversion.frameLoop .fourBits 2 2 129 ⟨countingFile.body, fun _ => 0, fun _ _ => 0, fun _ => some []⟩ =
        .error (.done s) ∧
      ∃ out, s.out 1 = some out ∧ out.length = 8192 * 2 * 128 ∧ out[outPlace 2 1 2 1 3]? = some 114 := by
  have hlaid : ∀ k block, countingFile.blocks[k]? = some block → LaidOut twoByTwo block.bytes
      fun r a c j => Nat.toUInt8 ((twoByTwo.offset (k * timeIntPerBuffer + r) a c + j) / 512) := by
    intro k block hblock
    obtain ⟨rfl, rfl⟩ : k = 0 ∧
        block = ⟨1, Memory.slice (fun x => Nat.toUInt8 (x / 512)) 0 twoByTwo.dataLenOut⟩ := by
      cases k with
      | zero => exact ⟨rfl, (Option.some.inj hblock).symm⟩
      | succ k => simp [countingFile] at hblock
    simpa using laidOut_slice twoByTwo fun x => Nat.toUInt8 (x / 512)
  obtain ⟨s, hloop, hout⟩ := converted twoByTwo (by decide) countingFile
    (fun T a c j => Nat.toUInt8 ((twoByTwo.offset T a c + j) / 512)) hlaid (fun _ => 0) (fun _ _ => 0) 129 (by decide)
  obtain ⟨out, hs, hdata⟩ := hout 1 (by decide)
  have hplace : (twoByTwo.offset 1 1 1 + 1027) / 512 = 114 := by decide
  have hcell := hdata.cells 1 (by decide) ⟨2, by decide⟩ 1 (by decide) ⟨3, by decide⟩
  exact ⟨s, hloop, out, hs, hdata.length, hcell.trans (congrArg (fun x => some (Nat.toUInt8 x)) hplace)⟩

end VoltRec
