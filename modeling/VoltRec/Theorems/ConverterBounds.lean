import VoltRec.Theorems.FrameLoop

/-! What the converter does with headers of any contents. The antenna numbers are read before their count is checked,
    so they can run over. The count of channel packets is not checked at all; but a frame whose indices would not fit
    is longer than what one call of `read` moves, so `convert` never sees it. -/

namespace VoltRec

variable {nAnts nchans : Nat}

/-! ### The antenna numbers -/

/-- No byte goes to `antIDs[MAX_NO_ANTS]` or behind it. -/
def AntIDsInBounds (file : List UInt8) : Prop := ∀ x < antIDsStored file, x / 4 < maxNoAnts

theorem antIDsInBounds_iff (file : List UInt8) :
    AntIDsInBounds file ↔
      ∀ nAnts rest, readInt 4 file = .ok (nAnts, rest) → nAnts ≤ maxNoAnts ∨ rest.length ≤ 4 * maxNoAnts := by
  unfold AntIDsInBounds antIDsStored
  cases hread : readInt 4 file with
  | error e => simp
  | ok p =>
    obtain ⟨nAnts, rest⟩ := p
    simp only [maxNoAnts, maxRwCount]
    constructor
    · rintro h n r heq
      cases heq
      have := h 16
      omega
    · intro h x hx
      have := h nAnts rest rfl
      omega

/-! ### The indices of `convert` -/

/-- All indices of a frame are the places that they should be, and these lie in the buffers. -/
def InBounds (build : Build) (nAnts nchans : Nat) : Prop :=
  ∀ iK < nAnts, ∀ iL < nchans, ∀ iM < samplesPerPacket, ∀ iN < chansPerPacket * polsPerPacket,
    ∃ i o, indexin build nchans iK iL iM iN = some i ∧ indexout build nchans iL iM iN = some o ∧
      i = (iK * nchans + iL) * rxDataLen + (iM * (chansPerPacket * polsPerPacket) + iN) ∧
      i < inBufferLen nAnts nchans ∧
      o = build.bitsMultiplayer * ((iM * nchans + iL) * (chansPerPacket * polsPerPacket) + iN) ∧
      o + build.bitsMultiplayer ≤ build.outBufferLen nchans

theorem inBounds_fourBits (hn : nchans ≤ 2 ^ 18) (hA : (nAnts - 1) * nchans < 2 ^ 19) :
    InBounds .fourBits nAnts nchans := by
  intro iK hiK iL hiL iM hiM iN hiN
  have hlast : iK * nchans ≤ (nAnts - 1) * nchans := Nat.mul_le_mul_right _ (by omega)
  have hin := inBufferLen_gt hiK hiL hiM hiN
  have hout := outBufferLen_gt hiL hiM hiN
  have hmul : iK * (8192 * nchans) = iK * nchans * 8192 := by ring
  have hsample : iM * nchans ≤ 15 * nchans := Nat.mul_le_mul_right _ (by simp only [samplesPerPacket] at hiM; omega)
  refine ⟨(iK * nchans + iL) * rxDataLen + (iM * (chansPerPacket * polsPerPacket) + iN),
    (iM * nchans + iL) * (chansPerPacket * polsPerPacket) + iN, ?_, ?_, rfl, hin, (Nat.one_mul _).symm, hout⟩
  · rw [indexin, intMul, if_pos (by simp only [rxDataLen, intMax]; omega)]
    simp only [rxDataLen, polsPerPacket, chansPerPacket, hmul, Option.bind_eq_bind, Option.bind_some, Option.pure_def,
      Option.some.injEq]
    omega
  · rw [indexout, intMul, if_pos (by simp only [polsPerPacket, chansPerPacket, intMax]; omega)]
    simp only [polsPerPacket, chansPerPacket, Option.bind_eq_bind, Option.bind_some, Option.pure_def,
      Option.some.injEq]
    omega

theorem inBounds_eightBits (hn : nchans ≤ 2 ^ 18) (hA : nAnts * nchans ≤ 2 ^ 19) :
    InBounds .eightBits nAnts nchans := by
  intro iK hiK iL hiL iM hiM iN hiN
  have hfits : Build.eightBits.Fits nAnts nchans := by
    constructor
    · rw [inBufferLen_eq, rxDataLen]
      omega
    · simp only [Build.outBufferLen, Build.bitsMultiplayer, rxDataLen]
      omega
  have hin := inBufferLen_gt hiK hiL hiM hiN
  have hout := outBufferLen_gt hiL hiM hiN
  refine ⟨_, _, ?_, ?_, rfl, hin, rfl, ?_⟩
  · rw [indexin, intMul, if_pos (by simp only [rxDataLen, intMax]; omega)]
    exact congrArg some (indexin_eq hiK hiL hiM hiN hfits)
  · rw [indexout, intMul, if_pos (by simp only [polsPerPacket, chansPerPacket, intMax]; omega)]
    exact congrArg some (indexout_eq hiL hiM hiN hfits)
  · rw [outBufferLen_eightBits]
    show 2 * ((iM * nchans + iL) * 512 + iN) + 2 ≤ _
    omega

/-- A frame that one call of `read` moves is small enough for the arithmetic of both builds. -/
theorem inBounds_of_read (build : Build) (h : inBufferLen nAnts nchans ≤ maxRwCount) : InBounds build nAnts nchans := by
  rcases Nat.eq_zero_or_pos nAnts with rfl | hA
  · exact fun iK hiK => absurd hiK (Nat.not_lt_zero iK)
  rw [inBufferLen_eq, rxDataLen, maxRwCount] at h
  have hn : 1 * nchans ≤ nAnts * nchans := Nat.mul_le_mul_right _ hA
  have hlast : (nAnts - 1) * nchans ≤ nAnts * nchans := Nat.mul_le_mul_right _ (Nat.sub_le nAnts 1)
  cases build with
  | fourBits => exact inBounds_fourBits (by omega) (by omega)
  | eightBits => exact inBounds_eightBits (by omega) (by omega)

/-! ### Files -/

/-- The antenna numbers stay in `antIDs`, and all indices of a frame that is converted are in bounds. -/
def HandledInBounds (build : Build) (refused : OutName → Bool) (header : Option HeaderFile) (file : List UInt8)
    (datain : Nat → UInt8) (dataout : Nat → Nat → UInt8) : Prop :=
  AntIDsInBounds file ∧ ∀ h body, readHeader file = .ok (h, body) → ∀ n s,
    converterMain build refused header file datain dataout n = .ok s →
    inBufferLen h.nAnts h.nChanpkts ≤ s.readCount (inBufferLen h.nAnts h.nChanpkts) →
    InBounds build h.nAnts h.nChanpkts

/-- A file is handled within bounds if and only if there are no more antenna numbers in it than `antIDs` holds. -/
theorem handledInBounds_iff (build : Build) (refused : OutName → Bool) (header : Option HeaderFile)
    (file : List UInt8) (datain : Nat → UInt8) (dataout : Nat → Nat → UInt8) :
    HandledInBounds build refused header file datain dataout ↔
      ∀ nAnts rest, readInt 4 file = .ok (nAnts, rest) → nAnts ≤ maxNoAnts ∨ rest.length ≤ 4 * maxNoAnts := by
  rw [HandledInBounds, antIDsInBounds_iff]
  refine and_iff_left fun h body _ n s _ hfull => inBounds_of_read build (hfull.trans ?_)
  exact (Nat.min_le_left ..).trans (Nat.min_le_right ..)

/-- Five antenna numbers run over `antIDs` before they are found to be too many. -/
theorem fiveAntennas_overrun : ¬∀ (build : Build) (refused : OutName → Bool) (header : Option HeaderFile)
    (file : List UInt8) (datain : Nat → UInt8) (dataout : Nat → Nat → UInt8),
    HandledInBounds build refused header file datain dataout := by
  intro hall
  have hids := (hall .fourBits (fun _ => false) none (5 :: List.replicate 23 0) (fun _ => 0) fun _ _ => 0).1
  rw [antIDsInBounds_iff] at hids
  exact absurd (hids 5 (List.replicate 20 0) (by decide)) (by decide)

end VoltRec
