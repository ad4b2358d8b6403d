import VoltRec.Theorems.Converter

/-! The eight-bit build of the converter. It spreads each byte of the four-bit build over two, the real part in
    front; both parts are the nibbles of the byte with their signs extended. -/

namespace VoltRec

variable {nAnts nchans a c s b : Nat}

/-! ### Nibbles -/

/-- The high four bits as a two's-complement number. -/
def highNibble (v : UInt8) : Int := (v.toNat / 16 : Int).bmod 16

/-- The low four bits as a two's-complement number. -/
def lowNibble (v : UInt8) : Int := (v.toNat % 16 : Int).bmod 16

theorem nibble_bounds (x : Int) : -8 ≤ x.bmod 16 ∧ x.bmod 16 ≤ 7 := by
  have hle := Int.le_bmod (x := x) (m := 16) (by decide)
  have hlt := Int.bmod_lt (x := x) (m := 16) (by decide)
  omega

/-- The four-bit sample of two parts. -/
def pack (datare dataim : Int8) : UInt8 := datare.toUInt8 <<< 4 ||| dataim.toUInt8 &&& 0x0f

theorem unpack_ofNat : ∀ n : Fin 256,
    (unpack (UInt8.ofNat n).toInt8).1.toInt = highNibble (UInt8.ofNat n) ∧
      (unpack (UInt8.ofNat n).toInt8).2.toInt = lowNibble (UInt8.ofNat n) ∧
      pack (unpack (UInt8.ofNat n).toInt8).1 (unpack (UInt8.ofNat n).toInt8).2 = UInt8.ofNat n := by
  decide +kernel

theorem unpack_spec (v : UInt8) :
    (unpack v.toInt8).1.toInt = highNibble v ∧ (unpack v.toInt8).2.toInt = lowNibble v ∧
      pack (unpack v.toInt8).1 (unpack v.toInt8).2 = v := by
  have h := unpack_ofNat ⟨v.toNat, v.toNat_lt⟩
  rwa [UInt8.ofNat_toNat] at h

/-! ### One frame -/

/-- What the eight-bit build makes of a byte at the first place (`e = 0`) and at the second. -/
def part (v : UInt8) (e : Nat) : UInt8 :=
  if e = 0 then (unpack v.toInt8).1.toUInt8 else (unpack v.toInt8).2.toUInt8

section Frame
variable {datain : Nat → UInt8} (ha : a < nAnts) (hc : c < nchans) (hs : s < samplesPerPacket) (hb : b < 512) {e : Nat}
  (he : e < 2)

include he in
/-- The body of the loop over `iN` sets the two places of its byte and no other. -/
theorem update_parts (m : Nat → UInt8) (v : UInt8) (i : Nat) :
    Function.update (Function.update m (2 * i) (unpack v.toInt8).1.toUInt8) (2 * i + 1) (unpack v.toInt8).2.toUInt8
      (2 * i + e) = part v e := by
  obtain rfl | rfl : e = 0 ∨ e = 1 := by omega
  · rw [Function.update_of_ne (by omega), Nat.add_zero, Function.update_self, part, if_pos rfl]
  · rw [Function.update_self, part, if_neg Nat.one_ne_zero]

include he in
theorem update_parts_of_ne (m : Nat → UInt8) (v v' : UInt8) {i j : Nat} (hne : j ≠ i) :
    Function.update (Function.update m (2 * i) v) (2 * i + 1) v' (2 * j + e) = m (2 * j + e) := by
  rw [Function.update_of_ne (by omega), Function.update_of_ne (by omega)]

include ha hc hs hb he in
/-- The two places of a byte in the output of antenna `a`, whatever the output buffers held before. -/
theorem convert_parts (h : Build.eightBits.Fits nAnts nchans) (dataout : Nat → Nat → UInt8) :
    convert .eightBits datain dataout nAnts nchans a (2 * ((s * nchans + c) * 512 + b) + e) =
      part (datain ((a * nchans + c) * rxDataLen + (s * 512 + b))) e := by
  have hmem : ∀ {i : Nat}, i ∈ List.range (chansPerPacket * polsPerPacket) → i < 512 := List.mem_range.mp
  let view : (Nat → UInt8) → UInt8 := fun m => m (2 * ((s * nchans + c) * 512 + b) + e)
  have hb' : b ∈ List.range (chansPerPacket * polsPerPacket) := List.mem_range.mpr hb
  refine convert_place ha hc hs (fun m => ?_) (fun iL hiL iM hiM hne m => ?_) dataout
  · simp only [convertSample]
    refine Loop.foldl_set view hb' (fun m => ?_) (fun iN hiN hne m => ?_) m
    · simp only [view, indexin_eq ha hc hs hb h, indexout_eq hc hs hb h]
      exact update_parts he m _ _
    · simp only [view, indexout_eq hc hs (hmem hiN) h]
      exact update_parts_of_ne he m _ _ (by omega)
  · simp only [convertSample]
    refine Loop.foldl_keep view (fun iN hiN m => ?_) m
    simp only [view, indexout_eq hiL hiM (hmem hiN) h]
    exact update_parts_of_ne he m _ _ (outPlace_ne hc hb hiL (hmem hiN) hne)

end Frame

theorem fits_fourBits (h : Build.eightBits.Fits nAnts nchans) : Build.fourBits.Fits nAnts nchans := by
  have := h.outBuffer
  rw [outBufferLen_eightBits] at this
  exact ⟨h.inBuffer, by omega⟩

theorem outPlace_exists {j : Nat} (hj : j < Build.fourBits.outBufferLen nchans) :
    ∃ s c b, s < samplesPerPacket ∧ c < nchans ∧ b < 512 ∧ j = (s * nchans + c) * 512 + b := by
  rw [outBufferLen_eq, Build.bitsMultiplayer, Nat.one_mul] at hj
  obtain ⟨x, b, hx, hb, rfl⟩ := Radix.exists_digits hj
  obtain ⟨s, c, hs, hc, rfl⟩ := Radix.exists_digits hx
  exact ⟨s, c, b, hs, hc, hb, rfl⟩

/-- Byte `j` of the four-bit output stands at `2 * j` and `2 * j + 1` of the eight-bit output. -/
theorem convert_eightBits {j e : Nat} (ha : a < nAnts) (he : e < 2) (h : Build.eightBits.Fits nAnts nchans)
    (hj : j < Build.fourBits.outBufferLen nchans) (datain : Nat → UInt8) (dataout dataout' : Nat → Nat → UInt8) :
    convert .eightBits datain dataout' nAnts nchans a (2 * j + e) =
      part (convert .fourBits datain dataout nAnts nchans a j) e := by
  obtain ⟨s, c, b, hs, hc, hb, rfl⟩ := outPlace_exists hj
  rw [convert_parts ha hc hs hb he h, convert_cell ha hc hs hb (fits_fourBits h)]

/-- What `convert` puts into the output buffers depends on the frame only, in both builds. -/
theorem convert_congr {build : Build} (h : build.Fits nAnts nchans) {datain datain' : Nat → UInt8}
    (hin : ∀ x < inBufferLen nAnts nchans, datain x = datain' x) (dataout dataout' : Nat → Nat → UInt8) {k : Nat}
    (ha : a < nAnts) (hk : k < build.outBufferLen nchans) :
    convert build datain dataout nAnts nchans a k = convert build datain' dataout' nAnts nchans a k := by
  cases build with
  | fourBits =>
    obtain ⟨s, c, b, hs, hc, hb, rfl⟩ := outPlace_exists hk
    rw [convert_cell ha hc hs hb h, convert_cell ha hc hs hb h]
    exact hin _ (inBufferLen_gt ha hc hs hb)
  | eightBits =>
    rw [outBufferLen_eightBits] at hk
    obtain ⟨j, e, hj, he, rfl⟩ : ∃ j e, j < Build.fourBits.outBufferLen nchans ∧ e < 2 ∧ k = 2 * j + e :=
      ⟨k / 2, k % 2, by omega, by omega, by omega⟩
    obtain ⟨s, c, b, hs, hc, hb, rfl⟩ := outPlace_exists hj
    rw [convert_parts ha hc hs hb he h, convert_parts ha hc hs hb he h, hin _ (inBufferLen_gt ha hc hs hb)]

/-- The eight-bit build writes the two nibbles of each byte of the four-bit build, with their signs, side by
    side, and so all of its output buffer. -/
theorem eightBits_refines (nAnts nchans : Nat) (h : Build.eightBits.Fits nAnts nchans) (datain : Nat → UInt8)
    (dataout dataout' : Nat → Nat → UInt8) : ∀ iK < nAnts,
    (∀ j < Build.fourBits.outBufferLen nchans,
      let v := convert .fourBits datain dataout nAnts nchans iK j
      let datare := (convert .eightBits datain dataout' nAnts nchans iK (2 * j)).toInt8
      let dataim := (convert .eightBits datain dataout' nAnts nchans iK (2 * j + 1)).toInt8
      datare.toInt = highNibble v ∧ dataim.toInt = lowNibble v ∧
        (-8 ≤ datare.toInt ∧ datare.toInt ≤ 7) ∧ (-8 ≤ dataim.toInt ∧ dataim.toInt ≤ 7) ∧ pack datare dataim = v) ∧
    ∀ k < Build.eightBits.outBufferLen nchans, ∀ dataout'' : Nat → Nat → UInt8,
      convert .eightBits datain dataout' nAnts nchans iK k =
        convert .eightBits datain dataout'' nAnts nchans iK k := by
  intro iK hiK
  refine ⟨fun j hj => ?_, fun k hk dataout'' => ?_⟩
  · have hre := convert_eightBits (e := 0) hiK (by decide) h hj datain dataout dataout'
    have him := convert_eightBits (e := 1) hiK (by decide) h hj datain dataout dataout'
    rw [Nat.add_zero] at hre
    intro v datare dataim
    obtain ⟨hhigh, hlow, hpack⟩ := unpack_spec v
    have hre' : datare = (unpack v.toInt8).1 := (congrArg UInt8.toInt8 hre).trans (Int8.toInt8_toUInt8 _)
    have him' : dataim = (unpack v.toInt8).2 := (congrArg UInt8.toInt8 him).trans (Int8.toInt8_toUInt8 _)
    rw [hre', him', hhigh, hlow]
    exact ⟨rfl, rfl, nibble_bounds _, nibble_bounds _, hpack⟩
  · exact convert_congr h (fun _ _ => rfl) dataout' dataout'' hiK hk

theorem eightBits_refines_single :
    (convert .eightBits (fun _ => 0x9c) (fun _ _ => 0) 1 1 0 10).toInt8.toInt =
      highNibble (convert .fourBits (fun _ => 0x9c) (fun _ _ => 0) 1 1 0 5) :=
  ((eightBits_refines 1 1 ⟨by decide, by decide⟩ (fun _ => 0x9c) (fun _ _ => 0) (fun _ _ => 0) 0 (by decide)).1 5
    (by decide)).1

end VoltRec
