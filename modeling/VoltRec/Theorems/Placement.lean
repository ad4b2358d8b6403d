import VoltRec.OuterData
import VoltRec.Lib.Rows
import VoltRec.Theorems.BlockSize
import Mathlib.Tactic.Linarith

/-! Where the payload of a packet goes. A block of an observation is a table with a row for each channel of each
    antenna, and in a row a slot for each packet index; a packet fills the slot of its index in consecutive rows. -/

namespace VoltRec.VoltOuter

open Memory

/-! ### The sizes of an observation -/

namespace Observation

variable (o : Observation)

/-- The channels of one antenna. -/
def nchan : Nat := o.oi.nstrm * o.oi.hnchan

/-- The bytes of the samples of a heap in one channel, and of a row. -/
def istride : Nat := 4 * o.oi.hntime
def ostride : Nat := o.cfg.pktidxPerBlock * o.istride

/-- The rows that a packet of 1024 bytes goes into. -/
def nRows : Nat := (1024 + o.istride - 1) / o.istride

theorem nonzero : 0 < o.oi.nants ∧ 0 < o.oi.nstrm ∧ 0 < o.oi.hntime ∧ 0 < o.oi.hnchan := by
  have h := o.valid
  simp only [mkObsInfoValid, Bool.and_eq_true, bne_iff_ne, ne_eq] at h
  omega

theorem nchan_pos : 0 < o.nchan := Nat.mul_pos o.nonzero.2.1 o.nonzero.2.2.2

theorem istride_pos : 0 < o.istride := by
  have := o.nonzero
  unfold istride
  omega

theorem istride_le : o.istride ≤ o.ostride := Nat.le_mul_of_pos_left _ o.cfg.pktidxPerBlock_pos

theorem unit_eq : 4 * (o.oi.nants * o.oi.nstrm * o.oi.hnchan) * o.oi.hntime = o.oi.nants * o.nchan * o.istride := by
  simp only [nchan, istride]
  ring

theorem rows_lt : o.oi.nants * o.nchan < 2 ^ 32 := by
  have hfits := o.fits
  rw [unit_eq] at hfits
  calc o.oi.nants * o.nchan ≤ o.oi.nants * o.nchan * o.istride := Nat.le_mul_of_pos_right _ o.istride_pos
    _ ≤ blockDataSize := hfits
    _ < 2 ^ 32 := by decide

/-- The division of a block by the bytes of a packet index, without the wraps. -/
theorem calcMkPktidxPerBlock_eq :
    calcMkPktidxPerBlock blockDataSize (mkObsnchan o.oi) o.oi.hntime =
      some (prevpow2 (blockDataSize / (o.oi.nants * o.nchan * o.istride))) ∧
    4 * mkObsnchan o.oi * o.oi.hntime = o.oi.nants * o.nchan * o.istride := by
  have hfits := o.fits
  have hblock : blockDataSize < 2 ^ 32 := by decide
  have hrows := o.rows_lt
  have hpos : 0 < o.oi.nants * o.nchan * o.istride :=
    Nat.mul_pos (Nat.mul_pos o.nonzero.1 o.nchan_pos) o.istride_pos
  have hobs : mkObsnchan o.oi = o.oi.nants * o.oi.nstrm * o.oi.hnchan := by
    refine Nat.mod_eq_of_lt ?_
    rwa [Nat.mul_assoc]
  have hunit : 4 * mkObsnchan o.oi * o.oi.hntime = o.oi.nants * o.nchan * o.istride := by rw [hobs, unit_eq]
  rw [unit_eq] at hfits
  refine ⟨?_, hunit⟩
  rw [calcMkPktidxPerBlock, hunit, Nat.mod_eq_of_lt (Nat.lt_of_le_of_lt hfits hblock), if_neg (Nat.ne_of_gt hpos),
    Nat.mod_eq_of_lt (Nat.lt_of_le_of_lt (Nat.div_le_self _ _) hblock)]

theorem block_fits : o.oi.nants * o.nchan * o.ostride ≤ blockDataSize := by
  have hpos : 0 < o.oi.nants * o.nchan * o.istride :=
    Nat.mul_pos (Nat.mul_pos o.nonzero.1 o.nchan_pos) o.istride_pos
  have hn : prevpow2 (blockDataSize / (o.oi.nants * o.nchan * o.istride)) = o.cfg.pktidxPerBlock :=
    Option.some.inj (o.calcMkPktidxPerBlock_eq.1.symm.trans o.pktidxPerBlock)
  calc o.oi.nants * o.nchan * o.ostride = o.cfg.pktidxPerBlock * (o.oi.nants * o.nchan * o.istride) := by
        rw [ostride]; ring
    _ ≤ blockDataSize := by
        rw [← hn]
        exact (largestPow2_prevpow2 hpos (by decide)).2.1

theorem ntime_eq : mkNtime blockDataSize o.oi = some (o.oi.hntime * o.cfg.pktidxPerBlock % 2 ^ 32) := by
  rw [mkNtime, calcMkNtime]
  exact congrArg (Option.map _) o.pktidxPerBlock

theorem effBlockSize_eq : o.cfg.effBlockSize = o.oi.nants * o.nchan * o.ostride := by
  have hsize := o.effBlockSize
  have hn : calcMkPktidxPerBlock blockDataSize (mkObsnchan o.oi) o.oi.hntime = some o.cfg.pktidxPerBlock :=
    o.pktidxPerBlock
  rw [mkBlockSize, calcMkBlockSize, hn, Option.map_some, Option.some.injEq, o.calcMkPktidxPerBlock_eq.2] at hsize
  have heq : o.oi.nants * o.nchan * o.istride * o.cfg.pktidxPerBlock = o.oi.nants * o.nchan * o.ostride := by
    rw [ostride]; ring
  rw [heq, Nat.mod_eq_of_lt (Nat.lt_of_le_of_lt o.block_fits (by decide))] at hsize
  exact hsize.symm

theorem ostride_lt : o.ostride ≤ blockDataSize :=
  (Nat.le_mul_of_pos_left _ (Nat.mul_pos o.nonzero.1 o.nchan_pos)).trans o.block_fits

/-! ### Places in a block -/

/-- The place of a byte of a packet index, in the row of a channel of an antenna. -/
def place (ant chan slot byte : Nat) : Nat := ((ant * o.nchan + chan) * o.cfg.pktidxPerBlock + slot) * o.istride + byte

/-- The first channel of its antenna that a packet has samples of. -/
def firstChan (fesi : MkFengSpeadInfo) : Nat := fesi.fengChan - o.oi.schan.toNat + fesi.heapOffset / o.istride

def slotIdx (fesi : MkFengSpeadInfo) : Nat := mkPktidx o.oi fesi % o.cfg.pktidxPerBlock

/-- The packet is of a channel of the observation, and of samples inside its heap. -/
structure InHeap (fesi : MkFengSpeadInfo) : Prop where
  fengId : fesi.fengId < o.oi.nants
  payloadSize : fesi.payloadSize = 1024
  schan_le : o.oi.schan.toNat ≤ fesi.fengChan
  rows : o.firstChan fesi + o.nRows ≤ o.nchan

/-- The cells of a block that a packet has bytes for. -/
def cells (fesi : MkFengSpeadInfo) (payload : Nat → UInt8) : Nat → Option UInt8 :=
  rowsAt payload (o.place fesi.fengId (o.firstChan fesi) (o.slotIdx fesi) 0) o.ostride o.istride o.istride o.nRows

theorem place_eq (ant chan slot byte : Nat) :
    o.place ant chan slot byte = slot * o.istride + (ant * o.nchan + chan) * o.ostride + byte := by
  rw [place, ostride]
  ring

theorem place_row (ant chan slot i byte : Nat) :
    o.place ant (chan + i) slot byte = o.place ant chan slot 0 + (i * o.ostride + byte) := by
  simp only [place_eq]
  ring

theorem slot_lt {slot byte : Nat} (hs : slot < o.cfg.pktidxPerBlock) (hb : byte < o.istride) :
    slot * o.istride + byte < o.ostride := Radix.lt_mul hs hb

variable {o}

/-- Of the places of a block, a packet has bytes for those of its antenna, its channels and its slot. -/
theorem cells_place {fesi : MkFengSpeadInfo} {payload : Nat → UInt8} (hin : o.InHeap fesi) {ant chan slot byte : Nat}
    (hchan : chan < o.nchan) (hslot : slot < o.cfg.pktidxPerBlock) (hbyte : byte < o.istride) :
    o.cells fesi payload (o.place ant chan slot byte) =
      if fesi.fengId = ant ∧ o.slotIdx fesi = slot ∧ o.firstChan fesi ≤ chan ∧ chan < o.firstChan fesi + o.nRows then
        some (payload ((chan - o.firstChan fesi) * o.istride + byte))
      else none := by
  have hrows := hin.rows
  have hown : o.slotIdx fesi < o.cfg.pktidxPerBlock := Nat.mod_lt _ o.cfg.pktidxPerBlock_pos
  split
  · rename_i h
    obtain ⟨rfl, rfl, hle, hlt⟩ := h
    obtain ⟨i, rfl⟩ := Nat.exists_eq_add_of_le hle
    rw [place_row, cells, rowsAt_apply o.istride_le (by omega) hbyte, Nat.add_sub_cancel_left]
  · rename_i hnot
    cases h : o.cells fesi payload (o.place ant chan slot byte) with
    | none => rfl
    | some v =>
      -- The digits of the place tell the antenna, the channel and the slot.
      obtain ⟨i, j, hi, hj, hx, -⟩ := rowsAt_eq_some h
      rw [← place_row] at hx
      obtain ⟨hcol, rfl⟩ := Radix.inj hbyte hj hx
      obtain ⟨hrow, rfl⟩ := Radix.inj hslot hown hcol
      obtain ⟨rfl, rfl⟩ := Radix.inj hchan (show o.firstChan fesi + i < o.nchan by omega) hrow
      exact absurd ⟨rfl, rfl, by omega, by omega⟩ hnot

/-- A packet has no bytes behind the end of the block. -/
theorem cells_lt {fesi : MkFengSpeadInfo} {payload : Nat → UInt8} (hin : o.InHeap fesi) {x : Nat} {v : UInt8}
    (h : o.cells fesi payload x = some v) : x < o.cfg.effBlockSize := by
  have hrows := hin.rows
  have hown : o.slotIdx fesi < o.cfg.pktidxPerBlock := Nat.mod_lt _ o.cfg.pktidxPerBlock_pos
  obtain ⟨i, j, hi, hj, rfl, -⟩ := rowsAt_eq_some h
  rw [← place_row, effBlockSize_eq, place_eq, Nat.add_right_comm, Nat.add_comm]
  exact Radix.lt_mul (Radix.lt_mul hin.fengId (show o.firstChan fesi + i < o.nchan by omega)) (o.slot_lt hown hj)

end Observation

/-! ### The copy -/

theorem memcpyNt_eq {sizeNt dst src len : Nat} (hdst : 2 ^ sizeNt ∣ dst) (hsrc : 2 ^ sizeNt ∣ src)
    (hlen : 2 ^ sizeNt ∣ len) (payload m : Nat → UInt8) :
    memcpyNt sizeNt payload m dst src len = some (copy m dst fun j : Fin len => payload (src + j)) := by
  have hwhole : (len >>> sizeNt) * 2 ^ sizeNt = len := by
    rw [Nat.shiftRight_eq_div_pow, Nat.div_mul_cancel hlen]
  rw [memcpyNt, if_neg (by rw [Nat.mod_eq_zero_of_dvd hdst, Nat.mod_eq_zero_of_dvd hsrc]; simp), hwhole]

theorem copyRows_eq {sizeNt istride ostride : Nat} (payload : Nat → UInt8) (hlt : istride < 2 ^ 31)
    (hle : istride ≤ ostride) (hi : 2 ^ sizeNt ∣ istride) (ho : 2 ^ sizeNt ∣ ostride) (rows : Nat) :
    ∀ {fuel : Nat} {m : Nat → UInt8} {dst src : Nat} {bytes : Int}, 2 ^ sizeNt ∣ dst → 2 ^ sizeNt ∣ src →
      rows < fuel → bytes < 2 ^ 31 → rows * istride < bytes + istride → bytes ≤ rows * istride →
      copyRows sizeNt istride ostride payload fuel m dst src bytes =
        some (overlay m (rowsAt (fun x => payload (src + x)) dst ostride istride istride rows)) := by
  induction rows with
  | zero =>
    intro fuel m dst src bytes hdst hsrc hfuel hbytes hlo hhi
    obtain ⟨fuel, rfl⟩ := Nat.exists_eq_add_of_lt hfuel
    have hstop : ¬bytes > 0 := by omega
    simp only [Nat.zero_add, copyRows, if_neg hstop, rowsAt_zero]
    rfl
  | succ rows ih =>
    intro fuel m dst src bytes hdst hsrc hfuel hbytes hlo hhi
    obtain ⟨fuel, rfl⟩ : ∃ n, fuel = n + 1 := ⟨fuel - 1, by omega⟩
    rw [Nat.cast_succ, add_mul, one_mul] at hlo hhi
    have hrows : (0 : Int) ≤ rows * istride := by positivity
    have hgo : bytes > 0 := by omega
    have hint : (bytes - istride).bmod (2 ^ 32) = bytes - istride :=
      Int.bmod_eq_of_le (by omega) (by omega)
    have hrest := ih (m := copy m dst fun j : Fin istride => payload (src + j)) (Nat.dvd_add hdst ho)
      (Nat.dvd_add hsrc hi)
      (Nat.lt_of_succ_lt_succ hfuel) (by omega) (by omega) (show bytes - istride ≤ _ by omega)
    simp only [Nat.add_assoc] at hrest
    rw [copyRows, if_pos hgo, hint, memcpyNt_eq hdst hsrc hi, Option.bind_eq_bind, Option.bind_some, hrest]
    exact congrArg some (@overlay_rowsAt_succ _ (fun x => payload (src + x)) m dst ostride istride istride rows hle)

namespace Observation
variable {o : Observation} {fesi : MkFengSpeadInfo}

theorem InHeap.first_lt (hin : o.InHeap fesi) : fesi.fengId * o.nchan + o.firstChan fesi < o.oi.nants * o.nchan := by
  have hrows := hin.rows
  have hpos : 0 < o.nRows := Nat.div_pos (by have := o.istride_pos; omega) o.istride_pos
  exact Radix.lt_mul hin.fengId (by omega)

theorem InHeap.mkBlockChan_eq (hin : o.InHeap fesi) :
    mkBlockChan o.oi fesi = fesi.fengId * o.nchan + (fesi.fengChan - o.oi.schan.toNat) ∧
      mkBlockChan o.oi fesi < o.oi.nants * o.nchan := by
  have hfirst : fesi.fengId * o.nchan + (fesi.fengChan - o.oi.schan.toNat) < o.oi.nants * o.nchan :=
    Nat.lt_of_le_of_lt (Nat.add_le_add_left (Nat.le_add_right _ _) _) hin.first_lt
  have hrows := o.rows_lt
  have hschan := o.schan_nonneg
  have hlt := o.schan_lt
  have hle := hin.schan_le
  have hmod : (o.oi.schan % 2 ^ 32).toNat = o.oi.schan.toNat := by omega
  have heq : mkBlockChan o.oi fesi = fesi.fengId * o.nchan + (fesi.fengChan - o.oi.schan.toNat) := by
    rw [mkBlockChan, calcMkBlockChan, hmod, Nat.mul_assoc]
    change (fesi.fengId * o.nchan + _) % _ = _
    omega
  exact ⟨heq, heq ▸ hfirst⟩

theorem slotIdx_lt : o.slotIdx fesi < o.cfg.pktidxPerBlock := Nat.mod_lt _ o.cfg.pktidxPerBlock_pos

theorem InHeap.place_lt (hin : o.InHeap fesi) :
    o.place fesi.fengId (o.firstChan fesi) (o.slotIdx fesi) 0 < o.oi.nants * o.nchan * o.ostride := by
  have hslot : o.slotIdx fesi < o.cfg.pktidxPerBlock := slotIdx_lt
  have hlt := Radix.lt_mul hin.first_lt (o.slot_lt hslot o.istride_pos)
  rw [place_eq]
  omega

/-- The sums of the offset do not wrap. -/
theorem InHeap.dstOffset_eq (hin : o.InHeap fesi) :
    dstOffset o.oi fesi o.cfg.pktidxPerBlock o.istride o.ostride =
      o.place fesi.fengId (o.firstChan fesi) (o.slotIdx fesi) 0 := by
  have hblock : blockDataSize = 2 ^ 27 := by decide
  have hplace := Nat.lt_of_lt_of_le hin.place_lt o.block_fits
  obtain ⟨hchan, hchanLt⟩ := hin.mkBlockChan_eq
  have hidx : (mkPktidx o.oi fesi % o.cfg.pktidxPerBlock : Int).bmod (2 ^ 32) = (o.slotIdx fesi : Nat) := by
    have hlt : o.slotIdx fesi < o.cfg.pktidxPerBlock := slotIdx_lt
    have hppb : o.cfg.pktidxPerBlock ≤ o.ostride := Nat.le_mul_of_pos_right _ o.istride_pos
    have hole := o.ostride_lt
    rw [← Int.natCast_mod]
    exact Int.bmod_eq_of_le (by rw [← slotIdx]; omega) (by rw [← slotIdx]; omega)
  have hbc : (mkBlockChan o.oi fesi : Int).bmod (2 ^ 32) = (mkBlockChan o.oi fesi : Nat) := by
    have hone : o.oi.nants * o.nchan ≤ blockDataSize :=
      (Nat.le_mul_of_pos_right _ (Nat.lt_of_lt_of_le o.istride_pos o.istride_le)).trans o.block_fits
    exact Int.bmod_eq_of_le (by omega) (by omega)
  have hsum : ((o.slotIdx fesi : Nat) * o.istride + (mkBlockChan o.oi fesi : Nat) * o.ostride +
      fesi.heapOffset / o.istride * o.ostride : Int) =
      (o.place fesi.fengId (o.firstChan fesi) (o.slotIdx fesi) 0 : Nat) := by
    rw [place_eq, firstChan, hchan]
    push_cast
    ring
  unfold dstOffset
  dsimp only
  rw [hidx, hbc, hsum, Int.emod_eq_of_lt (by omega) (by omega), Int.toNat_natCast]

theorem InHeap.copy_eq (hin : o.InHeap fesi) (data payload : Nat → UInt8) :
    copyPacketDataToDatabuf o.sizeNt o.oi o.cfg.pktidxPerBlock data fesi payload =
      some (overlay data (o.cells fesi payload)) := by
  have hblock : blockDataSize = 2 ^ 27 := by decide
  have hpos := o.istride_pos
  have hile := o.istride_le
  have hole := o.ostride_lt
  have hpp := o.cfg.pktidxPerBlock_pos
  have hi : 4 * o.oi.hntime % 2 ^ 32 = o.istride := Nat.mod_eq_of_lt (by rw [← istride]; omega)
  have hn : o.oi.hntime * o.cfg.pktidxPerBlock ≤ o.ostride := by
    calc o.oi.hntime * o.cfg.pktidxPerBlock ≤ 4 * (o.oi.hntime * o.cfg.pktidxPerBlock) := by omega
      _ = o.ostride := by rw [ostride, istride]; ring
  have ho : 4 * (o.oi.hntime * o.cfg.pktidxPerBlock % 2 ^ 32) % 2 ^ 32 = o.ostride := by
    have h4 : 4 * (o.oi.hntime * o.cfg.pktidxPerBlock) = o.ostride := by rw [ostride, istride]; ring
    omega
  have hbytes : (fesi.payloadSize : Int).bmod (2 ^ 32) = 1024 := by rw [hin.payloadSize]; rfl
  have hnot : ¬(o.istride = 0 ∨ o.cfg.pktidxPerBlock = 0) := by omega
  have hdiv := Nat.div_add_mod (1024 + o.istride - 1) o.istride
  have hmod := Nat.mod_lt (1024 + o.istride - 1) hpos
  have hrow : o.istride * o.nRows = o.nRows * o.istride := Nat.mul_comm _ _
  change o.istride * o.nRows + _ = _ at hdiv
  have hfuel : o.nRows ≤ 1024 := by
    have h : o.nRows ≤ (1024 * o.istride) / o.istride := Nat.div_le_div_right (by omega)
    rwa [Nat.mul_div_cancel _ hpos] at h
  simp only [copyPacketDataToDatabuf, hi, o.ntime_eq, ho, hbytes, hnot, if_false, Option.bind_eq_bind,
    Option.bind_some, hin.dstOffset_eq]
  have hdst : 2 ^ o.sizeNt ∣ o.place fesi.fengId (o.firstChan fesi) (o.slotIdx fesi) 0 := by
    rw [place, Nat.add_zero]
    exact o.aligned.mul_left _
  refine (copyRows_eq payload (by omega) hile o.aligned (Dvd.dvd.mul_left o.aligned _) o.nRows hdst (Nat.dvd_zero _) ?_
    (by decide) ?_ ?_).trans ?_
  · show o.nRows < 1024 + 1
    omega
  · zify at hrow hdiv hmod
    omega
  · omega
  · simp only [Nat.zero_add]
    rfl

end Observation

end VoltRec.VoltOuter
